/-! The memory from which the sample channel fetches its bytes. -/

namespace Chiptune

/-- A memory bus.  `fetched` holds the addresses read so far, the first one first, and `respond`
gives the byte at an address after those reads. -/
structure Bus where
  respond : Array UInt16 → UInt16 → UInt8
  fetched : Array UInt16 := #[]

namespace Bus

/-- A bus whose byte at an address never changes. -/
def ofMemory (memory : UInt16 → UInt8) : Bus := { respond := fun _ => memory }

/-- A bus without memory: every read gives `value`. -/
def unconnected (value : UInt8) : Bus := ofMemory fun _ => value

/-- Reads the byte at `address`. -/
def read (bus : Bus) (address : UInt16) : UInt8 × Bus :=
  (bus.respond bus.fetched address, { bus with fetched := bus.fetched.push address })

end Bus

end Chiptune
