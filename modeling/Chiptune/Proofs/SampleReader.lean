import Chiptune.Proofs.History
import Chiptune.Proofs.Stops

/-! What reads samples.  A `Reader` knows nothing of bits and levels.  It makes passes through samples,
a call for each byte, and is told by the host what is written and by the channel when the eighth bit
of a byte has been played.  It makes no call while it is idle, nor while its last byte still waits. -/

namespace Chiptune

/-- A pass through a sample, with the registers from which it took its start and its length, and the
number of calls made so far. -/
structure Pass where
  base : UInt8
  extent : UInt8
  made : Nat := 0
  cut : Bool := false

namespace Pass

/-- The number of bytes in the sample. -/
def size (pass : Pass) : Nat := 0x10 * pass.extent.toNat + 1

/-- The address of a byte of the sample.  After `$FFFF` comes `$8000`. -/
def address (pass : Pass) (n : Nat) : UInt16 :=
  let flat := 0xC000 + 0x40 * pass.base.toNat + n
  .ofNat (if flat < 0x10000 then flat else flat - 0x8000)

/-- The addresses that a pass has read so far, in their order. -/
def calls (pass : Pass) : List UInt16 := (List.range pass.made).map pass.address

end Pass

/-- What reads samples.  `control`, `base` and `extent` are the bytes last written to `$4010`, `$4012`
and `$4013`, and `unpaid` counts the calls of which the stall was not yet collected. -/
structure Reader where
  control : UInt8 := 0x10
  base : UInt8 := 0
  extent : UInt8 := 0
  playing : Option Pass := none
  past : List Pass := []
  full : Bool := false
  irq : Bool := false
  unpaid : Nat := 0

namespace Reader

/-- All calls, the first one first. -/
def calls (reader : Reader) : List UInt16 :=
  (reader.past ++ reader.playing.toList).flatMap Pass.calls

/-- Begins a pass with the registers as they are now. -/
def start (reader : Reader) : Reader :=
  { reader with playing := some { base := reader.base, extent := reader.extent } }

/-- Makes the next call of a pass.  After the last one the next pass begins, or else the reader falls
idle and raises its interrupt if it may. -/
def call (reader : Reader) (pass : Pass) : Reader :=
  let pass := { pass with made := pass.made + 1 }
  let called := { reader with full := true, unpaid := reader.unpaid + 1 }
  if pass.made < pass.size then { called with playing := some pass }
  else
    let done := { called with past := reader.past ++ [pass] }
    if Voice.bit reader.control 6 then done.start
    else { done with playing := none, irq := Voice.bit reader.control 7 }

/-- Makes a call if there is a pass to make it for and room for its byte. -/
def refill (reader : Reader) : Reader :=
  match reader.playing with
  | some pass => if reader.full then reader else reader.call pass
  | none => reader

/-- The channel has played a byte and takes the one that waits. -/
def byteEnd (reader : Reader) : Reader :=
  if reader.full then { reader with full := false }.refill else reader

/-- Leaves the pass that is being made. -/
def halt (reader : Reader) : Reader :=
  { reader with
    past := reader.past ++ (reader.playing.map fun pass => { pass with cut := true }).toList
    playing := none }

/-- Switched off, the reader halts.  Switched on, it begins a pass unless it is making one. -/
def enable (reader : Reader) (on : Bool) : Reader :=
  let quiet := { reader with irq := false }
  if !on then quiet.halt
  else if reader.playing.isSome then quiet
  else quiet.start.refill

/-- A write to the chip, as far as it concerns the reader. -/
def write (reader : Reader) (address : UInt16) (value : UInt8) : Reader :=
  if address = 0x4010 then
    { reader with
      control := value
      irq := reader.irq && (Voice.bit value 7 && !Voice.bit value 6) }
  else if address = 0x4012 then { reader with base := value }
  else if address = 0x4013 then { reader with extent := value }
  else if address = 0x4015 then reader.enable (value &&& 0x10 ≠ 0)
  else reader

/-- What the host does. -/
def act (reader : Reader) : Operation → Reader
  | .write _ address value => reader.write address value
  | .takeStall => { reader with unpaid := 0 }
  | .reset => { past := reader.halt.past }
  | _ => reader

end Reader

/-- Whether an operation switches the sample channel on. -/
def Operation.startsSample : Operation → Bool
  | .write _ address value => address = 0x4015 && value &&& 0x10 ≠ 0
  | _ => false

/-- The number of bytes that end before `stop`, where the next bit is due at `due`. -/
def Dmc.byteEnds (dmc : Dmc) (due stop : Int) : Nat :=
  Timer.count (dmc.period * 8) (dmc.fetchDue due) stop

/-- The reader beside a history of a console.  A refused operation means nothing to it. -/
def Reader.follow (reader : Reader) (console : Console) : List Operation → Reader
  | [] => reader
  | operation :: operations =>
    match console.perform operation with
    | .error _ => reader.follow console operations
    | .ok (_, next) =>
      let chip := console.board.chip
      let ends := chip.dmc.byteEnds (chip.time + chip.dmc.voice.delay) (operation.stop chip.time)
      ((Timer.skip Reader.byteEnd ends reader).act operation).follow next operations

/-! ### Passes -/

namespace Pass

theorem calls_succ (pass : Pass) :
    { pass with made := pass.made + 1 }.calls = pass.calls ++ [pass.address pass.made] := by
  unfold calls
  rw [List.range_succ, List.map_append]
  rfl

theorem le_address {pass : Pass} {n : Nat} (h : n < pass.size) : 0x8000 ≤ pass.address n := by
  have hbase : pass.base.toNat < 256 := pass.base.toNat_lt
  have hextent : pass.extent.toNat < 256 := pass.extent.toNat_lt
  unfold size at h
  show 0x8000 ≤ (pass.address n).toNat
  unfold address
  rw [UInt16.toNat_ofNat']
  split <;> omega

/-- The bytes that are left of a pass, and the offset of the next one. -/
structure At (pass : Pass) (length : Nat) (address : BitVec 15) : Prop where
  left : pass.made + length = pass.size
  more : length ≠ 0
  address : address.toNat = (0x4000 + 0x40 * pass.base.toNat + pass.made) % 0x8000

theorem At.fetchAddress {pass : Pass} {dmc : Dmc} (h : pass.At dmc.voice.length dmc.address) :
    dmc.fetchAddress = pass.address pass.made := by
  have hbase : pass.base.toNat < 256 := pass.base.toNat_lt
  have hextent : pass.extent.toNat < 256 := pass.extent.toNat_lt
  have hsize : pass.made < 0x10 * pass.extent.toNat + 1 := by
    have hleft := h.left
    have hmore := h.more
    unfold size at hleft
    omega
  rw [dmc.fetchAddress_eq, h.address]
  unfold Pass.address
  congr 1
  split <;> omega

end Pass

/-! ### Bytes -/

namespace Dmc

variable {dmc : Dmc} {bus : Bus} {due stop : Int}

theorem byteEnds_of_le (h : stop ≤ due) : dmc.byteEnds due stop = 0 :=
  Timer.count_eq_zero dmc.bytePeriod_pos (Int.le_trans h (dmc.le_fetchDue due))

theorem untouched_bitsLeft : Untouched bitsLeft :=
  ⟨fun _ _ => rfl, fun _ => rfl, fun _ => rfl, fun _ _ => rfl, fun _ => rfl⟩

theorem bitsLeft_tick (dmc : Dmc) (bus : Bus) : (dmc.tick bus).1.bitsLeft = dmc.bitsLeft - 1 :=
  untouched_bitsLeft.tick dmc bus

/-- An event with no bit left to follow it ends a byte. -/
theorem byteEnds_event (h : due < stop) :
    dmc.byteEnds due stop =
      if dmc.bitsLeft = 0 then (dmc.tick bus).1.byteEnds (due + dmc.period) stop + 1
      else (dmc.tick bus).1.byteEnds (due + dmc.period) stop := by
  have hperiod : (dmc.tick bus).1.period = dmc.period := period_of_setup (dmc.setup_tick bus)
  unfold byteEnds fetchDue
  rw [hperiod, bitsLeft_tick, bitsLeft_pred]
  split
  · rename_i hbits
    have hfirst : due + (dmc.bitsLeft.toNat * dmc.period : Nat) = due := by
      rw [hbits]
      simp
    have hnext : due + dmc.period + (7 * dmc.period : Nat) = due + (dmc.period : Int) * 8 := by
      omega
    rw [hfirst, hnext]
    exact Timer.count_succ dmc.bytePeriod_pos h
  · rename_i hbits
    have hpos : dmc.bitsLeft.toNat ≠ 0 := fun h => hbits (BitVec.eq_of_toNat_eq h)
    obtain ⟨n, hn⟩ := Nat.exists_eq_succ_of_ne_zero hpos
    have hsame : due + dmc.period + ((dmc.bitsLeft.toNat - 1) * dmc.period : Nat) =
        due + (dmc.bitsLeft.toNat * dmc.period : Nat) := by
      rw [hn, Nat.succ_sub_one, Nat.succ_mul]
      omega
    rw [hsame]

end Dmc

/-! ### Calls -/

namespace Reader

variable {reader : Reader} {pass : Pass}

theorem calls_of_playing (h : reader.playing = some pass) :
    reader.calls = reader.past.flatMap Pass.calls ++ pass.calls := by
  unfold calls
  rw [h, List.flatMap_append, Option.toList_some, List.flatMap_singleton]

theorem calls_start (h : reader.playing = none) : reader.start.calls = reader.calls := by
  unfold calls start
  rw [h, List.flatMap_append, List.flatMap_append]
  rfl

theorem call_of_more (h : pass.made + 1 < pass.size) :
    reader.call pass = { reader with
      full := true
      unpaid := reader.unpaid + 1
      playing := some { pass with made := pass.made + 1 } } := if_pos h

/-- The reader when the last byte of a pass was read. -/
def done (reader : Reader) (pass : Pass) : Reader :=
  { reader with
    full := true
    unpaid := reader.unpaid + 1
    playing := none
    past := reader.past ++ [{ pass with made := pass.made + 1 }] }

theorem call_of_last (h : ¬pass.made + 1 < pass.size) :
    reader.call pass =
      if Voice.bit reader.control 6 then (reader.done pass).start
      else { reader.done pass with irq := Voice.bit reader.control 7 } := if_neg h

theorem calls_done (h : reader.playing = some pass) :
    (reader.done pass).calls = reader.calls ++ [pass.address pass.made] := by
  rw [calls_of_playing h, List.append_assoc, ← pass.calls_succ]
  unfold calls done
  rw [Option.toList_none, List.append_nil, List.flatMap_append, List.flatMap_singleton]

theorem calls_call (h : reader.playing = some pass) :
    (reader.call pass).calls = reader.calls ++ [pass.address pass.made] := by
  by_cases hmore : pass.made + 1 < pass.size
  · rw [call_of_more hmore, calls_of_playing rfl, calls_of_playing h, pass.calls_succ,
      List.append_assoc]
  · rw [call_of_last hmore, ← calls_done h]
    split
    · exact calls_start rfl
    · rfl

theorem write_of_unseen {address : UInt16} (hstatus : Location.ofAddress? address ≠ some .status)
    (hvoice : ∀ slot, Location.ofAddress? address ≠ some (.voice .dmc slot)) (value : UInt8) :
    reader.write address value = reader := by
  unfold write
  rw [if_neg, if_neg, if_neg, if_neg]
  · rintro rfl
    exact hstatus rfl
  · rintro rfl
    exact hvoice .fourth rfl
  · rintro rfl
    exact hvoice .third rfl
  · rintro rfl
    exact hvoice .first rfl

theorem calls_halt (reader : Reader) : reader.halt.calls = reader.calls := by
  unfold calls halt
  rw [Option.toList_none, List.append_nil, List.flatMap_append, List.flatMap_append]
  cases reader.playing <;> rfl

/-! ### The idle reader -/

/-- A reader that makes no pass, and of which `past` are the passes. -/
structure Idle (past : List Pass) (reader : Reader) : Prop where
  playing : reader.playing = none
  past : reader.past = past

namespace Idle

variable {past : List Pass} (h : Idle past reader)
include h

theorem calls : reader.calls = past.flatMap Pass.calls := by
  unfold Reader.calls
  rw [h.playing, h.past, Option.toList_none, List.append_nil]

theorem halt : Idle past reader.halt := by
  refine ⟨rfl, ?_⟩
  unfold Reader.halt
  rw [h.playing]
  exact (List.append_nil reader.past).trans h.past

theorem byteEnd : Idle past reader.byteEnd := by
  have hrefill : { reader with full := false }.refill = { reader with full := false } := by
    unfold Reader.refill
    dsimp only
    rw [h.playing]
  unfold Reader.byteEnd
  rw [hrefill]
  split
  · exact ⟨h.playing, h.past⟩
  · exact h

theorem skip (ends : Nat) : Idle past (Timer.skip Reader.byteEnd ends reader) := by
  induction ends generalizing reader with
  | zero => exact h
  | succ ends ih => exact ih h.byteEnd

theorem write {address : UInt16} {value : UInt8} (hoff : address = 0x4015 → value &&& 0x10 = 0) :
    Idle past (reader.write address value) := by
  unfold Reader.write
  split
  · exact ⟨h.playing, h.past⟩
  split
  · exact ⟨h.playing, h.past⟩
  split
  · exact ⟨h.playing, h.past⟩
  split
  · rename_i hstatus
    have hquiet : Idle past { reader with irq := false } := ⟨h.playing, h.past⟩
    have hvalue : decide (value &&& 0x10 ≠ 0) = false :=
      decide_eq_false fun hon => hon (hoff hstatus)
    rw [hvalue]
    exact hquiet.halt
  · exact h

theorem act {operation : Operation} (hoff : operation.startsSample = false) :
    Idle past (reader.act operation) := by
  cases operation with
  | write time address value =>
    refine h.write fun haddress => ?_
    simpa [Operation.startsSample, haddress] using hoff
  | takeStall => exact ⟨h.playing, h.past⟩
  | reset => exact ⟨rfl, h.halt.past⟩
  | _ => exact h

/-- Only a write that enables the channel wakes the reader. -/
theorem follow {operations : List Operation}
    (hoff : ∀ operation ∈ operations, operation.startsSample = false) (console : Console) :
    Idle past (reader.follow console operations) := by
  induction operations generalizing reader console with
  | nil => exact h
  | cons operation operations ih =>
    have hrest := fun later hlater => hoff later (List.mem_cons_of_mem operation hlater)
    unfold Reader.follow
    cases console.perform operation with
    | error fault => exact ih h hrest console
    | ok result => exact ih ((h.skip _).act (hoff operation List.mem_cons_self)) hrest result.2

end Idle

end Reader

end Chiptune
