import Chiptune.Step

/-! What every channel has: four registers, a length, a timer and the level it last put out. -/

namespace Chiptune

/-- One of the four registers of a channel. -/
inductive Slot where
  | first
  | second
  | third
  | fourth
  deriving DecidableEq, Repr, Inhabited

namespace Slot

/-- The slot at an address, which its two low bits select. -/
def ofAddress (address : Nat) : Slot :=
  match address % 4 with
  | 0 => first
  | 1 => second
  | 2 => third
  | _ => fourth

end Slot

/-- One value for each of the four registers of a channel. -/
structure Bank (α : Type) where
  first : α
  second : α
  third : α
  fourth : α
  deriving DecidableEq, Repr

namespace Bank

variable {α : Type}

/-- The bank with `a` in every slot. -/
def fill (a : α) : Bank α := ⟨a, a, a, a⟩

/-- The value at a slot. -/
def get (bank : Bank α) : Slot → α
  | .first => bank.first
  | .second => bank.second
  | .third => bank.third
  | .fourth => bank.fourth

/-- Replaces the value at a slot. -/
def set (bank : Bank α) (slot : Slot) (a : α) : Bank α :=
  match slot with
  | .first => { bank with first := a }
  | .second => { bank with second := a }
  | .third => { bank with third := a }
  | .fourth => { bank with fourth := a }

/-- The four values in the order of their addresses. -/
def toList (bank : Bank α) : List α := [bank.first, bank.second, bank.third, bank.fourth]

@[simp] theorem get_set_same (bank : Bank α) (slot : Slot) (a : α) :
    (bank.set slot a).get slot = a := by
  cases slot <;> rfl

theorem get_set_ne (bank : Bank α) {slot slot' : Slot} (a : α) (h : slot ≠ slot') :
    (bank.set slot a).get slot' = bank.get slot' := by
  cases slot <;> cases slot' <;> first | rfl | exact absurd rfl h

end Bank

/-- The state that all channels share.  `pending` marks the registers written since the channel last
took notice, `length` counts what is left to play, `delay` is the number of clocks from the end of
the last run to the next timer event, and `level` is the level last put out. -/
structure Voice where
  registers : Bank UInt8 := .fill 0
  pending : Bank Bool := .fill false
  length : Nat := 0
  delay : Int := 0
  level : Int := 0
  deriving DecidableEq, Repr

namespace Voice

/-- Bit `n` of a register. -/
def bit (register : UInt8) (n : Nat) : Bool := register.toNat.testBit n

/-- The timer period of eleven bits: the three low bits of the fourth register above the eight bits
of the third. -/
def period (voice : Voice) : Nat :=
  voice.registers.fourth.toNat % 8 * 256 + voice.registers.third.toNat

/-- Stores `value` in a register and marks the register as written. -/
def write (voice : Voice) (slot : Slot) (value : UInt8) : Voice :=
  { voice with
    registers := voice.registers.set slot value
    pending := voice.pending.set slot true }

/-- Counts the length down by one, unless it is zero or the first register holds a bit of
`haltMask`. -/
def clockLength (voice : Voice) (haltMask : UInt8) : Voice :=
  if voice.length ≠ 0 ∧ voice.registers.first &&& haltMask = 0 then
    { voice with length := voice.length - 1 }
  else voice

/-- Moves the level to `level` and records the step at `time`. -/
def moveTo (voice : Voice) (level time : Int) (steps : Array Step) : Voice × Array Step :=
  ({ voice with level }, Step.record steps time (level - voice.level))

/-- Stops the timer and puts the level at zero.  Registers, marks and length stay. -/
def reset (voice : Voice) : Voice :=
  { voice with delay := 0, level := 0 }

end Voice

end Chiptune
