import Chiptune.Voice

/-! The volume of the pulse and noise channels: constant, or decaying from 15 to 0 and then held or
started over. -/

namespace Chiptune

/-- A decay unit.  `level` is the decaying volume and `delay` counts the quarter frames until it
falls. -/
structure Envelope where
  level : BitVec 4 := 0
  delay : Int := 0
  deriving DecidableEq, Repr

namespace Envelope

/-- The quarter frames between two falls of the level, less one: the low four bits of the first
register. -/
def decay (voice : Voice) : Nat := voice.registers.first.toNat % 16

/-- Whether the level starts over from 15 after 0. -/
def loops (voice : Voice) : Bool := Voice.bit voice.registers.first 5

/-- Whether the volume is the low four bits of the first register and not the decaying level. -/
def isConstant (voice : Voice) : Bool := Voice.bit voice.registers.first 4

/-- A clock of the decay.  After a write to the fourth register it starts again at 15; otherwise the
delay counts down, and where it runs out the level falls by one, from 0 to 15 if it loops. -/
def clock (envelope : Envelope) (voice : Voice) : Envelope × Voice :=
  if voice.pending.fourth then
    (⟨15, decay voice⟩, { voice with pending := voice.pending.set .fourth false })
  else if envelope.delay - 1 < 0 then
    (⟨if envelope.level ≠ 0 ∨ loops voice then envelope.level - 1 else envelope.level,
      decay voice⟩, voice)
  else (⟨envelope.level, envelope.delay - 1⟩, voice)

/-- The volume of a channel: zero once its length has run out. -/
def volume (envelope : Envelope) (voice : Voice) : Nat :=
  if voice.length = 0 then 0
  else if isConstant voice then decay voice
  else envelope.level.toNat

end Envelope

end Chiptune
