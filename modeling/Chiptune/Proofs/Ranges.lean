import Chiptune.Proofs.BitPlayer
import Chiptune.Proofs.History
import Chiptune.Proofs.NoiseRegister
import Chiptune.Proofs.PowerOn
import Chiptune.Proofs.TriangleWave

/-! The ranges of a chip's counters and levels.  Levels come from volumes of four bits, from the
wave of the triangle or from the seven bits of the sample channel; counters are loaded from a few bits
of a register or from a table, and else count down.  `Chip.InRange` is what a run and every operation
keep of this.  The sample channel has its bounds from its player, which holds plain numbers; phases,
envelope levels, the noise register and the step of the sequencer count around in their types. -/

namespace Chiptune

/-! ### Tone channels -/

/-- The volume of a voice is a level of four bits. -/
theorem Envelope.volume_le (envelope : Envelope) (voice : Voice) : envelope.volume voice ≤ 15 := by
  have hlevel := envelope.level.isLt
  unfold volume decay
  split
  · exact Nat.zero_le 15
  · split <;> omega

theorem Tones.lengthOf_le (value : UInt8) : lengthOf value ≤ 254 := by
  have hindex : value.toNat / 8 < 32 := by
    have hbyte := value.toNat_lt
    omega
  have hall : ∀ index : Fin 32, lengths.getD index 0 ≤ 254 := by decide
  exact hall ⟨value.toNat / 8, hindex⟩

/-- The bounds of a tone channel's level and length. -/
structure Voice.InRange (voice : Voice) : Prop where
  level : 0 ≤ voice.level ∧ voice.level ≤ 15
  length : voice.length ≤ 254

/-- The bounds of an envelope's delay. -/
def Envelope.InRange (envelope : Envelope) : Prop := 0 ≤ envelope.delay ∧ envelope.delay ≤ 15

namespace Voice.InRange

variable {voice : Voice} (h : voice.InRange)
include h

theorem write (slot : Slot) (value : UInt8) : (voice.write slot value).InRange :=
  ⟨h.level, h.length⟩

theorem disable : ({ voice with length := 0 } : Voice).InRange := ⟨h.level, Nat.zero_le _⟩

theorem load (value : UInt8) :
    ({ voice with length := Tones.lengthOf value } : Voice).InRange :=
  ⟨h.level, Tones.lengthOf_le value⟩

theorem clockLength (haltMask : UInt8) : (voice.clockLength haltMask).InRange := by
  unfold Voice.clockLength
  split
  · exact ⟨h.level, Nat.le_trans (Nat.sub_le _ _) h.length⟩
  · exact h

theorem clockEnvelope (envelope : Envelope) : (envelope.clock voice).2.InRange := by
  unfold Envelope.clock
  split
  · exact ⟨h.level, h.length⟩
  · split <;> exact h

end Voice.InRange

theorem Envelope.InRange.clock {envelope : Envelope} (h : envelope.InRange) (voice : Voice) :
    (envelope.clock voice).1.InRange := by
  have hdecay : decay voice < 16 := Nat.mod_lt _ (by decide)
  unfold InRange at *
  unfold Envelope.clock
  split
  · dsimp only
    omega
  · split <;> (dsimp only; omega)

namespace Pulse

/-- The bounds of a pulse. -/
structure InRange (pulse : Pulse) : Prop where
  voice : pulse.voice.InRange
  envelope : pulse.envelope.InRange
  sweep : 0 ≤ pulse.sweepDelay ∧ pulse.sweepDelay ≤ 7

theorem output_bounds (pulse : Pulse) (phase : BitVec 3) :
    0 ≤ pulse.output phase ∧ pulse.output phase ≤ 15 := by
  have hvolume : pulse.volume ≤ 15 := pulse.envelope.volume_le pulse.voice
  unfold output levelAt
  split
  · decide
  · split <;> omega

theorem envelope_clockSweep (pulse : Pulse) : pulse.clockSweep.envelope = pulse.envelope := by
  unfold clockSweep
  cases pulse.sweepTarget? <;> grind [setPeriod]

/-- The delay of the sweep counts down, and is loaded from three bits before it falls below zero. -/
theorem sweepDelay_clockSweep (pulse : Pulse) :
    1 ≤ pulse.sweepDelay ∧ pulse.clockSweep.sweepDelay = pulse.sweepDelay - 1 ∨
      pulse.clockSweep.sweepDelay = (pulse.voice.registers.second.toNat / 16 % 8 : Nat) := by
  unfold clockSweep
  cases pulse.sweepTarget? <;> grind [setPeriod]

namespace InRange

variable {pulse : Pulse} (h : pulse.InRange)
include h

theorem after (time stop : Int) : (pulse.after time stop).InRange :=
  ⟨⟨pulse.output_bounds _, h.voice.length⟩, h.envelope, h.sweep⟩

theorem clockLength : pulse.clockLength.InRange := ⟨h.voice.clockLength 0x20, h.envelope, h.sweep⟩

theorem clockEnvelope : pulse.clockEnvelope.InRange :=
  ⟨h.voice.clockEnvelope _, h.envelope.clock _, h.sweep⟩

theorem clockSweep : pulse.clockSweep.InRange := by
  have hlevel : pulse.clockSweep.voice.level = pulse.voice.level :=
    congrArg Prod.snd pulse.clockSweep_fields.2
  refine ⟨⟨?_, ?_⟩, ?_, ?_⟩
  · rw [hlevel]
    exact h.voice.level
  · rw [pulse.length_clockSweep]
    exact h.voice.length
  · rw [pulse.envelope_clockSweep]
    exact h.envelope
  · have hdelay := h.sweep
    rcases pulse.sweepDelay_clockSweep with hcounted | hloaded
    · omega
    · rw [hloaded]
      omega

end InRange

end Pulse

/-- A level of the triangle's wave. -/
theorem Triangle.levelAt_bounds (phase : BitVec 5) : 0 ≤ levelAt phase ∧ levelAt phase ≤ 15 := by
  revert phase
  decide

namespace Triangle

/-- The bounds of the triangle. -/
structure InRange (triangle : Triangle) : Prop where
  voice : triangle.voice.InRange
  linear : triangle.linear ≤ 127

namespace InRange

variable {triangle : Triangle} (h : triangle.InRange)
include h

theorem after (time stop : Int) : (triangle.after time stop).InRange := by
  unfold Triangle.after
  split <;> exact ⟨⟨levelAt_bounds _, h.voice.length⟩, h.linear⟩

theorem clockLength : triangle.clockLength.InRange := ⟨h.voice.clockLength 0x80, h.linear⟩

theorem clockLinear : triangle.clockLinear.InRange := by
  have hlinear := h.linear
  refine ⟨⟨h.voice.level, h.voice.length⟩, ?_⟩
  unfold Triangle.clockLinear
  dsimp only
  split <;> omega

theorem settle : triangle.settle.InRange := ⟨⟨levelAt_bounds _, h.voice.length⟩, h.linear⟩

end InRange

end Triangle

namespace Noise

/-- The bounds of the noise.  A feedback register of zero would never move again. -/
structure InRange (noise : Noise) : Prop where
  voice : noise.voice.InRange
  envelope : noise.envelope.InRange
  feedback : noise.feedback ≠ 0

theorem levelAt_bounds (noise : Noise) (register : BitVec 15) :
    0 ≤ noise.levelAt register ∧ noise.levelAt register ≤ 15 := by
  have hvolume : noise.volume ≤ 15 := noise.envelope.volume_le noise.voice
  unfold levelAt
  split <;> omega

/-- Where only the lowest bit is set, a shift moves it to the top. -/
theorem shift_ne_zero (short : Bool) {register : BitVec 15} (h : register ≠ 0) :
    shift short register ≠ 0 := by
  intro hzero
  have hshifted := toNat_shift short register
  rw [hzero] at hshifted
  have hregister : register.toNat ≠ 0 := fun hnat => h (BitVec.eq_of_toNat_eq hnat)
  unfold shifted at hshifted
  have hone : register.toNat = 1 := by
    have hzero : (0 : BitVec 15).toNat = 0 := rfl
    omega
  rw [hone] at hshifted
  cases short <;> exact absurd hshifted (by decide)

namespace InRange

variable {noise : Noise} (h : noise.InRange)
include h

theorem after (time stop : Int) : (noise.after time stop).InRange := by
  refine ⟨⟨noise.levelAt_bounds _, h.voice.length⟩, h.envelope, ?_⟩
  have hskip (n : Nat) (register : BitVec 15) (hregister : register ≠ 0) :
      Timer.skip (shift noise.isShort) n register ≠ 0 := by
    induction n generalizing register with
    | zero => exact hregister
    | succ n ih => exact ih _ (shift_ne_zero _ hregister)
  exact hskip _ _ h.feedback

theorem clockLength : noise.clockLength.InRange :=
  ⟨h.voice.clockLength 0x20, h.envelope, h.feedback⟩

theorem clockEnvelope : noise.clockEnvelope.InRange :=
  ⟨h.voice.clockEnvelope _, h.envelope.clock _, h.feedback⟩

end InRange

end Noise

namespace Tones

/-- The bounds of the tone channels. -/
structure InRange (tones : Tones) : Prop where
  pulse1 : tones.pulse1.InRange
  pulse2 : tones.pulse2.InRange
  triangle : tones.triangle.InRange
  noise : tones.noise.InRange

namespace InRange

variable {tones : Tones}

theorem after (h : tones.InRange) (time stop : Int) : (tones.after time stop).InRange :=
  ⟨h.pulse1.after time stop, h.pulse2.after time stop, h.triangle.after time stop,
    h.noise.after time stop⟩

theorem clockHalf (h : tones.InRange) : tones.clockHalf.InRange :=
  ⟨h.pulse1.clockLength.clockSweep, h.pulse2.clockLength.clockSweep, h.triangle.clockLength,
    h.noise.clockLength⟩

theorem clockQuarter (h : tones.InRange) : tones.clockQuarter.InRange :=
  ⟨h.pulse1.clockEnvelope, h.pulse2.clockEnvelope, h.triangle.clockLinear, h.noise.clockEnvelope⟩

theorem clock (h : tones.InRange) (beat : Beat) : (tones.clock beat).InRange := by
  unfold Tones.clock
  dsimp only
  split <;> split
  · exact h.clockHalf.clockQuarter
  · exact h.clockQuarter
  · exact h.clockHalf
  · exact h

theorem play (h : tones.InRange) (time stop : Int) (beats : List (Int × Beat)) :
    (tones.play time stop beats).InRange := by
  induction beats generalizing tones time with
  | nil => exact h.after time stop
  | cons beat beats ih => exact ih ((h.after time beat.1).clock beat.2) beat.1

theorem modifyVoice (h : tones.InRange) (channel : Channel) {f : Voice → Voice}
    (hf : ∀ voice : Voice, voice.InRange → (f voice).InRange) :
    (tones.modifyVoice channel f).InRange := by
  obtain ⟨h1, h2, h3, h4⟩ := h
  cases channel with
  | pulse1 => exact ⟨⟨hf _ h1.voice, h1.envelope, h1.sweep⟩, h2, h3, h4⟩
  | pulse2 => exact ⟨h1, ⟨hf _ h2.voice, h2.envelope, h2.sweep⟩, h3, h4⟩
  | triangle => exact ⟨h1, h2, ⟨hf _ h3.voice, h3.linear⟩, h4⟩
  | noise => exact ⟨h1, h2, h3, hf _ h4.voice, h4.envelope, h4.feedback⟩
  | dmc => exact ⟨h1, h2, h3, h4⟩

theorem restart (h : tones.InRange) (channel : Channel) : (tones.restart channel).InRange := by
  obtain ⟨h1, h2, h3, h4⟩ := h
  cases channel with
  | pulse1 => exact ⟨⟨h1.voice, h1.envelope, h1.sweep⟩, h2, h3, h4⟩
  | pulse2 => exact ⟨h1, ⟨h2.voice, h2.envelope, h2.sweep⟩, h3, h4⟩
  | _ => exact ⟨h1, h2, h3, h4⟩

theorem write (h : tones.InRange) (channel : Channel) (slot : Slot) (value : UInt8)
    (enabled : Bool) : (tones.write channel slot value enabled).InRange := by
  have hwritten := h.modifyVoice channel fun voice hvoice => hvoice.write slot value
  have hloaded := hwritten.modifyVoice channel fun voice hvoice => hvoice.load value
  unfold Tones.write
  dsimp only
  split
  · split
    · exact hloaded.restart channel
    · exact hwritten.restart channel
  · exact hwritten

theorem enable (h : tones.InRange) (enables : ByChannel Bool) : (tones.enable enables).InRange := by
  unfold Tones.enable
  generalize Channel.all = channels
  induction channels generalizing tones with
  | nil => exact h
  | cons channel channels ih =>
    rw [List.foldl_cons]
    split
    · exact ih h
    · exact ih (h.modifyVoice channel fun voice hvoice => hvoice.disable)

end InRange

end Tones

/-! ### The sample channel -/

namespace Dmc

/-- The curve rises to 83.  It lies below the level, by 44 at most. -/
theorem response_bounds (dac : BitVec 7) :
    0 ≤ response dac ∧ response dac ≤ 83 ∧ response dac ≤ dac.toNat ∧
      dac.toNat ≤ response dac + 44 := by
  revert dac
  decide +kernel

/-- The bounds of the sample channel: its level, and what its player shows of it. -/
structure InRange (dmc : Dmc) : Prop where
  level : 0 ≤ dmc.voice.level ∧ dmc.voice.level ≤ 127
  player : dmc.player.InRange

theorem untouched_level : Untouched (·.voice.level) :=
  ⟨fun _ _ => rfl, fun _ => rfl, fun _ => rfl, fun _ _ => rfl, fun _ => rfl⟩

theorem inRange_player_fill {dmc : Dmc} (h : dmc.player.InRange) (bus : Bus) :
    (dmc.fill bus).1.player.InRange := by
  cases hbuffer : dmc.buffer with
  | none =>
    have hfetch := h.fetch dmc.dials bus
    rw [← player_fill hbuffer bus] at hfetch
    exact hfetch
  | some byte =>
    rw [fill_eq, if_pos (.inl (by rw [hbuffer]; rfl))]
    exact h

namespace InRange

variable {dmc : Dmc} (h : dmc.InRange)
include h

/-- Neither the interrupt nor the stall is bounded. -/
theorem noted (irqFlag : Bool) (nextIrq : Option Int) (stall : UInt32) :
    InRange { dmc with irqFlag, nextIrq, stall } :=
  ⟨h.level, h.player.dac, h.player.remain, h.player.address, h.player.bytes⟩

/-- A run plays its player on, and puts out the level of the last event. -/
theorem after (time stop : Int) (bus : Bus) : (dmc.after time stop bus).1.InRange := by
  have hplayed := h.player.skip dmc.dials bus
    (Timer.count dmc.period (time + dmc.voice.delay) stop)
  rw [(dmc.shows_eventsAfter time stop bus).2] at hplayed
  exact ⟨hplayed.dac, hplayed.dac, hplayed.remain, hplayed.address, hplayed.bytes⟩

theorem setEnabled (enabled : Bool) (bus : Bus) (now : Int) :
    (dmc.setEnabled enabled bus now).1.InRange := by
  cases enabled with
  | false =>
    exact ⟨h.level, h.player.dac, h.player.remain, h.player.address, Nat.zero_le _⟩
  | true =>
    cases henabled : dmc.enabled
    · have hlevel : (dmc.restarted.fill bus).1.voice.level = dmc.voice.level :=
        untouched_level.fill dmc.restarted bus
      have hrewound : dmc.restarted.player.InRange := by
        have hbounds := h.player.rewind dmc.voice.registers.third dmc.voice.registers.fourth
        rw [restarted, player_rewind]
        exact ⟨hbounds.dac, hbounds.remain, hbounds.address, hbounds.bytes⟩
      have hfilled := inRange_player_fill hrewound bus
      rw [setEnabled_of_idle henabled]
      refine ⟨?_, hfilled.dac, hfilled.remain, hfilled.address, hfilled.bytes⟩
      show 0 ≤ (dmc.restarted.fill bus).1.voice.level ∧
        (dmc.restarted.fill bus).1.voice.level ≤ 127
      rw [hlevel]
      exact h.level
    · rwa [setEnabled_of_enabled henabled]

/-- A load leaves the level short of the new one by as much as the curve rises from the old one. -/
theorem write (slot : Slot) (value : UInt8) (now : Int) : (dmc.write slot value now).InRange := by
  cases slot with
  | second =>
    have hnew := response_bounds (BitVec.ofNat 7 value.toNat)
    have hold := response_bounds dmc.dac
    have hdac : 0 ≤ ((BitVec.ofNat 7 value.toNat).toNat : Int) ∧
        ((BitVec.ofNat 7 value.toNat).toNat : Int) ≤ 127 := by
      rw [BitVec.toNat_ofNat]
      omega
    refine ⟨?_, hdac, h.player.remain, h.player.address, h.player.bytes⟩
    show 0 ≤ ((BitVec.ofNat 7 value.toNat).toNat : Int) -
        (response (BitVec.ofNat 7 value.toNat) - response dmc.dac) ∧
      ((BitVec.ofNat 7 value.toNat).toNat : Int) -
        (response (BitVec.ofNat 7 value.toNat) - response dmc.dac) ≤ 127
    omega
  | _ => exact ⟨h.level, h.player.dac, h.player.remain, h.player.address, h.player.bytes⟩

end InRange

end Dmc

/-! ### The sequencer -/

namespace Sequencer

theorem gapAfter_le (region : Region) (mode : UInt8) (step : BitVec 2) :
    gapAfter region mode step ≤ 2 * region.stepPeriod := by
  unfold gapAfter
  dsimp only
  split
  · omega
  · split <;> omega

theorem delay_after_le {sequencer : Sequencer} {now stop : Int} (hstop : now ≤ stop)
    (h : sequencer.delay ≤ 2 * sequencer.region.stepPeriod) :
    (sequencer.after now stop).delay ≤ 2 * sequencer.region.stepPeriod := by
  induction sequencer, now using due_induction stop with
  | due sequencer now hdue ih =>
    have hgap := gapAfter_le sequencer.region sequencer.mode sequencer.next
    have hregion := (sequencer.fire_fields (now + sequencer.delay)).1
    rw [fire_delay, hregion] at ih
    rw [after_of_due hdue]
    exact ih (Int.le_of_lt hdue) (by omega)
  | last sequencer now hdue =>
    rw [after_of_not_due hdue]
    show sequencer.delay - (stop - now) ≤ _
    omega

theorem delay_writeMode_le (sequencer : Sequencer) (time : Int) (mode : UInt8) :
    (sequencer.writeMode time mode).delay ≤ 2 * sequencer.region.stepPeriod := by
  have hperiod := two_le_stepPeriod sequencer.region
  unfold writeMode period
  split <;> (dsimp only; omega)

end Sequencer

/-! ### The chip -/

/-- The bounds of a chip's channels. -/
structure Chip.InRange (chip : Chip) : Prop where
  tones : chip.tones.InRange
  dmc : chip.dmc.InRange

theorem Chip.inRange_restarted (wiring : Wiring) : (restarted wiring).InRange := by
  have hzero (top : Int) (htop : 0 ≤ top) : (0 : Int) ≤ 0 ∧ 0 ≤ top := ⟨Int.le_refl 0, htop⟩
  have hvoice : Voice.poweredOn.InRange := ⟨hzero 15 (by decide), Nat.zero_le _⟩
  have henvelope : Envelope.InRange {} := hzero 15 (by decide)
  have htriangle : Triangle.InRange { voice := .poweredOn } := ⟨hvoice, Nat.zero_le _⟩
  have hfeedback : (0x4000 : BitVec 15) ≠ 0 := by decide
  have hremain : 1 ≤ 0 + 1 ∧ 0 + 1 ≤ 8 := by decide
  have haddress : 0 < 0x8000 := by decide
  exact
    { tones :=
        { pulse1 := ⟨hvoice, henvelope, hzero 7 (by decide)⟩
          pulse2 := ⟨hvoice, henvelope, hzero 7 (by decide)⟩
          triangle := htriangle.settle
          noise := ⟨hvoice, henvelope, hfeedback⟩ }
      dmc := ⟨hzero 127 (by decide), hzero 127 (by decide), hremain, haddress, Nat.zero_le _⟩ }

namespace Session

variable {session : Session}

theorem inRange_runTo (h : session.chip.InRange) (stop : Int) :
    (session.runTo stop).chip.InRange := by
  by_cases hstop : stop ≤ session.chip.time
  · rwa [runTo_of_le hstop]
  · rw [runTo_chip (Int.not_le.mp hstop)]
    exact ⟨h.tones.play _ _ _, h.dmc.after _ _ _⟩

/-- What an operation does to a chip that has run to its clock keeps the bounds. -/
theorem inRange_touch (h : session.chip.InRange) (operation : Operation) :
    (operation.touch session).chip.InRange := by
  cases operation with
  | write time address value =>
    cases hlocation : Location.ofAddress? address with
    | none => rwa [Operation.touch_of_none _ _ hlocation]
    | some location =>
      rw [Operation.touch_of_some _ _ hlocation]
      cases location with
      | voice channel slot =>
        cases channel with
        | dmc => exact ⟨h.tones, h.dmc.write _ _ _⟩
        | _ => exact ⟨h.tones.write _ _ _ _, h.dmc⟩
      | status =>
        have hdmc : session.chip.dmc.clearIrq.InRange := h.dmc.noted ..
        exact ⟨h.tones.enable _, hdmc.setEnabled _ _ _⟩
      | mode => exact ⟨h.tones, h.dmc⟩
      | idle => exact h
  | takeStall => exact ⟨h.tones, h.dmc.noted ..⟩
  | runFrame time count => exact ⟨h.tones, h.dmc.noted ..⟩
  | reset =>
    show session.chip.reset.1.InRange
    rw [Chip.reset_eq_restarted]
    exact Chip.inRange_restarted _
  | readStatus time => exact ⟨h.tones, h.dmc⟩
  | _ => exact h

/-- An operation keeps the bounds. -/
theorem inRange_act (h : session.chip.InRange) (operation : Operation) :
    (operation.act session).chip.InRange := by
  have htouched := inRange_touch (inRange_runTo h (operation.stop session.chip.time)) operation
  rw [(session.resembles_act .full operation).chip_eq]
  exact ⟨htouched.tones, htouched.dmc⟩

end Session

namespace Console

theorem Reachable.inRange {console : Console} (h : Reachable console) :
    console.board.chip.InRange := by
  induction h with
  | create hcreate =>
    obtain ⟨buffer, _, rfl⟩ := create_ok hcreate
    rw [reset_chip]
    exact Chip.inRange_restarted _
  | perform _ hperform ih =>
    obtain ⟨hchip, _, _⟩ := perform_ok hperform
    rw [hchip]
    exact Session.inRange_act ih _

end Console

/-! ### All bounds

What counts around in its type has its bound from there, and no delay of a consistent chip is
negative. -/

/-- The bounds of a pulse and its counters. -/
structure Pulse.Bounds (pulse : Pulse) : Prop extends pulse.InRange where
  phase : pulse.phase.toNat ≤ 7
  envelopeLevel : pulse.envelope.level.toNat ≤ 15
  delay : 0 ≤ pulse.voice.delay

/-- The bounds of the triangle and its counters. -/
structure Triangle.Bounds (triangle : Triangle) : Prop extends triangle.InRange where
  phase : 1 ≤ number triangle.phase ∧ number triangle.phase ≤ 32
  delay : 0 ≤ triangle.voice.delay

/-- The bounds of the noise and its counters. -/
structure Noise.Bounds (noise : Noise) : Prop extends noise.InRange where
  envelopeLevel : noise.envelope.level.toNat ≤ 15
  feedbackBits : noise.feedback.toNat < 2 ^ 15
  delay : 0 ≤ noise.voice.delay

/-- The bounds of the sample channel and its counters.  The next bit moves the level by two at most. -/
structure Dmc.Bounds (dmc : Dmc) : Prop extends dmc.InRange where
  dac : dmc.dac.toNat ≤ 127
  nextDac : dmc.dac.toNat ≤ dmc.playBit.dac.toNat + 2 ∧ dmc.playBit.dac.toNat ≤ dmc.dac.toNat + 2
  bits : 1 ≤ dmc.bitsLeft.toNat + 1 ∧ dmc.bitsLeft.toNat + 1 ≤ 8
  address : dmc.address.toNat < 0x8000
  length : dmc.voice.length ≤ 4081
  delay : 0 ≤ dmc.voice.delay

/-- The bounds of a chip in a frame that may run up to `capacity`. -/
structure Chip.Bounds (chip : Chip) (capacity : Nat) : Prop where
  pulse1 : chip.tones.pulse1.Bounds
  pulse2 : chip.tones.pulse2.Bounds
  triangle : chip.tones.triangle.Bounds
  noise : chip.tones.noise.Bounds
  dmc : chip.dmc.Bounds
  step : chip.sequencer.next.toNat ≤ 3
  stepDelay : 0 ≤ chip.sequencer.delay ∧ chip.sequencer.delay ≤ 2 * chip.region.stepPeriod
  time : 0 ≤ chip.time ∧ chip.time ≤ capacity

theorem Pulse.InRange.bounds {pulse : Pulse} (h : pulse.InRange) (hdelay : 0 ≤ pulse.voice.delay) :
    pulse.Bounds where
  toInRange := h
  phase := Nat.le_of_lt_succ pulse.phase.isLt
  envelopeLevel := Nat.le_of_lt_succ pulse.envelope.level.isLt
  delay := hdelay

/-- What the player cannot leave, the channel cannot. -/
theorem Dmc.InRange.bounds {dmc : Dmc} (h : dmc.InRange) (hdelay : 0 ≤ dmc.voice.delay) :
    dmc.Bounds where
  toInRange := h
  dac := Int.ofNat_le.mp h.player.dac.2
  nextDac := by
    have hnear := dmc.playBit_near
    omega
  bits := h.player.remain
  address := h.player.address
  length := h.player.bytes
  delay := hdelay

theorem Chip.InRange.bounds {chip : Chip} (h : chip.InRange) (hsteady : chip.Steady)
    (hdelay : chip.sequencer.delay ≤ 2 * chip.region.stepPeriod) {capacity : Nat}
    (htime : chip.time ≤ capacity) : chip.Bounds capacity where
  pulse1 := h.tones.pulse1.bounds hsteady.tones.pulse1
  pulse2 := h.tones.pulse2.bounds hsteady.tones.pulse2
  triangle :=
    { toInRange := h.tones.triangle
      phase := ⟨Nat.le_add_left 1 _, chip.tones.triangle.phase.isLt⟩
      delay := hsteady.tones.triangle }
  noise :=
    { toInRange := h.tones.noise
      envelopeLevel := Nat.le_of_lt_succ chip.tones.noise.envelope.level.isLt
      feedbackBits := chip.tones.noise.feedback.isLt
      delay := hsteady.tones.noise }
  dmc := h.dmc.bounds hsteady.dmc_delay
  step := Nat.le_of_lt_succ chip.sequencer.next.isLt
  stepDelay := ⟨hsteady.sequencer_delay, hdelay⟩
  time := ⟨hsteady.time_nonneg, htime⟩

namespace Console

/-- In every console that a host can bring about the counters and levels of the chip keep their
bounds, and its clock lies within the frame.  The end of a frame puts the clock to zero. -/
theorem chip_stays_in_bounds {console : Console} (h : Reachable console) :
    console.board.chip.Bounds console.buffer.frameCapacity ∧
      ∀ time count outcome next, console.perform (.runFrame time count) = .ok (outcome, next) →
        next.board.chip.time = 0 := by
  have hdelay : console.board.chip.sequencer.delay ≤
      2 * console.board.chip.sequencer.region.stepPeriod := by
    refine h.sequencer_invariant
      (P := fun sequencer => sequencer.delay ≤ 2 * sequencer.region.stepPeriod) ?_ ?_ ?_
    · intro sequencer now stop hlt hle
      rw [Sequencer.region_after]
      exact Sequencer.delay_after_le (Int.le_of_lt hlt) hle
    · intro sequencer time mode
      rw [Sequencer.region_writeMode]
      exact sequencer.delay_writeMode_le time mode
    · exact fun _ _ _ hle => hle
  refine ⟨h.inRange.bounds h.consistent.toSteady hdelay h.inTime, ?_⟩
  intro time count outcome next hperform
  obtain ⟨hchip, _, htime⟩ := perform_ok hperform
  rw [hchip]
  exact Session.endFrame_time (htime time rfl).1

/-- A note of the first pulse, and a load of the highest level into the sample channel. -/
def noteAndLoad : List Operation :=
  [.write 0 0x4015 1, .write 0 0x4000 0x3F, .write 0 0x4002 0xFD, .write 0 0x4003 8,
    .runFrame 29781 0, .write 100 0x4011 0x7F]

/-- From level 0 to level 127 the curve rises by 83 only, so the load leaves a level of 44. -/
theorem chip_stays_in_bounds_of_load :
    ∃ console, Reachable console ∧ console.board.chip.tones.pulse1.voice.length = 254 ∧
      console.board.chip.dmc.dac = 127 ∧ console.board.chip.dmc.voice.level = 44 ∧
      console.board.chip.Bounds console.buffer.frameCapacity ∧
      ∃ outcome next, console.perform (.runFrame 200 0) = .ok (outcome, next) ∧
        next.board.chip.time = 0 := by
  obtain ⟨start, hcreate, hfacts⟩ := exists_ok (create (.unconnected 0) .standard)
    (fun start => (start.performAll noteAndLoad).toOption.any fun result =>
      let console := result.2
      console.board.chip.tones.pulse1.voice.length = 254 && console.board.chip.dmc.dac = 127 &&
        console.board.chip.dmc.voice.level = 44 &&
        (console.perform (.runFrame 200 0)).toOption.any fun _ => true)
    (by decide +kernel)
  obtain ⟨⟨_, console⟩, hrun, hfacts⟩ := exists_ok _ _ hfacts
  simp only [Bool.and_eq_true, decide_eq_true_eq] at hfacts
  obtain ⟨⟨⟨hlength, hdac⟩, hlevel⟩, hframe⟩ := hfacts
  obtain ⟨⟨outcome, next⟩, hframe, _⟩ := exists_ok _ _ hframe
  have hreach := (Reachable.create hcreate).performAll hrun
  obtain ⟨hbounds, hzero⟩ := chip_stays_in_bounds hreach
  exact ⟨console, hreach, hlength, hdac, hlevel, hbounds, outcome, next, hframe,
    hzero 200 0 outcome next hframe⟩

end Console

end Chiptune
