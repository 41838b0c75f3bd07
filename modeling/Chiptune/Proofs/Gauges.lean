import Chiptune.Proofs.Ensemble

/-! The lengths of the tone channels.  A half frame takes one from the length of a channel, unless a
bit of its first register halts it.  A `Gauge` is the two of them: a run moves it by the half frames
that it fires and by nothing else (`Tones.gauge_play`), and a write to one channel does not move that
of another. -/

namespace Chiptune

/-- The bit of the first register that halts the length of a channel. -/
def Channel.haltMask : Channel → UInt8
  | .triangle => 0x80
  | _ => 0x20

/-- The length of a channel and the register that may halt it. -/
structure Gauge where
  length : Nat
  control : UInt8
  deriving DecidableEq

namespace Gauge

/-- The gauge after a number of half frames. -/
def after (gauge : Gauge) (haltMask : UInt8) (halves : Nat) : Gauge :=
  if gauge.control &&& haltMask = 0 then { gauge with length := gauge.length - halves } else gauge

variable (gauge : Gauge) (haltMask : UInt8)

theorem length_after (halves : Nat) :
    (gauge.after haltMask halves).length =
      if gauge.control &&& haltMask ≠ 0 then gauge.length else gauge.length - halves := by
  unfold after
  rw [ite_not]
  split <;> rfl

theorem length_after_le (halves : Nat) : (gauge.after haltMask halves).length ≤ gauge.length := by
  rw [length_after]
  split
  · exact Nat.le_refl _
  · exact Nat.sub_le _ _

theorem after_silent (halves : Nat) : (⟨0, 0⟩ : Gauge).after haltMask halves = ⟨0, 0⟩ := by
  unfold after
  split
  · rw [Nat.zero_sub]
  · rfl

theorem after_zero : gauge.after haltMask 0 = gauge := by
  unfold after
  split <;> rfl

theorem after_after (halves halves' : Nat) :
    (gauge.after haltMask halves).after haltMask halves' =
      gauge.after haltMask (halves + halves') := by
  by_cases hhalted : gauge.control &&& haltMask = 0
  · simp only [after, hhalted, if_true, Nat.sub_sub]
  · simp only [after, hhalted, if_false]

end Gauge

/-- The gauge of a voice. -/
def Voice.gauge (voice : Voice) : Gauge := ⟨voice.length, voice.registers.first⟩

namespace Voice

theorem gauge_clockLength (voice : Voice) (haltMask : UInt8) :
    (voice.clockLength haltMask).gauge = voice.gauge.after haltMask 1 := by
  by_cases hhalted : voice.registers.first &&& haltMask = 0
  · by_cases hlength : voice.length = 0
    · simp [clockLength, gauge, Gauge.after, hhalted, hlength]
    · simp [clockLength, gauge, Gauge.after, hhalted, hlength]
  · simp [clockLength, gauge, Gauge.after, hhalted]

theorem gauge_clockEnvelope (voice : Voice) (envelope : Envelope) :
    (envelope.clock voice).2.gauge = voice.gauge := by
  unfold Envelope.clock
  split
  · rfl
  · split <;> rfl

end Voice

theorem Pulse.gauge_clockSweep (pulse : Pulse) :
    pulse.clockSweep.voice.gauge = pulse.voice.gauge := by
  unfold clockSweep
  cases pulse.sweepTarget? <;> grind [setPeriod, Voice.gauge]

theorem Triangle.gauge_after (triangle : Triangle) (time stop : Int) :
    (triangle.after time stop).voice.gauge = triangle.voice.gauge := by
  unfold after
  split <;> rfl

namespace Tones

/-- The gauge of a tone channel. -/
def gauge (tones : Tones) : Channel → Gauge
  | .pulse1 => tones.pulse1.voice.gauge
  | .pulse2 => tones.pulse2.voice.gauge
  | .triangle => tones.triangle.voice.gauge
  | .noise => tones.noise.voice.gauge
  | .dmc => ⟨0, 0⟩

variable (tones : Tones) (channel : Channel)

theorem gauge_after (time stop : Int) :
    (tones.after time stop).gauge channel = tones.gauge channel := by
  cases channel with
  | triangle => exact tones.triangle.gauge_after time stop
  | _ => rfl

theorem gauge_clockHalf :
    tones.clockHalf.gauge channel = (tones.gauge channel).after channel.haltMask 1 := by
  cases channel with
  | pulse1 => exact (Pulse.gauge_clockSweep _).trans (Voice.gauge_clockLength _ 0x20)
  | pulse2 => exact (Pulse.gauge_clockSweep _).trans (Voice.gauge_clockLength _ 0x20)
  | triangle => exact Voice.gauge_clockLength _ 0x80
  | noise => exact Voice.gauge_clockLength _ 0x20
  | dmc => exact (Gauge.after_silent _ 1).symm

theorem gauge_clockQuarter : tones.clockQuarter.gauge channel = tones.gauge channel := by
  cases channel with
  | pulse1 => exact Voice.gauge_clockEnvelope ..
  | pulse2 => exact Voice.gauge_clockEnvelope ..
  | noise => exact Voice.gauge_clockEnvelope ..
  | _ => rfl

theorem gauge_clock (beat : Beat) :
    (tones.clock beat).gauge channel =
      (tones.gauge channel).after channel.haltMask (if beat.half then 1 else 0) := by
  have hquarter (tones : Tones) :
      (if beat.quarter then tones.clockQuarter else tones).gauge channel =
        tones.gauge channel := by
    split
    · exact tones.gauge_clockQuarter channel
    · rfl
  unfold clock
  rw [hquarter]
  split
  · exact tones.gauge_clockHalf channel
  · exact (Gauge.after_zero ..).symm

/-- A run takes the half frames from the length that it comes past. -/
theorem gauge_play (time stop : Int) (beats : List (Int × Beat)) :
    (tones.play time stop beats).gauge channel =
      (tones.gauge channel).after channel.haltMask (beats.countP (·.2.half)) := by
  induction beats generalizing tones time with
  | nil => exact (tones.gauge_after channel time stop).trans (Gauge.after_zero ..).symm
  | cons beat beats ih =>
    rw [play, ih, gauge_clock, gauge_after, Gauge.after_after, List.countP_cons, Nat.add_comm]

variable {tones channel}

theorem gauge_modifyVoice_of_ne {changed : Channel} (h : changed ≠ channel) (f : Voice → Voice) :
    (tones.modifyVoice changed f).gauge channel = tones.gauge channel := by
  cases changed <;> cases channel <;> first | rfl | exact absurd rfl h

theorem gauge_restart (restarted : Channel) :
    (tones.restart restarted).gauge channel = tones.gauge channel := by
  cases restarted <;> cases channel <;> rfl

theorem gauge_write_of_ne {written : Channel} (h : written ≠ channel) (slot : Slot) (value : UInt8)
    (enabled : Bool) :
    (tones.write written slot value enabled).gauge channel = tones.gauge channel := by
  have hwrite : (tones.modifyVoice written (·.write slot value)).gauge channel =
      tones.gauge channel := gauge_modifyVoice_of_ne h _
  unfold write
  dsimp only
  split
  · rw [gauge_restart]
    split
    · rwa [gauge_modifyVoice_of_ne h]
    · exact hwrite
  · exact hwrite

end Tones

end Chiptune
