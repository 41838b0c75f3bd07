import Chiptune.Proofs.Progress

/-! What happens to the tone channels, event by event.  A history has its latest event first, so that
what it says of a channel is defined by recursion on the past.  Clocks and runs between two writes are
events like them, and so is a reset.  `Operation.tones_act` lists the events of an operation, and the
tone channels of every console that a host can bring about have a history from power-on
(`Console.Reachable.exists_history`). -/

namespace Chiptune

/-- Something that happens to the tone channels. -/
inductive Tones.Event where
  | run (time stop : Int)
  | clock (beat : Beat)
  | write (channel : Channel) (slot : Slot) (value : UInt8) (enabled : Bool)
  | enable (enables : ByChannel Bool)
  | settle
  | reset
  deriving DecidableEq

namespace Tones.Event

/-- Whether an event clocks the lengths and the sweeps. -/
def isHalf : Event → Bool
  | .clock beat => beat.half
  | _ => false

/-- Whether an event clocks the envelopes. -/
def isQuarter : Event → Bool
  | .clock beat => beat.quarter
  | _ => false

/-- The byte that an event writes to a register of a channel. -/
def byteTo (channel : Channel) (slot : Slot) : Event → Option UInt8
  | .write written slot' value _ => if written = channel ∧ slot' = slot then some value else none
  | _ => none

end Tones.Event

namespace Tones

/-- The tone channels after an event. -/
def act (tones : Tones) : Event → Tones
  | .run time stop => (tones.run time stop #[]).1
  | .clock beat => tones.clock beat
  | .write channel slot value enabled => tones.write channel slot value enabled
  | .enable enables => tones.enable enables
  | .settle => { tones with triangle := tones.triangle.settle }
  | .reset => tones.reset

/-- The tone channels after a history, whose latest event comes first. -/
def undergo (tones : Tones) : List Event → Tones
  | [] => tones
  | event :: past => (tones.undergo past).act event

theorem undergo_append (tones : Tones) (later earlier : List Event) :
    tones.undergo (later ++ earlier) = (tones.undergo earlier).undergo later := by
  induction later with
  | nil => rfl
  | cons event later ih => rw [List.cons_append, undergo, undergo, ih]

theorem negations_act (tones : Tones) (event : Event) :
    (tones.act event).negations = tones.negations := by
  cases event with
  | run time stop =>
    rw [act, run_fst]
    rfl
  | clock beat => exact tones.negations_clock beat
  | write channel slot value enabled => exact tones.negations_write channel slot value enabled
  | enable enables => exact tones.negations_enable enables
  | settle | reset => rfl

theorem negations_undergo (tones : Tones) (history : List Event) :
    (tones.undergo history).negations = tones.negations := by
  induction history with
  | nil => rfl
  | cons event past ih => rw [undergo, negations_act, ih]

end Tones

/-! ### One channel -/

/-- A write to a register of a tone channel.  The fourth one loads the length of an enabled channel. -/
def Voice.writeTone (voice : Voice) (slot : Slot) (value : UInt8) (enabled : Bool) : Voice :=
  let written := voice.write slot value
  if slot = .fourth ∧ enabled then { written with length := Tones.lengthOf value } else written

section Write

variable (voice : Voice) (slot : Slot) (value : UInt8) (enabled : Bool)

theorem Voice.registers_writeTone :
    (voice.writeTone slot value enabled).registers = voice.registers.set slot value := by
  unfold writeTone
  dsimp only
  split <;> rfl

theorem Voice.pending_writeTone :
    (voice.writeTone slot value enabled).pending = voice.pending.set slot true := by
  unfold writeTone
  dsimp only
  split <;> rfl

end Write

/-- A clock of an envelope takes the mark of the fourth register from the voice, and nothing else. -/
theorem Envelope.clock_snd (envelope : Envelope) (voice : Voice) :
    (envelope.clock voice).2 = { voice with pending := voice.pending.set .fourth false } := by
  unfold clock
  split
  · rfl
  · rename_i hmark
    have hsame : voice.pending.set .fourth false = voice.pending := by
      rw [← Bool.eq_false_iff.mpr hmark]
      rfl
    rw [hsame]
    split <;> rfl

/-- The pulse of a channel after an event. -/
def Pulse.act (channel : Channel) (pulse : Pulse) : Tones.Event → Pulse
  | .run time stop => pulse.after time stop
  | .clock beat =>
    let pulse := if beat.half then pulse.clockLength.clockSweep else pulse
    if beat.quarter then pulse.clockEnvelope else pulse
  | .write written slot value enabled =>
    if written = channel then
      { pulse with
        voice := pulse.voice.writeTone slot value enabled
        phase := if slot = .fourth then 7 else pulse.phase }
    else pulse
  | .enable enables =>
    if enables.get channel then pulse else { pulse with voice := { pulse.voice with length := 0 } }
  | .settle => pulse
  | .reset => pulse.reset

/-- The noise after an event. -/
def Noise.act (noise : Noise) : Tones.Event → Noise
  | .run time stop => noise.after time stop
  | .clock beat =>
    let noise := if beat.half then noise.clockLength else noise
    if beat.quarter then noise.clockEnvelope else noise
  | .write written slot value enabled =>
    if written = .noise then { noise with voice := noise.voice.writeTone slot value enabled }
    else noise
  | .enable enables =>
    if enables.noise then noise else { noise with voice := { noise.voice with length := 0 } }
  | .settle => noise
  | .reset => noise.reset

namespace Tones

/-- Each channel sees of an event what concerns it. -/
theorem act_channels (tones : Tones) (event : Event) :
    (tones.act event).pulse1 = tones.pulse1.act .pulse1 event ∧
      (tones.act event).pulse2 = tones.pulse2.act .pulse2 event ∧
      (tones.act event).noise = tones.noise.act event := by
  cases event with
  | run time stop =>
    rw [act, run_fst]
    exact ⟨rfl, rfl, rfl⟩
  | clock beat =>
    obtain ⟨quarter, half⟩ := beat
    cases quarter <;> cases half <;> exact ⟨rfl, rfl, rfl⟩
  | write channel slot value enabled =>
    cases channel <;> cases slot <;> cases enabled <;> exact ⟨rfl, rfl, rfl⟩
  | enable enables =>
    obtain ⟨pulse1, pulse2, triangle, noise, dmc⟩ := enables
    cases pulse1 <;> cases pulse2 <;> cases triangle <;> cases noise <;> cases dmc <;>
      exact ⟨rfl, rfl, rfl⟩
  | settle | reset => exact ⟨rfl, rfl, rfl⟩

/-- The pulse of a channel that has one. -/
def pulse? (tones : Tones) : Channel → Option Pulse
  | .pulse1 => some tones.pulse1
  | .pulse2 => some tones.pulse2
  | _ => none

theorem pulse?_act (tones : Tones) (event : Event) (channel : Channel) :
    (tones.act event).pulse? channel = (tones.pulse? channel).map (·.act channel event) := by
  obtain ⟨hpulse1, hpulse2, _⟩ := tones.act_channels event
  cases channel with
  | pulse1 => exact congrArg some hpulse1
  | pulse2 => exact congrArg some hpulse2
  | _ => rfl

end Tones

/-! ### Countdowns

A countdown from `delay` that starts over at zero has run out `n / (delay + 1)` times after `n` clocks,
the last time `n % (delay + 1)` clocks before. -/

namespace Countdown

variable {n delay : Nat}

theorem of_last (h : n % (delay + 1) = delay) :
    (n + 1) / (delay + 1) = n / (delay + 1) + 1 ∧ (n + 1) % (delay + 1) = 0 := by
  have hpos : 0 < delay + 1 := Nat.succ_pos delay
  have hsplit := Nat.div_add_mod n (delay + 1)
  rw [Nat.div_mod_unique hpos, Nat.mul_add]
  omega

theorem of_not_last (h : n % (delay + 1) ≠ delay) :
    (n + 1) / (delay + 1) = n / (delay + 1) ∧ (n + 1) % (delay + 1) = n % (delay + 1) + 1 := by
  have hpos : 0 < delay + 1 := Nat.succ_pos delay
  have hlt := Nat.mod_lt n hpos
  have hsplit := Nat.div_add_mod n (delay + 1)
  rw [Nat.div_mod_unique hpos]
  omega

end Countdown

/-! ### The history of a console -/

namespace Tones

/-- The events of a run through `beats`. -/
def runEvents (time stop : Int) : List (Int × Beat) → List Event
  | [] => [.run time stop]
  | (due, beat) :: beats => runEvents due stop beats ++ [.clock beat, .run time due]

theorem undergo_runEvents (tones : Tones) (time stop : Int) (beats : List (Int × Beat)) :
    tones.undergo (runEvents time stop beats) = tones.play time stop beats := by
  induction beats generalizing tones time with
  | nil => exact tones.run_fst time stop #[]
  | cons beat beats ih =>
    rw [runEvents, undergo_append, ih, play, ← run_fst tones time beat.1 #[]]
    rfl

/-- The events of a reset of the chip: the power-on writes follow the reset of the channels. -/
def resetEvents : List Event :=
  .settle ::
    ((Chip.powerOnVoices.map fun voice => .write voice.1 voice.2.1 voice.2.2 false).reverse ++
      [.enable (.fill false), .reset])

theorem undergo_resetEvents (chip : Chip) :
    chip.tones.undergo resetEvents = chip.reset.1.tones := by
  rw [Chip.reset_eq_restarted]
  rfl

end Tones

namespace Session

/-- The events of a run to `stop`. -/
def runEvents (session : Session) (stop : Int) : List Tones.Event :=
  if stop ≤ session.chip.time then []
  else Tones.runEvents session.chip.time stop (session.fires stop)

theorem tones_runTo (session : Session) (stop : Int) :
    (session.runTo stop).chip.tones = session.chip.tones.undergo (session.runEvents stop) := by
  unfold runEvents
  by_cases hstop : stop ≤ session.chip.time
  · rw [runTo_of_le hstop, if_pos hstop]
    rfl
  · rw [runTo_chip (Int.not_le.mp hstop), if_neg hstop, fires, if_neg hstop,
      Tones.undergo_runEvents]
    rfl

/-- The events of a write to a location. -/
def writeEvents (session : Session) (value : UInt8) : Location → List Tones.Event
  | .voice channel slot => [.write channel slot value (session.chip.enables.get channel)]
  | .status => [.enable (Status.enables value)]
  | _ => []

theorem tones_applyWrite (session : Session) (time : Int) (location : Location) (value : UInt8) :
    (session.applyWrite time location value).chip.tones =
      session.chip.tones.undergo (session.writeEvents value location) := by
  cases location with
  | voice channel slot =>
    cases channel with
    | dmc =>
      show session.chip.tones = session.chip.tones.write .dmc slot value _
      unfold Tones.write
      cases slot <;> simp [Tones.modifyVoice, Tones.restart]
    | _ => rfl
  | _ => rfl

end Session

namespace Operation

/-- The events of what an operation does to a chip that has run to its clock. -/
def touchEvents (session : Session) : Operation → List Tones.Event
  | .write _ address value =>
    ((Location.ofAddress? address).map (session.writeEvents value)).getD []
  | .reset => Tones.resetEvents
  | _ => []

/-- The events of an operation. -/
def toneEvents (session : Session) (operation : Operation) : List Tones.Event :=
  let stop := operation.stop session.chip.time
  operation.touchEvents (session.runTo stop) ++ session.runEvents stop

variable (session : Session) (operation : Operation)

theorem tones_touch :
    (operation.touch session).chip.tones =
      session.chip.tones.undergo (operation.touchEvents session) := by
  cases operation with
  | write time address value =>
    cases hlocation : Location.ofAddress? address with
    | none =>
      rw [touch_of_none _ _ hlocation, touchEvents, hlocation]
      rfl
    | some location =>
      rw [touch_of_some _ _ hlocation, touchEvents, hlocation]
      exact session.tones_applyWrite time location value
  | reset => exact (Tones.undergo_resetEvents session.chip).symm
  | _ => rfl

/-- The beats that an operation lets pass and its own write are all that happens to the tone
channels. -/
theorem tones_act :
    (operation.act session).chip.tones =
      session.chip.tones.undergo (operation.toneEvents session) := by
  have htouched := (session.resembles_act .full operation).chip_eq
  rw [htouched, tones_touch, session.tones_runTo, toneEvents, Tones.undergo_append]

end Operation

/-- The tone channels of every console that a host can bring about have a history from power-on. -/
theorem Console.Reachable.exists_history {console : Console} (h : Reachable console) :
    ∃ history, console.board.chip.tones = ({} : Tones).undergo history := by
  induction h with
  | @create bus configuration console hcreate =>
    obtain ⟨buffer, _, rfl⟩ := create_ok hcreate
    rw [reset_chip]
    show ∃ history, (Chip.restarted (Chip.powerOn configuration.region).wiring).tones = _
    rw [Chip.powerOn_eq_restarted, Chip.wiring_restarted]
    exact ⟨Tones.resetEvents, rfl⟩
  | @perform console next operation outcome _ hperform ih =>
    obtain ⟨history, hhistory⟩ := ih
    obtain ⟨hchip, _, _⟩ := perform_ok hperform
    have hact := operation.tones_act console.board.session
    have hsame : console.board.session.chip.tones = ({} : Tones).undergo history := hhistory
    rw [hchip, hact, hsame, ← Tones.undergo_append]
    exact ⟨_, rfl⟩

end Chiptune
