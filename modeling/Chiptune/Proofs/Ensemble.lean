import Chiptune.Chip
import Chiptune.Proofs.Beats
import Chiptune.Proofs.ToneRun

/-! The tone channels together, clocked by the beats of the sequencer.  The steps of a run are told
apart by channel: `track` lists those of one channel, and no theorem depends on how the channels
take turns.  A run with its beats can be cut at any clock (`play_split`, `playSteps_split`). -/

namespace Chiptune

namespace ChannelStep

/-- The steps of one channel. -/
def track (channel : Channel) (all : Array ChannelStep) : List Step :=
  (all.toList.filter (·.channel = channel)).map (·.step)

theorem track_push (channel : Channel) (all : Array ChannelStep) (entry : ChannelStep) :
    track channel (all.push entry) =
      track channel all ++ if entry.channel = channel then [entry.step] else [] := by
  unfold track
  by_cases h : entry.channel = channel
  · simp [h]
  · simp [h]

theorem track_collect (channel from_ : Channel) (all : Array ChannelStep) (steps : Array Step) :
    track channel (collect all from_ steps) =
      track channel all ++ if from_ = channel then steps.toList else [] := by
  obtain ⟨steps⟩ := steps
  unfold collect
  rw [List.foldl_toArray']
  · induction steps generalizing all with
    | nil => simp
    | cons step steps ih =>
      rw [List.foldl_cons, ih, track_push]
      split <;> simp
  · rfl

end ChannelStep

namespace Tones

/-- The tone channels after a run without a beat. -/
def after (tones : Tones) (time stop : Int) : Tones :=
  { pulse1 := tones.pulse1.after time stop
    pulse2 := tones.pulse2.after time stop
    triangle := tones.triangle.after time stop
    noise := tones.noise.after time stop }

/-- The steps of a channel in a run without a beat. -/
def steps (tones : Tones) (time stop : Int) : Channel → List Step
  | .pulse1 => tones.pulse1.steps time stop
  | .pulse2 => tones.pulse2.steps time stop
  | .triangle => tones.triangle.steps time stop
  | .noise => tones.noise.steps time stop
  | .dmc => []

theorem run_fst (tones : Tones) (time stop : Int) (all : Array ChannelStep) :
    (tones.run time stop all).1 = tones.after time stop := by
  simp only [run, after, Pulse.run_fst, Triangle.run_fst, Noise.run_fst]

theorem track_run (tones : Tones) (time stop : Int) (all : Array ChannelStep) (channel : Channel) :
    ChannelStep.track channel (tones.run time stop all).2 =
      ChannelStep.track channel all ++ tones.steps time stop channel := by
  simp only [run, ChannelStep.track_collect, Pulse.toList_run, Triangle.toList_run,
    Noise.toList_run, List.nil_append]
  cases channel <;> simp [steps]

theorem after_after (tones : Tones) (time : Int) {mid stop : Int} (h : mid ≤ stop) :
    (tones.after time mid).after mid stop = tones.after time stop := by
  simp only [after, Pulse.after_after _ _ h, Triangle.after_after _ _ h, Noise.after_after _ _ h]

theorem steps_split (tones : Tones) (time : Int) {mid stop : Int} (h : mid ≤ stop)
    (channel : Channel) :
    tones.steps time stop channel =
      tones.steps time mid channel ++ (tones.after time mid).steps mid stop channel := by
  cases channel with
  | pulse1 => exact tones.pulse1.steps_split time h
  | pulse2 => exact tones.pulse2.steps_split time h
  | triangle => exact tones.triangle.steps_split time h
  | noise => exact tones.noise.steps_split time h
  | dmc => rfl

theorem after_rebase (tones : Tones) (origin time stop : Int) :
    tones.after (time - origin) (stop - origin) = tones.after time stop := by
  simp only [after, Pulse.after_rebase, Triangle.after_rebase, Noise.after_rebase]

theorem steps_rebase (tones : Tones) (origin time stop : Int) (channel : Channel) :
    tones.steps (time - origin) (stop - origin) channel =
      (tones.steps time stop channel).map (Step.rebase origin) := by
  cases channel with
  | pulse1 => exact tones.pulse1.steps_rebase ..
  | pulse2 => exact tones.pulse2.steps_rebase ..
  | triangle => exact tones.triangle.steps_rebase ..
  | noise => exact tones.noise.steps_rebase ..
  | dmc => rfl

/-! ### Beats -/

/-- The tone channels after a run through `beats`. -/
def play (tones : Tones) (time stop : Int) : List (Int × Beat) → Tones
  | [] => tones.after time stop
  | (due, beat) :: beats => ((tones.after time due).clock beat).play due stop beats

/-- The steps of a channel in a run through `beats`. -/
def playSteps (tones : Tones) (time stop : Int) (channel : Channel) : List (Int × Beat) → List Step
  | [] => tones.steps time stop channel
  | (due, beat) :: beats =>
    tones.steps time due channel ++
      ((tones.after time due).clock beat).playSteps due stop channel beats

theorem playTones_cons (tones : Tones) (time stop due : Int) (beat : Beat)
    (beats : List (Int × Beat)) (all : Array ChannelStep) :
    Session.playTones tones time stop ((due, beat) :: beats).toArray all =
      Session.playTones ((tones.run time due all).1.clock beat) due stop beats.toArray
        (tones.run time due all).2 := by
  simp [Session.playTones]

theorem playTones_fst (tones : Tones) (time stop : Int) (beats : Array (Int × Beat))
    (all : Array ChannelStep) :
    (Session.playTones tones time stop beats all).1 = tones.play time stop beats.toList := by
  obtain ⟨beats⟩ := beats
  induction beats generalizing tones time all with
  | nil => simp [Session.playTones, play, run_fst]
  | cons beat beats ih => rw [playTones_cons, ih, run_fst, play]

theorem track_playTones (tones : Tones) (time stop : Int) (beats : Array (Int × Beat))
    (all : Array ChannelStep) (channel : Channel) :
    ChannelStep.track channel (Session.playTones tones time stop beats all).2 =
      ChannelStep.track channel all ++ tones.playSteps time stop channel beats.toList := by
  obtain ⟨beats⟩ := beats
  induction beats generalizing tones time all with
  | nil => simp [Session.playTones, playSteps, track_run]
  | cons beat beats ih =>
    rw [playTones_cons, ih, run_fst, track_run, playSteps, List.append_assoc]

theorem play_split (tones : Tones) (time : Int) {mid stop : Int} (h : mid ≤ stop)
    (beats beats' : List (Int × Beat)) (hbeats' : Sequencer.Ordered stop mid beats') :
    tones.play time stop (beats ++ beats') = (tones.play time mid beats).play mid stop beats' := by
  induction beats generalizing tones time with
  | nil =>
    cases beats' with
    | nil => exact (tones.after_after time h).symm
    | cons beat beats' =>
      rw [List.nil_append, play, play, play, tones.after_after time hbeats'.1]
  | cons beat beats ih => rw [List.cons_append, play, play, ih]

theorem playSteps_split (tones : Tones) (time : Int) {mid stop : Int} (h : mid ≤ stop)
    (channel : Channel) (beats beats' : List (Int × Beat))
    (hbeats' : Sequencer.Ordered stop mid beats') :
    tones.playSteps time stop channel (beats ++ beats') =
      tones.playSteps time mid channel beats ++
        (tones.play time mid beats).playSteps mid stop channel beats' := by
  induction beats generalizing tones time with
  | nil =>
    cases beats' with
    | nil => exact tones.steps_split time h channel
    | cons beat beats' =>
      rw [List.nil_append, play, playSteps, playSteps, playSteps, tones.after_after time hbeats'.1,
        tones.steps_split time hbeats'.1, List.append_assoc]
  | cons beat beats ih =>
    rw [List.cons_append, play, playSteps, playSteps, ih, List.append_assoc]

theorem play_rebase (tones : Tones) (origin time stop : Int) (beats : List (Int × Beat)) :
    tones.play (time - origin) (stop - origin) (beats.map fun beat => (beat.1 - origin, beat.2)) =
      tones.play time stop beats := by
  induction beats generalizing tones time with
  | nil => exact tones.after_rebase origin time stop
  | cons beat beats ih => rw [List.map_cons, play, play, ih, after_rebase]

theorem playSteps_rebase (tones : Tones) (origin time stop : Int) (channel : Channel)
    (beats : List (Int × Beat)) :
    tones.playSteps (time - origin) (stop - origin) channel
        (beats.map fun beat => (beat.1 - origin, beat.2)) =
      (tones.playSteps time stop channel beats).map (Step.rebase origin) := by
  induction beats generalizing tones time with
  | nil => exact tones.steps_rebase origin time stop channel
  | cons beat beats ih =>
    rw [List.map_cons, playSteps, playSteps, ih, after_rebase, steps_rebase, List.map_append]

end Tones

/-! ### Times -/

/-- The delay and the level of a voice, which only its runs move. -/
def Voice.place (voice : Voice) : Int × Int := (voice.delay, voice.level)

theorem Envelope.place_clock (envelope : Envelope) (voice : Voice) :
    (envelope.clock voice).2.place = voice.place := by
  unfold clock
  split
  · rfl
  · split <;> rfl

theorem Voice.place_clockLength (voice : Voice) (haltMask : UInt8) :
    (voice.clockLength haltMask).place = voice.place := by
  unfold clockLength
  split <;> rfl

theorem Pulse.clockSweep_fields (pulse : Pulse) :
    pulse.clockSweep.negation = pulse.negation ∧
      pulse.clockSweep.voice.place = pulse.voice.place := by
  unfold clockSweep
  cases pulse.sweepTarget? <;> grind [setPeriod, Voice.place]

theorem Pulse.length_clockSweep (pulse : Pulse) :
    pulse.clockSweep.voice.length = pulse.voice.length := by
  unfold clockSweep
  cases pulse.sweepTarget? <;> grind [setPeriod]

namespace Tones

/-! ### Writes -/

section Invariant

variable {P : Tones → Prop}
  (hvoice : ∀ (tones : Tones) (channel : Channel) (f : Voice → Voice),
    (∀ voice, (f voice).place = voice.place) → P tones → P (tones.modifyVoice channel f))
include hvoice

/-- A write touches a voice but not its place, and starts a duty sequence over. -/
theorem write_invariant (hrestart : ∀ tones channel, P tones → P (tones.restart channel))
    {tones : Tones} (h : P tones) (channel : Channel) (slot : Slot) (value : UInt8)
    (enabled : Bool) : P (tones.write channel slot value enabled) := by
  have hwrite := hvoice tones channel (·.write slot value) (fun _ => rfl) h
  unfold Tones.write
  simp only
  split
  · split
    · exact hrestart _ _ (hvoice _ _ _ (fun _ => rfl) hwrite)
    · exact hrestart _ _ hwrite
  · exact hwrite

theorem enable_invariant {tones : Tones} (h : P tones) (enables : ByChannel Bool) :
    P (tones.enable enables) := by
  unfold Tones.enable
  generalize Channel.all = channels
  induction channels generalizing tones with
  | nil => exact h
  | cons channel channels ih =>
    rw [List.foldl_cons]
    split
    · exact ih h
    · exact ih (hvoice _ _ _ (fun _ => rfl) h)

end Invariant

/-- The place of a tone channel. -/
def place (tones : Tones) : Channel → Int × Int
  | .pulse1 => tones.pulse1.voice.place
  | .pulse2 => tones.pulse2.voice.place
  | .triangle => tones.triangle.voice.place
  | .noise => tones.noise.voice.place
  | .dmc => (0, 0)

theorem place_clockHalf (tones : Tones) (channel : Channel) :
    tones.clockHalf.place channel = tones.place channel := by
  have hpulse (pulse : Pulse) : pulse.clockLength.clockSweep.voice.place = pulse.voice.place :=
    (Pulse.clockSweep_fields _).2.trans (Voice.place_clockLength ..)
  cases channel with
  | pulse1 => exact hpulse _
  | pulse2 => exact hpulse _
  | triangle => exact Voice.place_clockLength ..
  | noise => exact Voice.place_clockLength ..
  | dmc => rfl

theorem place_clockQuarter (tones : Tones) (channel : Channel) :
    tones.clockQuarter.place channel = tones.place channel := by
  cases channel with
  | triangle => rfl
  | dmc => rfl
  | _ => exact Envelope.place_clock ..

theorem place_clock (tones : Tones) (beat : Beat) (channel : Channel) :
    (tones.clock beat).place channel = tones.place channel := by
  unfold clock
  dsimp only
  split <;> split <;> simp only [place_clockQuarter, place_clockHalf]

theorem place_modifyVoice (tones : Tones) (changed : Channel) {f : Voice → Voice}
    (hf : ∀ voice, (f voice).place = voice.place) (channel : Channel) :
    (tones.modifyVoice changed f).place channel = tones.place channel := by
  cases changed <;> cases channel <;> first | rfl | exact hf _

theorem place_write (tones : Tones) (written : Channel) (slot : Slot) (value : UInt8)
    (enabled : Bool) (channel : Channel) :
    (tones.write written slot value enabled).place channel = tones.place channel :=
  write_invariant (P := fun next => next.place channel = tones.place channel)
    (fun _ changed _ hf h => (place_modifyVoice _ changed hf _).trans h)
    (fun _ restarted h => by cases restarted <;> cases channel <;> exact h) rfl written slot value
    enabled

theorem place_enable (tones : Tones) (enables : ByChannel Bool) (channel : Channel) :
    (tones.enable enables).place channel = tones.place channel :=
  enable_invariant (P := fun next => next.place channel = tones.place channel)
    (fun _ changed _ hf h => (place_modifyVoice _ changed hf _).trans h) rfl enables

/-- No timer event of a tone channel is overdue. -/
structure Ready (tones : Tones) : Prop where
  pulse1 : 0 ≤ tones.pulse1.voice.delay
  pulse2 : 0 ≤ tones.pulse2.voice.delay
  triangle : 0 ≤ tones.triangle.voice.delay
  noise : 0 ≤ tones.noise.voice.delay

namespace Ready

variable {tones : Tones}

theorem after (tones : Tones) (time stop : Int) : (tones.after time stop).Ready where
  pulse1 := Timer.left_nonneg tones.pulse1.timerPeriod_pos _ _
  pulse2 := Timer.left_nonneg tones.pulse2.timerPeriod_pos _ _
  triangle := by
    show 0 ≤ (tones.triangle.after time stop).voice.delay
    unfold Triangle.after
    split
    · exact Int.le_refl 0
    · exact Timer.left_nonneg tones.triangle.timerPeriod_pos _ _
  noise := Timer.left_nonneg tones.noise.timerPeriod_pos _ _

theorem of_place (h : tones.Ready) {tones' : Tones}
    (hplace : ∀ channel, tones'.place channel = tones.place channel) : tones'.Ready where
  pulse1 := le_of_le_of_eq h.pulse1 (congrArg Prod.fst (hplace .pulse1)).symm
  pulse2 := le_of_le_of_eq h.pulse2 (congrArg Prod.fst (hplace .pulse2)).symm
  triangle := le_of_le_of_eq h.triangle (congrArg Prod.fst (hplace .triangle)).symm
  noise := le_of_le_of_eq h.noise (congrArg Prod.fst (hplace .noise)).symm

theorem clock (h : tones.Ready) (beat : Beat) : (tones.clock beat).Ready :=
  h.of_place (tones.place_clock beat)

theorem write (h : tones.Ready) (channel : Channel) (slot : Slot) (value : UInt8)
    (enabled : Bool) : (tones.write channel slot value enabled).Ready :=
  h.of_place (tones.place_write channel slot value enabled)

theorem enable (h : tones.Ready) (enables : ByChannel Bool) : (tones.enable enables).Ready :=
  h.of_place (tones.place_enable enables)

theorem reset (tones : Tones) : tones.reset.Ready :=
  ⟨Int.le_refl 0, Int.le_refl 0, Int.le_refl 0, Int.le_refl 0⟩

theorem play (tones : Tones) (time stop : Int) (beats : List (Int × Beat)) :
    (tones.play time stop beats).Ready := by
  induction beats generalizing tones time with
  | nil => exact after tones time stop
  | cons beat beats ih => exact ih ..

theorem time_of_mem_steps (h : tones.Ready) {time stop : Int} (hstop : time ≤ stop)
    {channel : Channel} {step : Step} (hstep : step ∈ tones.steps time stop channel) :
    time ≤ step.time ∧ step.time ≤ stop := by
  cases channel with
  | pulse1 => exact tones.pulse1.time_of_mem_steps h.pulse1 hstop hstep
  | pulse2 => exact tones.pulse2.time_of_mem_steps h.pulse2 hstop hstep
  | triangle => exact tones.triangle.time_of_mem_steps h.triangle hstop hstep
  | noise => exact tones.noise.time_of_mem_steps h.noise hstop hstep
  | dmc => cases hstep

/-- The steps of a run through ordered beats lie within its span. -/
theorem time_of_mem_playSteps (h : tones.Ready) {time stop : Int} {beats : List (Int × Beat)}
    (hbeats : Sequencer.Ordered stop time beats) {channel : Channel} {step : Step}
    (hstep : step ∈ tones.playSteps time stop channel beats) :
    time ≤ step.time ∧ step.time ≤ stop := by
  induction beats generalizing tones time with
  | nil => exact h.time_of_mem_steps hbeats hstep
  | cons beat beats ih =>
    obtain ⟨hdue, hbeats⟩ := hbeats
    rw [playSteps, List.mem_append] at hstep
    rcases hstep with hstep | hstep
    · obtain ⟨hearly, hlate⟩ := h.time_of_mem_steps hdue hstep
      exact ⟨hearly, Int.le_trans hlate hbeats.le⟩
    · obtain ⟨hearly, hlate⟩ := ih ((after tones time beat.1).clock beat.2) hbeats hstep
      exact ⟨Int.le_trans hdue hearly, hlate⟩

end Ready

end Tones

end Chiptune
