import Chiptune.Proofs.Timer
import Chiptune.Tones

/-! The runs of the tone channels.  Each channel has its state after a run (`after`) and the steps
that it puts out (`steps`); a run cut in two ends in the same state and puts out the same steps. -/

namespace Chiptune

/-! ### Pulse -/

namespace Pulse

/-- The level that a pulse puts out at a phase: none while it is silent. -/
def output (pulse : Pulse) (phase : BitVec 3) : Int :=
  if pulse.isSilent then 0 else pulse.levelAt phase

theorem timerPeriod_pos (pulse : Pulse) : 0 < (pulse.timerPeriod : Int) := by
  unfold timerPeriod
  omega

/-- The pulse at a phase, with its level put out and `delay` clocks to the next event. -/
def reached (pulse : Pulse) (phase : BitVec 3) (delay : Int) : Pulse :=
  { pulse with voice := { pulse.voice with delay, level := pulse.output phase }, phase }

theorem reached_reached (pulse : Pulse) (phase phase' : BitVec 3) (delay delay' : Int) :
    (pulse.reached phase delay).reached phase' delay' = pulse.reached phase' delay' := rfl

/-- The phase after a run. -/
def phaseAfter (pulse : Pulse) (time stop : Int) : BitVec 3 :=
  Timer.skip (· + 1) (Timer.count pulse.timerPeriod (time + pulse.voice.delay) stop) pulse.phase

/-- The pulse after a run. -/
def after (pulse : Pulse) (time stop : Int) : Pulse :=
  pulse.reached (pulse.phaseAfter time stop)
    (Timer.left pulse.timerPeriod (time + pulse.voice.delay) stop)

/-- The steps of a run. -/
def steps (pulse : Pulse) (time stop : Int) : List Step :=
  Timer.sound (· + 1) pulse.output pulse.timerPeriod pulse.voice.level time pulse.voice.delay stop
    pulse.phase

theorem skip_succ (n : Nat) (phase : BitVec 3) :
    Timer.skip (· + 1) n phase = phase + BitVec.ofNat 3 n := by
  induction n generalizing phase with
  | zero => simp [Timer.skip]
  | succ n ih =>
    rw [Timer.skip, ih, BitVec.add_assoc, BitVec.ofNat_add, BitVec.add_comm (BitVec.ofNat 3 n)]
    rfl

theorem run_fst (pulse : Pulse) (time stop : Int) (all : Array Step) :
    (pulse.run time stop all).1 = pulse.after time stop := by
  unfold run after reached phaseAfter
  by_cases h : pulse.isSilent
  · rw [skip_succ]
    simp [h, output, Voice.moveTo, Timer.left]
  · simp [h, output, Voice.moveTo, Timer.left, Timer.play_fst]

theorem toList_run (pulse : Pulse) (time stop : Int) (all : Array Step) :
    (pulse.run time stop all).2.toList = all.toList ++ pulse.steps time stop := by
  unfold run steps Timer.sound
  by_cases h : pulse.isSilent
  · rw [Timer.trace_eq_nil (P := fun _ => True) (fun phase _ => by simp [output, h]) _ _ trivial]
    simp [h, output, Voice.moveTo, Step.toList_record]
  · have houtput : pulse.output = pulse.levelAt := by
      funext phase
      simp [output, h]
    simp [h, houtput, Voice.moveTo, Timer.toList_play, Step.toList_record]

theorem phaseAfter_split (pulse : Pulse) (time : Int) {mid stop : Int} (h : mid ≤ stop) :
    (pulse.after time mid).phaseAfter mid stop = pulse.phaseAfter time stop := by
  unfold phaseAfter
  rw [Timer.count_split pulse.timerPeriod_pos _ h, Timer.skip_add]
  rfl

theorem after_after (pulse : Pulse) (time : Int) {mid stop : Int} (h : mid ≤ stop) :
    (pulse.after time mid).after mid stop = pulse.after time stop := by
  have hleft := Timer.left_split pulse.timerPeriod_pos (time + pulse.voice.delay) h
  rw [after, phaseAfter_split pulse time h, after, after, reached_reached]
  exact congrArg (pulse.reached _) hleft

theorem steps_split (pulse : Pulse) (time : Int) {mid stop : Int} (h : mid ≤ stop) :
    pulse.steps time stop = pulse.steps time mid ++ (pulse.after time mid).steps mid stop :=
  Timer.sound_split pulse.timerPeriod_pos _ time _ _ h

theorem after_rebase (pulse : Pulse) (origin time stop : Int) :
    pulse.after (time - origin) (stop - origin) = pulse.after time stop := by
  have hfirst : time - origin + pulse.voice.delay = time + pulse.voice.delay - origin := by omega
  unfold after phaseAfter
  rw [hfirst, Timer.count_rebase, Timer.left_rebase]

theorem steps_rebase (pulse : Pulse) (origin time stop : Int) :
    pulse.steps (time - origin) (stop - origin) =
      (pulse.steps time stop).map (Step.rebase origin) :=
  Timer.sound_rebase ..

theorem time_of_mem_steps (pulse : Pulse) {time stop : Int} (hdelay : 0 ≤ pulse.voice.delay)
    (h : time ≤ stop) {step : Step} (hstep : step ∈ pulse.steps time stop) :
    time ≤ step.time ∧ step.time ≤ stop :=
  Timer.time_of_mem_sound pulse.timerPeriod_pos hdelay h hstep

end Pulse

/-! ### Triangle -/

namespace Triangle

theorem timerPeriod_pos (triangle : Triangle) : 0 < (triangle.timerPeriod : Int) := by
  unfold timerPeriod
  omega

/-- The triangle at a phase, with its level put out and `delay` clocks to the next event. -/
def reached (triangle : Triangle) (phase : BitVec 5) (delay : Int) : Triangle :=
  { triangle with voice := { triangle.voice with delay, level := levelAt phase }, phase }

theorem reached_reached (triangle : Triangle) (phase phase' : BitVec 5) (delay delay' : Int) :
    (triangle.reached phase delay).reached phase' delay' = triangle.reached phase' delay' := rfl

/-- The phase after a run in which the triangle is not held. -/
def phaseAfter (triangle : Triangle) (time stop : Int) : BitVec 5 :=
  Timer.skip (· - 1) (Timer.count triangle.timerPeriod (time + triangle.voice.delay) stop)
    triangle.phase

/-- The triangle after a run. -/
def after (triangle : Triangle) (time stop : Int) : Triangle :=
  if triangle.isHeld then triangle.reached triangle.phase 0
  else
    triangle.reached (triangle.phaseAfter time stop)
      (Timer.left triangle.timerPeriod (time + triangle.voice.delay) stop)

/-- The steps of a run. -/
def steps (triangle : Triangle) (time stop : Int) : List Step :=
  if triangle.isHeld then Step.change time (levelAt triangle.phase - triangle.voice.level)
  else
    Timer.sound (· - 1) levelAt triangle.timerPeriod triangle.voice.level time triangle.voice.delay
      stop triangle.phase

theorem run_fst (triangle : Triangle) (time stop : Int) (all : Array Step) :
    (triangle.run time stop all).1 = triangle.after time stop := by
  unfold run after reached phaseAfter
  by_cases h : triangle.isHeld
  · simp [h, Voice.moveTo]
  · simp [h, Voice.moveTo, Timer.left, Timer.play_fst]

theorem toList_run (triangle : Triangle) (time stop : Int) (all : Array Step) :
    (triangle.run time stop all).2.toList = all.toList ++ triangle.steps time stop := by
  unfold run steps Timer.sound
  by_cases h : triangle.isHeld
  · simp [h, Voice.moveTo, Step.toList_record]
  · simp [h, Voice.moveTo, Timer.toList_play, Step.toList_record]

theorem isHeld_after (triangle : Triangle) (time stop : Int) :
    (triangle.after time stop).isHeld = triangle.isHeld := by
  unfold after
  split <;> rfl

theorem after_of_held {triangle : Triangle} (h : triangle.isHeld = true) (time stop : Int) :
    triangle.after time stop = triangle.reached triangle.phase 0 := by
  simp [after, h]

theorem after_of_not_held {triangle : Triangle} (h : ¬triangle.isHeld = true) (time stop : Int) :
    triangle.after time stop = triangle.reached (triangle.phaseAfter time stop)
      (Timer.left triangle.timerPeriod (time + triangle.voice.delay) stop) := by
  simp [after, h]

theorem phaseAfter_split {triangle : Triangle} (hheld : ¬triangle.isHeld = true) (time : Int)
    {mid stop : Int} (h : mid ≤ stop) :
    (triangle.after time mid).phaseAfter mid stop = triangle.phaseAfter time stop := by
  rw [after_of_not_held hheld]
  unfold phaseAfter
  rw [Timer.count_split triangle.timerPeriod_pos _ h, Timer.skip_add]
  rfl

theorem after_after (triangle : Triangle) (time : Int) {mid stop : Int} (h : mid ≤ stop) :
    (triangle.after time mid).after mid stop = triangle.after time stop := by
  have hheld' := triangle.isHeld_after time mid
  by_cases hheld : triangle.isHeld = true
  · rw [hheld] at hheld'
    rw [after_of_held hheld', after_of_held hheld, after_of_held hheld]
    rfl
  · have hleft := Timer.left_split triangle.timerPeriod_pos (time + triangle.voice.delay) h
    rw [after_of_not_held (hheld' ▸ hheld), phaseAfter_split hheld time h, after_of_not_held hheld,
      after_of_not_held hheld, reached_reached]
    exact congrArg (triangle.reached _) hleft

theorem steps_of_held {triangle : Triangle} (h : triangle.isHeld = true) (time stop : Int) :
    triangle.steps time stop =
      Step.change time (levelAt triangle.phase - triangle.voice.level) := by
  simp [steps, h]

theorem steps_of_not_held {triangle : Triangle} (h : ¬triangle.isHeld = true) (time stop : Int) :
    triangle.steps time stop =
      Timer.sound (· - 1) levelAt triangle.timerPeriod triangle.voice.level time
        triangle.voice.delay stop triangle.phase := by
  simp [steps, h]

theorem steps_split (triangle : Triangle) (time : Int) {mid stop : Int} (h : mid ≤ stop) :
    triangle.steps time stop =
      triangle.steps time mid ++ (triangle.after time mid).steps mid stop := by
  have hheld' := triangle.isHeld_after time mid
  by_cases hheld : triangle.isHeld = true
  · rw [hheld] at hheld'
    rw [steps_of_held hheld', steps_of_held hheld, steps_of_held hheld, after_of_held hheld]
    simp [reached]
  · rw [← hheld'] at hheld
    rw [steps_of_not_held hheld]
    rw [hheld'] at hheld
    rw [steps_of_not_held hheld, steps_of_not_held hheld, after_of_not_held hheld]
    exact Timer.sound_split triangle.timerPeriod_pos _ time _ _ h

theorem after_rebase (triangle : Triangle) (origin time stop : Int) :
    triangle.after (time - origin) (stop - origin) = triangle.after time stop := by
  have hfirst : time - origin + triangle.voice.delay = time + triangle.voice.delay - origin := by
    omega
  unfold after phaseAfter
  rw [hfirst, Timer.count_rebase, Timer.left_rebase]

theorem steps_rebase (triangle : Triangle) (origin time stop : Int) :
    triangle.steps (time - origin) (stop - origin) =
      (triangle.steps time stop).map (Step.rebase origin) := by
  unfold steps
  split
  · rw [Step.map_rebase_change]
  · exact Timer.sound_rebase ..

theorem time_of_mem_steps (triangle : Triangle) {time stop : Int}
    (hdelay : 0 ≤ triangle.voice.delay) (h : time ≤ stop) {step : Step}
    (hstep : step ∈ triangle.steps time stop) : time ≤ step.time ∧ step.time ≤ stop := by
  unfold steps at hstep
  split at hstep
  · have := Step.time_of_mem_change hstep
    omega
  · exact Timer.time_of_mem_sound triangle.timerPeriod_pos hdelay h hstep

end Triangle

/-! ### Noise -/

namespace Noise

theorem timerPeriods_pos : ∀ period ∈ timerPeriods, 0 < period := by decide

theorem timerPeriod_pos (noise : Noise) : 0 < (noise.timerPeriod : Int) := by
  unfold timerPeriod
  rw [Array.getD_eq_getD_getElem?]
  cases h : timerPeriods[noise.voice.registers.third.toNat % 16]? with
  | none => decide
  | some period =>
    have := timerPeriods_pos period (Array.mem_of_getElem? h)
    simp only [Option.getD_some]
    omega

/-- The noise with `feedback` in its register, its level put out and `delay` clocks to the next
shift. -/
def reached (noise : Noise) (feedback : BitVec 15) (delay : Int) : Noise :=
  { noise with voice := { noise.voice with delay, level := noise.levelAt feedback }, feedback }

theorem reached_reached (noise : Noise) (feedback feedback' : BitVec 15) (delay delay' : Int) :
    (noise.reached feedback delay).reached feedback' delay' = noise.reached feedback' delay' := rfl

/-- The register after a run. -/
def feedbackAfter (noise : Noise) (time stop : Int) : BitVec 15 :=
  Timer.skip (shift noise.isShort) (Timer.count noise.timerPeriod (time + noise.voice.delay) stop)
    noise.feedback

/-- The noise after a run. -/
def after (noise : Noise) (time stop : Int) : Noise :=
  noise.reached (noise.feedbackAfter time stop)
    (Timer.left noise.timerPeriod (time + noise.voice.delay) stop)

/-- The steps of a run. -/
def steps (noise : Noise) (time stop : Int) : List Step :=
  Timer.sound (shift noise.isShort) noise.levelAt noise.timerPeriod noise.voice.level time
    noise.voice.delay stop noise.feedback

theorem levelAt_of_silent {noise : Noise} (h : noise.volume = 0) (register : BitVec 15) :
    noise.levelAt register = 0 := by
  simp [levelAt, h]

theorem run_fst (noise : Noise) (time stop : Int) (all : Array Step) :
    (noise.run time stop all).1 = noise.after time stop := by
  unfold run after reached feedbackAfter
  by_cases h : noise.volume = 0
  · simp [h, levelAt_of_silent, Voice.moveTo, Timer.left]
  · simp [h, Voice.moveTo, Timer.left, Timer.play_fst]

theorem toList_run (noise : Noise) (time stop : Int) (all : Array Step) :
    (noise.run time stop all).2.toList = all.toList ++ noise.steps time stop := by
  unfold run steps Timer.sound
  by_cases h : noise.volume = 0
  · rw [Timer.trace_eq_nil (P := fun _ => True) (fun register _ => by simp [levelAt_of_silent h])
      _ _ trivial]
    simp [h, Voice.moveTo, Step.toList_record]
  · simp [h, Voice.moveTo, Timer.toList_play, Step.toList_record]

theorem feedbackAfter_split (noise : Noise) (time : Int) {mid stop : Int} (h : mid ≤ stop) :
    (noise.after time mid).feedbackAfter mid stop = noise.feedbackAfter time stop := by
  unfold feedbackAfter
  rw [Timer.count_split noise.timerPeriod_pos _ h, Timer.skip_add]
  rfl

theorem after_after (noise : Noise) (time : Int) {mid stop : Int} (h : mid ≤ stop) :
    (noise.after time mid).after mid stop = noise.after time stop := by
  have hleft := Timer.left_split noise.timerPeriod_pos (time + noise.voice.delay) h
  rw [after, feedbackAfter_split noise time h, after, after, reached_reached]
  exact congrArg (noise.reached _) hleft

theorem steps_split (noise : Noise) (time : Int) {mid stop : Int} (h : mid ≤ stop) :
    noise.steps time stop = noise.steps time mid ++ (noise.after time mid).steps mid stop :=
  Timer.sound_split noise.timerPeriod_pos _ time _ _ h

theorem after_rebase (noise : Noise) (origin time stop : Int) :
    noise.after (time - origin) (stop - origin) = noise.after time stop := by
  have hfirst : time - origin + noise.voice.delay = time + noise.voice.delay - origin := by omega
  unfold after feedbackAfter
  rw [hfirst, Timer.count_rebase, Timer.left_rebase]

theorem steps_rebase (noise : Noise) (origin time stop : Int) :
    noise.steps (time - origin) (stop - origin) =
      (noise.steps time stop).map (Step.rebase origin) :=
  Timer.sound_rebase ..

theorem time_of_mem_steps (noise : Noise) {time stop : Int} (hdelay : 0 ≤ noise.voice.delay)
    (h : time ≤ stop) {step : Step} (hstep : step ∈ noise.steps time stop) :
    time ≤ step.time ∧ step.time ≤ stop :=
  Timer.time_of_mem_sound noise.timerPeriod_pos hdelay h hstep

end Noise

end Chiptune
