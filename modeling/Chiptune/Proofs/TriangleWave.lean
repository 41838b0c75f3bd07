import Chiptune.Proofs.Clockwork
import Chiptune.Proofs.ToneRun

/-! The wave of the triangle clock by clock.  Its 32 phases are counted down from 32 to 1 and around
again, and `height` is what is heard at each of them: the wave falls by one from phase to phase over
one half and rises by one over the other, and between the halves two phases sound alike.  While the
triangle is held it stays at its phase.  `phaseAt` counts the phases one clock at a time; however a
span is cut into runs, they end at that phase and their steps make the level that is heard. -/

namespace Chiptune

namespace Triangle

/-- The number of a phase, from 1 to 32. -/
def number (phase : BitVec 5) : Nat := phase.toNat + 1

/-- What is heard at a phase. -/
def height (phase : Nat) : Int := if phase ≤ 16 then 16 - phase else phase - 17

/-- The phase that follows a phase. -/
def following (phase : Nat) : Nat := if phase = 1 then 32 else phase - 1

/-- The phases after which the wave turns. -/
def turns : List Nat := [1, 17]

variable (triangle : Triangle)

/-- Whether the phase moves: both counters last and the period is not one of the two shortest. -/
def Moves : Prop :=
  triangle.voice.length ≠ 0 ∧ triangle.linear ≠ 0 ∧ 2 ≤ triangle.voice.period

instance : Decidable triangle.Moves := inferInstanceAs (Decidable (_ ∧ _ ∧ _))

/-- The phase at a clock, counted clock by clock since `time`. -/
def phaseAt (time clock : Int) : Nat :=
  let start : Clockwork Nat := ⟨triangle.voice.delay.toNat, number triangle.phase⟩
  if triangle.Moves then start.stateAt following (triangle.voice.period + 1) time clock
  else number triangle.phase

/-! ### Phases -/

theorem isHeld_iff : triangle.isHeld = true ↔ ¬triangle.Moves := by
  unfold isHeld timerPeriod Moves
  grind

theorem levelAt_eq_height (phase : BitVec 5) : levelAt phase = height (number phase) := by
  revert phase
  decide

theorem number_pred (phase : BitVec 5) : number (phase - 1) = following (number phase) := by
  revert phase
  decide

/-- From one phase to the next the level changes by one, or not at all where the wave turns. -/
theorem step_of_height (phase : BitVec 5) (h : levelAt (phase - 1) - levelAt phase ≠ 0) :
    (levelAt (phase - 1) - levelAt phase = 1 ∨ levelAt (phase - 1) - levelAt phase = -1) ∧
      number phase ∉ turns := by
  revert phase
  decide

section Moving

variable {triangle} (hmoves : triangle.Moves)
include hmoves

theorem not_isHeld : ¬triangle.isHeld = true := fun h => (triangle.isHeld_iff.mp h) hmoves

theorem phaseAt_eq (hdelay : 0 ≤ triangle.voice.delay) {time clock : Int} (h : time ≤ clock + 1) :
    triangle.phaseAt time clock = number (triangle.phaseAfter time (clock + 1)) := by
  have hstate := Clockwork.stateAt_eq following (Nat.succ_pos triangle.voice.period)
    ⟨triangle.voice.delay.toNat, number triangle.phase⟩ h
  rw [Int.toNat_of_nonneg hdelay] at hstate
  unfold phaseAt
  rw [if_pos hmoves]
  refine hstate.trans (Timer.skip_related (R := fun (s : BitVec 5) t => t = number s) ?_ _ rfl)
  rintro phase _ rfl
  exact (number_pred phase).symm

/-- A phase that moves does so at the clocks that are a number of periods after the first event. -/
theorem phaseAt_step (hdelay : 0 ≤ triangle.voice.delay) {time clock : Int} (h : time ≤ clock) :
    (∀ k : Nat, clock = time + triangle.voice.delay + k * (triangle.voice.period + 1 : Nat) →
      triangle.phaseAt time clock = following (triangle.phaseAt time (clock - 1))) ∧
    ((∀ k : Nat, clock ≠ time + triangle.voice.delay + k * (triangle.voice.period + 1 : Nat)) →
      triangle.phaseAt time clock = triangle.phaseAt time (clock - 1)) := by
  have hstep := Clockwork.stateAt_step following (Nat.succ_pos triangle.voice.period)
    ⟨triangle.voice.delay.toNat, number triangle.phase⟩ h
  rw [Int.toNat_of_nonneg hdelay] at hstep
  unfold phaseAt
  rw [if_pos hmoves, if_pos hmoves]
  exact hstep

end Moving

theorem phaseAt_of_held {triangle : Triangle} (h : ¬triangle.Moves) (time clock : Int) :
    triangle.phaseAt time clock = number triangle.phase :=
  if_neg h

theorem phaseAt_before (time : Int) : triangle.phaseAt time (time - 1) = number triangle.phase := by
  unfold phaseAt
  split
  · exact Clockwork.stateAt_before ..
  · rfl

/-! ### Runs -/

/-- A run of the triangle. -/
def runOn (time stop : Int) (triangle : Triangle) (all : Array Step) : Triangle × Array Step :=
  triangle.run time stop all

theorem divisible_runOn :
    Divisible runOn (fun time stop triangle => triangle.after time stop)
      (fun time stop triangle => triangle.steps time stop) where
  state time stop triangle all := triangle.run_fst time stop all
  steps time stop triangle all := triangle.toList_run time stop all
  state_split time _ _ triangle h := triangle.after_after time h
  steps_split time _ _ triangle h := triangle.steps_split time h

/-- The step that settles the level at the start of a run. -/
def settling (time : Int) : List Step :=
  Step.change time (height (number triangle.phase) - triangle.voice.level)

/-- The steps by which the wave moves in a run. -/
def moves (time stop : Int) : List Step :=
  if triangle.Moves then
    Timer.trace (· - 1) levelAt triangle.timerPeriod
      (Timer.count triangle.timerPeriod (time + triangle.voice.delay) stop)
      (time + triangle.voice.delay) triangle.phase
  else []

theorem steps_eq (time stop : Int) :
    triangle.steps time stop = triangle.settling time ++ triangle.moves time stop := by
  unfold settling moves
  rw [← levelAt_eq_height]
  by_cases h : triangle.Moves
  · rw [if_pos h, steps_of_not_held (not_isHeld h)]
    rfl
  · rw [if_neg h, steps_of_held (triangle.isHeld_iff.mpr h), List.append_nil]

theorem moves_pairwise (time stop : Int) :
    (triangle.moves time stop).Pairwise (·.time < ·.time) := by
  unfold moves
  split
  · exact Timer.trace_pairwise triangle.timerPeriod_pos ..
  · exact .nil

/-- The wave moves by one, at the clocks at which the phase does, and not where it turns. -/
theorem of_mem_moves (hdelay : 0 ≤ triangle.voice.delay) {time stop : Int} {step : Step}
    (h : step ∈ triangle.moves time stop) :
    (∃ k : Nat, step.time = time + triangle.voice.delay + k * (triangle.voice.period + 1 : Nat)) ∧
      (step.delta = 1 ∨ step.delta = -1) ∧ triangle.phaseAt time (step.time - 1) ∉ turns := by
  unfold moves at h
  split at h
  · rename_i hmoves
    obtain ⟨k, _, htime, hzero, hdelta⟩ := Timer.mem_trace h
    -- Event `k` is the last one before the clock after it, so the phase before it is the `k`-th.
    have hcount := (Timer.count_event triangle.timerPeriod_pos (time + triangle.voice.delay) k).1
    have hpast : 0 ≤ (k : Int) * triangle.timerPeriod := Int.mul_nonneg (by omega) (by omega)
    have hphase : triangle.phaseAt time (step.time - 1) =
        number (Timer.skip (· - 1) k triangle.phase) := by
      rw [phaseAt_eq hmoves hdelay (by omega), Int.sub_add_cancel, htime, phaseAfter, hcount]
    rw [hdelta] at hzero
    obtain ⟨hone, hturns⟩ := step_of_height _ hzero
    rw [hphase, hdelta]
    exact ⟨⟨k, htime⟩, hone, hturns⟩
  · cases h

theorem heard_at (hdelay : 0 ≤ triangle.voice.delay) {time clock stop : Int} (htime : time ≤ clock)
    (hstop : clock < stop) :
    triangle.voice.level +
        Step.total ((triangle.steps time stop).filter fun step => step.time ≤ clock) =
      height (triangle.phaseAt time clock) := by
  by_cases h : triangle.Moves
  · rw [steps_of_not_held (not_isHeld h), Timer.level_at triangle.timerPeriod_pos htime hstop,
      levelAt_eq_height, phaseAt_eq h hdelay (Int.le_add_one htime)]
    rfl
  · have hall : (Step.change time (levelAt triangle.phase - triangle.voice.level)).filter
        (fun step => step.time ≤ clock) =
          Step.change time (levelAt triangle.phase - triangle.voice.level) := by
      rw [List.filter_eq_self]
      intro step hstep
      rw [Step.time_of_mem_change hstep]
      exact decide_eq_true htime
    rw [steps_of_held (triangle.isHeld_iff.mpr h), hall, Step.total_change, phaseAt_of_held h,
      ← levelAt_eq_height]
    omega

/-- A run ends at the phase of its last clock, with what is heard there put out. -/
theorem ends_after (hdelay : 0 ≤ triangle.voice.delay) {time stop : Int} (h : time ≤ stop) :
    number (triangle.after time stop).phase = triangle.phaseAt time (stop - 1) ∧
      (triangle.after time stop).voice.level = height (triangle.phaseAt time (stop - 1)) := by
  have hlevel : (triangle.after time stop).voice.level =
      height (number (triangle.after time stop).phase) := by
    rw [← levelAt_eq_height]
    unfold after
    split <;> rfl
  have hphase : number (triangle.after time stop).phase = triangle.phaseAt time (stop - 1) := by
    by_cases hmoves : triangle.Moves
    · rw [phaseAt_eq hmoves hdelay (by omega), Int.sub_add_cancel,
        after_of_not_held (not_isHeld hmoves)]
      rfl
    · rw [phaseAt_of_held hmoves, after_of_held (triangle.isHeld_iff.mpr hmoves)]
      rfl
  exact ⟨hphase, hlevel.trans (congrArg height hphase)⟩

/-- The delay after a run in which the phase moves leads to the first event that does not come
before its stop. -/
theorem delay_after {triangle : Triangle} (hmoves : triangle.Moves) (time stop : Int) :
    0 ≤ (triangle.after time stop).voice.delay ∧
      (∃ k : Nat, stop + (triangle.after time stop).voice.delay =
        time + triangle.voice.delay + k * (triangle.voice.period + 1 : Nat)) ∧
      ∀ k : Nat, stop ≤ time + triangle.voice.delay + k * (triangle.voice.period + 1 : Nat) →
        stop + (triangle.after time stop).voice.delay ≤
          time + triangle.voice.delay + k * (triangle.voice.period + 1 : Nat) := by
  rw [after_of_not_held (not_isHeld hmoves)]
  exact Timer.left_least triangle.timerPeriod_pos (time + triangle.voice.delay) stop

/-- However a span is cut into runs, a phase that moves does so by one, around thirty-two, at the
clocks that are a number of periods after the first event, and only there, and the runs end with the
delay to the next event.  A phase that is held stays, and its next event is due as soon as the next
run starts.  At every clock of the span the level at its start and the steps so far make what is
heard at the phase of that clock.  Once the level has settled every step is one up or one down, and
there is none where the wave turns. -/
theorem phases_of_runs (hdelay : 0 ≤ triangle.voice.delay) {time stop : Int} {mids : List Int}
    (hsorted : (time :: (mids ++ [stop])).Pairwise (· ≤ ·)) (all : Array Step) :
    let due (k : Nat) : Int := time + triangle.voice.delay + k * (triangle.voice.period + 1 : Nat)
    let phase := triangle.phaseAt time
    let (ran, all') := inRuns runOn time (mids ++ [stop]) triangle all
    phase (time - 1) = number triangle.phase ∧ number ran.phase = phase (stop - 1) ∧
      (triangle.Moves →
        (∀ clock, time ≤ clock →
          (∀ k, clock = due k → phase clock = following (phase (clock - 1))) ∧
          ((∀ k, clock ≠ due k) → phase clock = phase (clock - 1))) ∧
        0 ≤ ran.voice.delay ∧ (∃ k, stop + ran.voice.delay = due k) ∧
        ∀ k, stop ≤ due k → stop + ran.voice.delay ≤ due k) ∧
      (¬triangle.Moves →
        (∀ clock, phase clock = number triangle.phase) ∧ ran.voice.delay = 0) ∧
      ran.voice.level = height (phase (stop - 1)) ∧
      ∃ moves, all'.toList = all.toList ++ (triangle.settling time ++ moves) ∧
        (∀ clock, time ≤ clock → clock < stop →
          triangle.voice.level + Step.total ((triangle.settling time ++ moves).filter
            fun step => step.time ≤ clock) = height (phase clock)) ∧
        moves.Pairwise (·.time < ·.time) ∧
        ∀ step ∈ moves, (∃ k, step.time = due k) ∧ (step.delta = 1 ∨ step.delta = -1) ∧
          phase (step.time - 1) ∉ turns := by
  intro due phase
  obtain ⟨hphase, hlevel⟩ := triangle.ends_after hdelay (le_of_sorted hsorted)
  obtain ⟨hran, hall⟩ := divisible_runOn.inRuns_eq hsorted triangle all
  generalize inRuns runOn time (mids ++ [stop]) triangle all = result at hran hall ⊢
  obtain ⟨ran, all'⟩ := result
  dsimp only at hran hall ⊢
  rw [hran, hall, steps_eq]
  refine ⟨triangle.phaseAt_before time, hphase, ?_, ?_, hlevel, triangle.moves time stop, rfl, ?_,
    triangle.moves_pairwise time stop, fun step => triangle.of_mem_moves hdelay⟩
  · intro hmoves
    exact ⟨fun clock => phaseAt_step hmoves hdelay, delay_after hmoves time stop⟩
  · intro hheld
    refine ⟨fun clock => phaseAt_of_held hheld time clock, ?_⟩
    rw [after_of_held (triangle.isHeld_iff.mpr hheld)]
    rfl
  · intro clock htime hclock
    rw [← steps_eq]
    exact triangle.heard_at hdelay htime hclock

/-- A triangle that comes to the top of its wave after one clock. -/
def crest : Triangle :=
  { voice := { registers := ⟨0, 0, 2, 0⟩, length := 1, delay := 1 }, phase := 1, linear := 1 }

theorem phases_of_runs_of_crest :
    0 ≤ crest.voice.delay ∧ ((0 : Int) :: ([2, 2, 5] ++ [9])).Pairwise (· ≤ ·) ∧ crest.Moves ∧
      crest.settling 0 = [⟨0, 14⟩] ∧
      (inRuns runOn 0 ([2, 2, 5] ++ [9]) crest #[]).2.toList = [⟨0, 14⟩, ⟨1, 1⟩, ⟨7, -1⟩] ∧
      height (crest.phaseAt 0 3) = 15 ∧ height (crest.phaseAt 0 8) = 14 ∧
      crest.phaseAt 0 6 ∉ turns := by
  have hdelay : 0 ≤ crest.voice.delay := by decide
  have hsorted : ((0 : Int) :: ([2, 2, 5] ++ [9])).Pairwise (· ≤ ·) := by decide
  have hmoves : crest.Moves := by decide
  have hsettling : crest.settling 0 = [⟨0, 14⟩] := by decide
  have hsteps : (inRuns runOn 0 ([2, 2, 5] ++ [9]) crest #[]).2.toList =
      [⟨0, 14⟩, ⟨1, 1⟩, ⟨7, -1⟩] := by decide +kernel
  obtain ⟨_, _, _, _, _, moves, hall, hheard, _, hturns⟩ := crest.phases_of_runs hdelay hsorted #[]
  obtain rfl : moves = [⟨1, 1⟩, ⟨7, -1⟩] := by
    rw [hsettling] at hall
    exact (List.cons.inj (hsteps.symm.trans hall)).2.symm
  rw [hsettling] at hheard
  exact ⟨hdelay, hsorted, hmoves, hsettling, hsteps, (hheard 3 (by decide) (by decide)).symm,
    (hheard 8 (by decide) (by decide)).symm, (hturns ⟨7, -1⟩ (by decide)).2.2⟩

end Triangle

end Chiptune
