import Chiptune.Proofs.Clockwork
import Chiptune.Proofs.ToneRun

/-! The wave of a pulse clock by clock.  `phaseAt` counts the phases around one clock at a time, and
`heard` says what a listener hears at a phase.  However a span is cut into runs, their steps make
the level that is heard at every clock of it. -/

namespace Chiptune.Pulse

/-- The phases in which a duty holds the wave high. -/
def highPhases : Nat → List Nat
  | 0 => [0]
  | 1 => [0, 1]
  | 2 => [0, 1, 2, 3]
  | _ => [2, 3, 4, 5, 6, 7]

/-- What is heard of a pulse at a phase. -/
def heard (pulse : Pulse) (phase : Nat) : Int :=
  if pulse.volume = 0 ∨ pulse.voice.period < 8 ∨
      0x800 ≤ pulse.voice.period + pulse.upwardOffset then 0
  else if phase ∈ highPhases pulse.duty then pulse.volume else 0

/-- The phase at a clock, counted clock by clock since `time`. -/
def phaseAt (pulse : Pulse) (time clock : Int) : Nat :=
  let start : Clockwork Nat := ⟨pulse.voice.delay.toNat, pulse.phase.toNat⟩
  (start.clocks (fun phase => (phase + 1) % 8) (2 * (pulse.voice.period + 1))
    (clock + 1 - time).toNat).state

theorem isHigh_eq (duty : Nat) (phase : BitVec 3) :
    isHigh duty phase = decide (phase.toNat ∈ highPhases duty) := by
  have hlow : ∀ duty < 3, isHigh duty phase = decide (phase.toNat ∈ highPhases duty) := by
    revert phase
    decide
  have hlast : (!decide (phase < 2)) = decide (phase.toNat ∈ [2, 3, 4, 5, 6, 7]) := by
    revert phase
    decide
  match duty with
  | 0 | 1 | 2 => exact hlow _ (by decide)
  | duty + 3 => exact hlast

theorem output_eq_heard (pulse : Pulse) (phase : BitVec 3) :
    pulse.output phase = pulse.heard phase.toNat := by
  have hsilent : pulse.isSilent = true ↔ pulse.volume = 0 ∨ pulse.voice.period < 8 ∨
      0x800 ≤ pulse.voice.period + pulse.upwardOffset := by
    simp [isSilent, or_assoc]
  unfold output levelAt heard
  simp only [hsilent, isHigh_eq, decide_eq_true_eq]

variable (pulse : Pulse)

theorem two_mul_period : 2 * (pulse.voice.period + 1) = pulse.timerPeriod := Nat.mul_comm ..

theorem phaseAt_eq (hdelay : 0 ≤ pulse.voice.delay) {time clock : Int} (h : time ≤ clock + 1) :
    pulse.phaseAt time clock =
      (Timer.skip (· + 1) (Timer.count pulse.timerPeriod (time + pulse.voice.delay) (clock + 1))
        pulse.phase).toNat := by
  have hpos : 0 < pulse.timerPeriod := Int.natCast_pos.mp pulse.timerPeriod_pos
  have hstate := Clockwork.stateAt_eq (fun phase => (phase + 1) % 8) hpos
    ⟨pulse.voice.delay.toNat, pulse.phase.toNat⟩ h
  rw [Int.toNat_of_nonneg hdelay] at hstate
  unfold phaseAt
  rw [two_mul_period]
  refine hstate.trans (Timer.skip_related (R := fun (s : BitVec 3) t => t = s.toNat) ?_ _ rfl)
  rintro phase _ rfl
  exact (BitVec.toNat_add phase 1).symm

/-- The phase moves at the clocks that are a number of periods after the first event. -/
theorem phaseAt_step (hdelay : 0 ≤ pulse.voice.delay) {time clock : Int} (h : time ≤ clock) :
    (∀ k : Nat, clock = time + pulse.voice.delay + k * (2 * (pulse.voice.period + 1) : Nat) →
      pulse.phaseAt time clock = (pulse.phaseAt time (clock - 1) + 1) % 8) ∧
    ((∀ k : Nat, clock ≠ time + pulse.voice.delay + k * (2 * (pulse.voice.period + 1) : Nat)) →
      pulse.phaseAt time clock = pulse.phaseAt time (clock - 1)) := by
  have hpos : 0 < 2 * (pulse.voice.period + 1) := Nat.mul_pos Nat.two_pos (Nat.succ_pos _)
  have hstep := Clockwork.stateAt_step (fun phase => (phase + 1) % 8) hpos
    ⟨pulse.voice.delay.toNat, pulse.phase.toNat⟩ h
  rwa [Int.toNat_of_nonneg hdelay] at hstep

/-! ### Runs -/

/-- A run of the pulse. -/
def runOn (time stop : Int) (pulse : Pulse) (all : Array Step) : Pulse × Array Step :=
  pulse.run time stop all

theorem divisible_runOn :
    Divisible runOn (fun time stop pulse => pulse.after time stop)
      (fun time stop pulse => pulse.steps time stop) where
  state time stop pulse all := pulse.run_fst time stop all
  steps time stop pulse all := pulse.toList_run time stop all
  state_split time _ _ pulse h := pulse.after_after time h
  steps_split time _ _ pulse h := pulse.steps_split time h

theorem heard_at (hdelay : 0 ≤ pulse.voice.delay) {time clock stop : Int} (htime : time ≤ clock)
    (hstop : clock < stop) :
    pulse.voice.level + Step.total ((pulse.steps time stop).filter fun step => step.time ≤ clock) =
      pulse.heard (pulse.phaseAt time clock) := by
  unfold steps
  rw [Timer.level_at pulse.timerPeriod_pos htime hstop, output_eq_heard,
    phaseAt_eq pulse hdelay (Int.le_add_one htime)]

/-- The delay after a run leads to the first event that does not come before its stop. -/
theorem delay_after (time stop : Int) :
    0 ≤ (pulse.after time stop).voice.delay ∧
      (∃ k : Nat, stop + (pulse.after time stop).voice.delay =
        time + pulse.voice.delay + k * pulse.timerPeriod) ∧
      ∀ k : Nat, stop ≤ time + pulse.voice.delay + k * pulse.timerPeriod →
        stop + (pulse.after time stop).voice.delay ≤
          time + pulse.voice.delay + k * pulse.timerPeriod :=
  Timer.left_least pulse.timerPeriod_pos (time + pulse.voice.delay) stop

/-- However a span is cut into runs, the phase moves by one, around eight, at the clocks that are a
number of periods after the first event, and only there.  At every clock of the span the level at
its start and the steps so far make what is heard at the phase of that clock.  The runs end with
what is heard at the last clock put out, and with the delay to the next event. -/
theorem wave_of_runs (hdelay : 0 ≤ pulse.voice.delay) {time stop : Int} {mids : List Int}
    (hsorted : (time :: (mids ++ [stop])).Pairwise (· ≤ ·)) (all : Array Step) :
    let due (k : Nat) : Int := time + pulse.voice.delay + k * (2 * (pulse.voice.period + 1) : Nat)
    let phase := pulse.phaseAt time
    let (ran, all') := inRuns runOn time (mids ++ [stop]) pulse all
    phase (time - 1) = pulse.phase.toNat ∧ ran.phase.toNat = phase (stop - 1) ∧
      (∀ clock, time ≤ clock →
        (∀ k, clock = due k → phase clock = (phase (clock - 1) + 1) % 8) ∧
        ((∀ k, clock ≠ due k) → phase clock = phase (clock - 1))) ∧
      (∃ steps, all'.toList = all.toList ++ steps ∧ ∀ clock, time ≤ clock → clock < stop →
        pulse.voice.level + Step.total (steps.filter fun step => step.time ≤ clock) =
          pulse.heard (phase clock)) ∧
      ran.voice.level = pulse.heard (phase (stop - 1)) ∧ 0 ≤ ran.voice.delay ∧
      (∃ k, stop + ran.voice.delay = due k) ∧
      ∀ k, stop ≤ due k → stop + ran.voice.delay ≤ due k := by
  intro due phase
  have hstop : time ≤ stop - 1 + 1 := by
    have hle := le_of_sorted hsorted
    omega
  have hlast : pulse.phaseAt time (stop - 1) = (pulse.phaseAfter time stop).toNat := by
    rw [phaseAt_eq pulse hdelay hstop, Int.sub_add_cancel]
    rfl
  have hnext := pulse.delay_after time stop
  rw [← two_mul_period] at hnext
  obtain ⟨hran, hall⟩ := divisible_runOn.inRuns_eq hsorted pulse all
  generalize inRuns runOn time (mids ++ [stop]) pulse all = result at hran hall ⊢
  obtain ⟨ran, all'⟩ := result
  cases hran
  refine ⟨?_, hlast.symm, ?_, ⟨_, hall, ?_⟩, ?_, hnext⟩
  · exact Clockwork.stateAt_before ..
  · intro clock htime
    exact pulse.phaseAt_step hdelay htime
  · intro clock htime hclock
    exact pulse.heard_at hdelay htime hclock
  · show pulse.output (pulse.phaseAfter time stop) = pulse.heard (pulse.phaseAt time (stop - 1))
    rw [output_eq_heard, hlast]

/-- A pulse of duty 3 and volume 9 with three clocks to its next phase. -/
def whistle : Pulse :=
  { negation := .onesComplement, phase := 6
    voice := { registers := ⟨0xD9, 0, 9, 0⟩, length := 1, delay := 3 } }

theorem wave_of_runs_of_whistle :
    0 ≤ whistle.voice.delay ∧ ((0 : Int) :: ([2, 2, 30] ++ [70])).Pairwise (· ≤ ·) ∧
      (inRuns runOn 0 ([2, 2, 30] ++ [70]) whistle #[]).2.toList =
        [⟨0, 9⟩, ⟨23, -9⟩, ⟨63, 9⟩] ∧
      whistle.heard (whistle.phaseAt 0 40) = 0 ∧ whistle.heard (whistle.phaseAt 0 69) = 9 := by
  have hdelay : 0 ≤ whistle.voice.delay := by decide
  have hsorted : ((0 : Int) :: ([2, 2, 30] ++ [70])).Pairwise (· ≤ ·) := by decide
  have hsteps : (inRuns runOn 0 ([2, 2, 30] ++ [70]) whistle #[]).2.toList =
      [⟨0, 9⟩, ⟨23, -9⟩, ⟨63, 9⟩] := by decide +kernel
  obtain ⟨_, _, _, ⟨steps, hall, hheard⟩, _⟩ := whistle.wave_of_runs hdelay hsorted #[]
  obtain rfl : steps = [⟨0, 9⟩, ⟨23, -9⟩, ⟨63, 9⟩] := (hsteps.symm.trans hall).symm
  exact ⟨hdelay, hsorted, hsteps, (hheard 40 (by decide) (by decide)).symm,
    (hheard 69 (by decide) (by decide)).symm⟩

end Chiptune.Pulse
