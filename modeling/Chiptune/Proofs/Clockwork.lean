import Chiptune.Proofs.Timer

/-! Clock by clock.  A `Clockwork` counts the clocks to the next event of its timer one at a time.
After any number of clocks it is in the state, and has put out the steps, of a run that goes from
event to event (`clocks_eq`).  A run that may be cut in two may be cut anywhere, any number of times
(`Divisible.inRuns_eq`). -/

namespace Chiptune

/-- A state and the clocks to wait before its next event. -/
structure Clockwork (σ : Type) where
  wait : Nat
  state : σ

namespace Clockwork

variable {σ : Type} (tick : σ → σ) (level : σ → Int) (period : Nat)

/-- One clock.  With nothing left to wait for the event happens, and the timer is set anew. -/
def clock : Clockwork σ → Clockwork σ
  | ⟨0, s⟩ => ⟨period - 1, tick s⟩
  | ⟨wait + 1, s⟩ => ⟨wait, s⟩

/-- A number of clocks. -/
def clocks : Nat → Clockwork σ → Clockwork σ
  | 0, machine => machine
  | n + 1, machine => clocks n (machine.clock tick period)

/-- The steps of the level over a number of clocks, the first of which is `time`. -/
def steps : Nat → Int → Clockwork σ → List Step
  | 0, _, _ => []
  | n + 1, time, machine =>
    let next := machine.clock tick period
    Step.change time (level next.state - level machine.state) ++ steps n (time + 1) next

theorem clocks_succ (n : Nat) (machine : Clockwork σ) :
    machine.clocks tick period (n + 1) = (machine.clocks tick period n).clock tick period := by
  induction n generalizing machine with
  | zero => rfl
  | succ n ih =>
    rw [clocks, ih]
    rfl

variable {period} (hp : 0 < period)
include hp

/-- Clock by clock or from event to event, it is the same run. -/
theorem clocks_eq (n : Nat) (time : Int) (machine : Clockwork σ) :
    (machine.clocks tick period n).state =
        Timer.skip tick (Timer.count period (time + machine.wait) (time + n)) machine.state ∧
      ((machine.clocks tick period n).wait : Int) =
        Timer.left period (time + machine.wait) (time + n) ∧
      machine.steps tick level period n time =
        Timer.trace tick level period (Timer.count period (time + machine.wait) (time + n))
          (time + machine.wait) machine.state := by
  have hpos : 0 < (period : Int) := Int.natCast_pos.mpr hp
  induction n generalizing time machine with
  | zero =>
    have hzero : Timer.count period (time + machine.wait) (time + (0 : Nat)) = 0 :=
      Timer.count_eq_zero hpos (by omega)
    refine ⟨?_, ?_, ?_⟩
    · rw [hzero]
      rfl
    · have hleft := Timer.add_left period (time + machine.wait) (time + (0 : Nat))
      rw [hzero] at hleft
      show (machine.wait : Int) = _
      omega
    · rw [hzero]
      rfl
  | succ n ih =>
    obtain ⟨wait, s⟩ := machine
    have hstop : time + ((n + 1 : Nat) : Int) = time + 1 + n := by omega
    -- A clock with an event takes the first event of the run; one without leaves it due.
    cases wait with
    | zero =>
      obtain ⟨hstate, hwait, hsteps⟩ := ih (time + 1) ⟨period - 1, tick s⟩
      have hfirst : time + 1 + ((period - 1 : Nat) : Int) = time + period := by omega
      have hdue : time < time + 1 + n := by omega
      have hcount := Timer.count_succ hpos hdue
      have hleft := Timer.left_succ hpos hdue
      rw [hstop]
      dsimp only at hstate hwait hsteps ⊢
      rw [hfirst] at hstate hwait hsteps
      rw [show time + ((0 : Nat) : Int) = time by omega]
      refine ⟨?_, ?_, ?_⟩
      · rw [hcount, clocks, Timer.skip, ← hstate]
        rfl
      · rw [hleft, ← hwait]
        rfl
      · rw [hcount, Timer.trace, ← hsteps]
        rfl
    | succ wait =>
      obtain ⟨hstate, hwait, hsteps⟩ := ih (time + 1) ⟨wait, s⟩
      have hfirst : time + ((wait + 1 : Nat) : Int) = time + 1 + wait := by omega
      rw [hstop]
      dsimp only at hstate hwait hsteps ⊢
      rw [hfirst]
      refine ⟨hstate, hwait, ?_⟩
      rw [← hsteps, steps]
      dsimp only [clock]
      rw [Int.sub_self, Step.change_zero, List.nil_append]

/-- The event happens at the clocks that lie a number of periods after the first. -/
theorem wait_eq_zero_iff (n : Nat) (time : Int) (machine : Clockwork σ) :
    (machine.clocks tick period n).wait = 0 ↔
      ∃ k : Nat, time + n = time + machine.wait + k * period := by
  have hpos : 0 < (period : Int) := Int.natCast_pos.mpr hp
  have hwait := (machine.clocks_eq tick (fun _ => 0) hp n time).2.1
  have hnext := Timer.add_left period (time + machine.wait) (time + n)
  constructor
  · intro hzero
    exact ⟨Timer.count period (time + machine.wait) (time + n), by omega⟩
  · rintro ⟨k, hk⟩
    have hcount := (Timer.count_event hpos (time + machine.wait) k).1
    rw [← hk] at hcount
    rw [hcount] at hnext
    omega

theorem state_of_due (n : Nat) (time : Int) (machine : Clockwork σ) {k : Nat}
    (h : time + n = time + machine.wait + k * period) :
    (machine.clocks tick period (n + 1)).state = tick (machine.clocks tick period n).state := by
  have hwait := (machine.wait_eq_zero_iff tick hp n time).mpr ⟨k, h⟩
  rw [clocks_succ]
  generalize machine.clocks tick period n = last at hwait ⊢
  obtain ⟨_, s⟩ := last
  cases hwait
  rfl

theorem state_of_not_due (n : Nat) (time : Int) (machine : Clockwork σ)
    (h : ∀ k : Nat, time + n ≠ time + machine.wait + k * period) :
    (machine.clocks tick period (n + 1)).state = (machine.clocks tick period n).state := by
  have hwait := mt (machine.wait_eq_zero_iff tick hp n time).mp (not_exists.mpr h)
  rw [clocks_succ]
  generalize machine.clocks tick period n = last at hwait ⊢
  obtain ⟨wait, s⟩ := last
  cases wait with
  | zero => exact absurd rfl hwait
  | succ wait => rfl

section StateAt

omit hp

/-- The state at a clock, counted clock by clock since `time`. -/
def stateAt (period : Nat) (machine : Clockwork σ) (time clock : Int) : σ :=
  (machine.clocks tick period (clock + 1 - time).toNat).state

theorem stateAt_before (machine : Clockwork σ) (time : Int) :
    machine.stateAt tick period time (time - 1) = machine.state := by
  unfold stateAt
  rw [Int.sub_add_cancel, Int.sub_self]
  rfl

end StateAt

theorem stateAt_eq (machine : Clockwork σ) {time clock : Int} (h : time ≤ clock + 1) :
    machine.stateAt tick period time clock =
      Timer.skip tick (Timer.count period (time + machine.wait) (clock + 1)) machine.state := by
  have hclocks : time + ((clock + 1 - time).toNat : Int) = clock + 1 := by omega
  have hrun := (machine.clocks_eq tick (fun _ => 0) hp (clock + 1 - time).toNat time).1
  rwa [hclocks] at hrun

/-- The state moves at the clocks that lie a number of periods after the first event, and only
there. -/
theorem stateAt_step (machine : Clockwork σ) {time clock : Int} (h : time ≤ clock) :
    (∀ k : Nat, clock = time + machine.wait + k * period →
      machine.stateAt tick period time clock =
        tick (machine.stateAt tick period time (clock - 1))) ∧
    ((∀ k : Nat, clock ≠ time + machine.wait + k * period) →
      machine.stateAt tick period time clock = machine.stateAt tick period time (clock - 1)) := by
  have hbefore : time + ((clock - 1 + 1 - time).toNat : Int) = clock := by omega
  have hclocks : (clock + 1 - time).toNat = (clock - 1 + 1 - time).toNat + 1 := by omega
  unfold stateAt
  rw [hclocks]
  constructor
  · intro k hk
    refine state_of_due tick hp _ time machine (k := k) ?_
    rw [hbefore]
    exact hk
  · intro hnever
    refine state_of_not_due tick hp _ time machine ?_
    rw [hbefore]
    exact hnever

end Clockwork

/-! ### The level at a clock -/

namespace Timer

variable {σ : Type} {tick : σ → σ} {level : σ → Int} {period : Int} (hp : 0 < period)
include hp

/-- The steps of a run that is not empty come before its stop. -/
theorem lt_of_mem_sound {heard time delay stop : Int} {s : σ} (h : time < stop) {step : Step}
    (hstep : step ∈ sound tick level period heard time delay stop s) : step.time < stop := by
  rw [sound, List.mem_append] at hstep
  rcases hstep with hstep | hstep
  · rwa [Step.time_of_mem_change hstep]
  · obtain ⟨k, hk, htime⟩ := time_of_mem_trace hstep
    rw [htime]
    exact (lt_count_iff hp (time + delay) stop k).mp hk

/-- What was heard before a run and the steps up to a clock make the level of the state that the
event of that clock, if there is one, leads to. -/
theorem level_at {heard time delay clock stop : Int} (htime : time ≤ clock)
    (hstop : clock < stop) (s : σ) :
    heard + Step.total ((sound tick level period heard time delay stop s).filter
        fun step => step.time ≤ clock) =
      level (skip tick (count period (time + delay) (clock + 1)) s) := by
  have hnext := left_nonneg hp (time + delay) (clock + 1)
  rw [sound_split hp heard time delay s (Int.add_one_le_of_lt hstop), List.filter_append]
  rw [List.filter_eq_self.mpr, List.filter_eq_nil_iff.mpr, List.append_nil, total_sound]
  · omega
  · intro step hstep
    have hlate := (time_of_mem_sound hp hnext (Int.add_one_le_of_lt hstop) hstep).1
    simp only [decide_eq_true_eq]
    omega
  · intro step hstep
    have hearly := lt_of_mem_sound hp (Int.lt_add_one_of_le htime) hstep
    simp only [decide_eq_true_eq]
    omega

end Timer

/-! ### Runs one after the other -/

section Runs

variable {σ : Type} (run : Int → Int → σ → Array Step → σ × Array Step)

/-- Runs to one stop after the other. -/
def inRuns : Int → List Int → σ → Array Step → σ × Array Step
  | _, [], s, all => (s, all)
  | time, stop :: stops, s, all =>
    let (s, all) := run time stop s all
    inRuns stop stops s all

/-- A run to the state `after` with the steps `sound` that may be cut in two. -/
structure Divisible (after : Int → Int → σ → σ) (sound : Int → Int → σ → List Step) : Prop where
  state : ∀ time stop s all, (run time stop s all).1 = after time stop s
  steps : ∀ time stop s all, (run time stop s all).2.toList = all.toList ++ sound time stop s
  state_split : ∀ time mid stop s, mid ≤ stop →
    after mid stop (after time mid s) = after time stop s
  steps_split : ∀ time mid stop s, mid ≤ stop →
    sound time stop s = sound time mid s ++ sound mid stop (after time mid s)

theorem le_of_sorted {time stop : Int} {mids : List Int}
    (h : (time :: (mids ++ [stop])).Pairwise (· ≤ ·)) : time ≤ stop :=
  (List.pairwise_cons.mp h).1 stop (List.mem_append_right mids (List.mem_singleton_self stop))

variable {run} {after : Int → Int → σ → σ} {sound : Int → Int → σ → List Step}

theorem Divisible.inRuns_eq (h : Divisible run after sound) {time stop : Int} {mids : List Int}
    (hsorted : (time :: (mids ++ [stop])).Pairwise (· ≤ ·)) (s : σ) (all : Array Step) :
    (inRuns run time (mids ++ [stop]) s all).1 = after time stop s ∧
      (inRuns run time (mids ++ [stop]) s all).2.toList = all.toList ++ sound time stop s := by
  induction mids generalizing time s all with
  | nil => exact ⟨h.state time stop s all, h.steps time stop s all⟩
  | cons mid mids ih =>
    obtain ⟨_, hrest⟩ := List.pairwise_cons.mp hsorted
    have hmid := le_of_sorted hrest
    obtain ⟨hstate, hsteps⟩ := ih hrest (run time mid s all).1 (run time mid s all).2
    constructor
    · refine hstate.trans ?_
      rw [h.state, h.state_split _ _ _ _ hmid]
    · refine hsteps.trans ?_
      rw [h.steps, h.state, h.steps_split time mid stop s hmid, List.append_assoc]

end Runs

end Chiptune
