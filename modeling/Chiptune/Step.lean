/-! Steps of an output level, and the events of a timer that produce them. -/

namespace Chiptune

/-- A change of an output level by `delta` at clock `time` of the current frame. -/
structure Step where
  time : Int
  delta : Int
  deriving DecidableEq, Repr

namespace Step

/-- Adds the step by `delta` at `time` to `steps`.  A level that stays as it is makes no step. -/
def record (steps : Array Step) (time delta : Int) : Array Step :=
  if delta = 0 then steps else steps.push ⟨time, delta⟩

/-- The sum of the deltas of `steps`. -/
def total : List Step → Int
  | [] => 0
  | step :: steps => step.delta + total steps

theorem total_append (steps steps' : List Step) :
    total (steps ++ steps') = total steps + total steps' := by
  induction steps with
  | nil => simp [total]
  | cons step steps ih =>
    rw [List.cons_append, total, total, ih]
    omega

/-- A level that stays as it is adds nothing to the total, so every change is counted. -/
theorem total_record (steps : Array Step) (time delta : Int) :
    total (record steps time delta).toList = total steps.toList + delta := by
  unfold record
  split <;> simp_all [total_append, total]

end Step

namespace Timer

/-- The number of events at `first`, `first + period`, `first + 2 * period`, … that come before
`stop`. -/
def count (period first stop : Int) : Nat :=
  ((stop - first + period - 1) / period).toNat

/-- The events that are counted are those that come before `stop`. -/
theorem lt_count_iff {period : Int} (h : 0 < period) (first stop : Int) (n : Nat) :
    n < count period first stop ↔ first + n * period < stop := by
  have hlt : n < count period first stop ↔ (n : Int) + 1 ≤ (stop - first + period - 1) / period := by
    unfold count
    omega
  rw [hlt, Int.le_ediv_iff_mul_le h, Int.add_mul]
  omega

/-- Lets `n` events happen, `period` clocks apart and the first one at `time`.  Each event applies
`tick`, and a change of `level` is recorded at the time of the event. -/
@[specialize]
def play {σ : Type} (tick : σ → σ) (level : σ → Int) (period : Int) :
    Nat → Int → σ → Array Step → σ × Array Step
  | 0, _, s, steps => (s, steps)
  | n + 1, time, s, steps =>
    let next := tick s
    play tick level period n (time + period) next (Step.record steps time (level next - level s))

/-- Applies `tick` `n` times. -/
@[specialize]
def skip {σ : Type} (tick : σ → σ) : Nat → σ → σ
  | 0, s => s
  | n + 1, s => skip tick n (tick s)

theorem skip_add {σ : Type} (tick : σ → σ) (m n : Nat) (s : σ) :
    skip tick (m + n) s = skip tick n (skip tick m s) := by
  induction m generalizing s with
  | zero => rw [Nat.zero_add, skip]
  | succ m ih => rw [Nat.succ_add, skip, ih, skip]

/-- Events that are heard and events that are not have the same effect on the state. -/
theorem play_fst {σ : Type} (tick : σ → σ) (level : σ → Int) (period : Int) (n : Nat) (time : Int)
    (s : σ) (steps : Array Step) : (play tick level period n time s steps).1 = skip tick n s := by
  induction n generalizing time s steps with
  | zero => rfl
  | succ n ih => rw [play, skip, ih]

/-- The steps of a run add up to the change of the level. -/
theorem total_play {σ : Type} (tick : σ → σ) (level : σ → Int) (period : Int) (n : Nat) (time : Int)
    (s : σ) (steps : Array Step) :
    Step.total (play tick level period n time s steps).2.toList =
      Step.total steps.toList + (level (skip tick n s) - level s) := by
  induction n generalizing time s steps with
  | zero => simp [play, skip]
  | succ n ih =>
    rw [play, skip, ih, Step.total_record]
    omega

end Timer

end Chiptune
