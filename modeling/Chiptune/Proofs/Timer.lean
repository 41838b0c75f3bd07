import Chiptune.Step

/-! A run of a timer cut in two.  A run first puts out the level of its state, then plays the events
before its stop, and leaves a delay to the next one.  `sound_split` says that two runs that follow
each other put out the steps of one run over both spans; `sound_rebase` says that the start of the
frame does not matter. -/

namespace Chiptune

namespace Step

/-- The step by `delta` at `time`, unless the level stays as it is. -/
def change (time delta : Int) : List Step := if delta = 0 then [] else [⟨time, delta⟩]

/-- A step as it is seen from a frame that starts at `origin`. -/
def rebase (origin : Int) (step : Step) : Step := { step with time := step.time - origin }

@[simp] theorem change_zero (time : Int) : change time 0 = [] := rfl

theorem toList_record (steps : Array Step) (time delta : Int) :
    (record steps time delta).toList = steps.toList ++ change time delta := by
  unfold record change
  split <;> simp

theorem map_rebase_change (origin time delta : Int) :
    (change time delta).map (rebase origin) = change (time - origin) delta := by
  unfold change
  split <;> rfl

theorem total_change (time delta : Int) : total (change time delta) = delta := by
  unfold change
  split
  · rename_i hzero
    exact hzero.symm
  · exact Int.add_zero delta

theorem eq_of_mem_change {time delta : Int} {step : Step} (h : step ∈ change time delta) :
    delta ≠ 0 ∧ step = ⟨time, delta⟩ := by
  unfold change at h
  split at h
  · cases h
  · rename_i hdelta
    exact ⟨hdelta, List.mem_singleton.mp h⟩

theorem time_of_mem_change {time delta : Int} {step : Step} (h : step ∈ change time delta) :
    step.time = time := by
  obtain ⟨_, rfl⟩ := eq_of_mem_change h
  rfl

end Step

namespace Timer

/-! ### Counting events -/

section Count

variable {period : Int} (hp : 0 < period) (first stop : Int)

/-- The clocks from `stop` to the first event that does not come before it. -/
def left (period first stop : Int) : Int := first + count period first stop * period - stop

theorem add_left (period first stop : Int) :
    stop + left period first stop = first + count period first stop * period := by
  unfold left
  omega

include hp

theorem left_nonneg : 0 ≤ left period first stop := by
  have h := mt (lt_count_iff hp first stop (count period first stop)).mpr (Nat.lt_irrefl _)
  unfold left
  omega

theorem count_eq_of_bounds {n : Nat} (hstop : stop ≤ first + n * period)
    (hlast : ∀ k, n = k + 1 → first + k * period < stop) : count period first stop = n := by
  refine Nat.le_antisymm ?_ ?_
  · rw [← Nat.not_lt, lt_count_iff hp]
    omega
  · cases n with
    | zero => exact Nat.zero_le _
    | succ k => exact (lt_count_iff hp first stop k).mpr (hlast k rfl)

theorem count_eq : count period first stop = ((stop - first - 1) / period + 1).toNat := by
  have hstop : stop - first + period - 1 = stop - first - 1 + 1 * period := by omega
  rw [count, hstop, Int.add_mul_ediv_right _ _ (Int.ne_of_gt hp)]

theorem count_eq_zero {first stop : Int} (h : stop ≤ first) : count period first stop = 0 :=
  count_eq_of_bounds hp first stop (by simpa using h) (by simp)

theorem count_succ {first stop : Int} (h : first < stop) :
    count period first stop = count period (first + period) stop + 1 := by
  have hend : 0 ≤ first + period + count period (first + period) stop * period - stop :=
    left_nonneg hp _ _
  refine count_eq_of_bounds hp first stop ?_ ?_
  · rw [Int.natCast_add, Int.natCast_one, Int.add_mul, Int.one_mul]
    omega
  · intro k hk
    cases k with
    | zero => simpa using h
    | succ k =>
      have hlast := (lt_count_iff hp (first + period) stop k).mp (by omega)
      rw [Int.natCast_add, Int.natCast_one, Int.add_mul, Int.one_mul]
      omega

theorem left_succ {first stop : Int} (h : first < stop) :
    left period first stop = left period (first + period) stop := by
  unfold left
  rw [count_succ hp h, Int.natCast_add, Int.natCast_one, Int.add_mul, Int.one_mul]
  omega

/-- Event number `n` is the last one that comes before the clock after it. -/
theorem count_event (n : Nat) :
    count period first (first + n * period) = n ∧
      count period first (first + n * period + 1) = n + 1 := by
  refine ⟨count_eq_of_bounds hp _ _ (Int.le_refl _) fun k hk => ?_,
    count_eq_of_bounds hp _ _ ?_ fun k hk => ?_⟩
  · rw [hk, Int.natCast_add, Int.natCast_one, Int.add_mul, Int.one_mul]
    omega
  · rw [Int.natCast_add, Int.natCast_one, Int.add_mul, Int.one_mul]
    omega
  · obtain rfl : n = k := by omega
    omega

theorem count_mono {stop stop' : Int} (h : stop ≤ stop') :
    count period first stop ≤ count period first stop' := by
  rw [← Nat.not_lt]
  intro hlt
  have hlt' := (lt_count_iff hp first stop _).mp hlt
  have hle := mt (lt_count_iff hp first stop' (count period first stop')).mpr (Nat.lt_irrefl _)
  omega

/-- The events before `stop` are those before `mid` and those from `mid` on. -/
theorem count_split {mid stop : Int} (h : mid ≤ stop) :
    count period first stop =
      count period first mid + count period (mid + left period first mid) stop := by
  have hnext := add_left period first mid
  refine count_eq_of_bounds hp first stop ?_ fun k hk => ?_
  · have hend : 0 ≤ mid + left period first mid +
        count period (mid + left period first mid) stop * period - stop := left_nonneg hp _ _
    rw [Int.natCast_add, Int.add_mul]
    omega
  · generalize hm : count period first mid = m at *
    generalize hn : count period (mid + left period first mid) stop = n at *
    cases n with
    | zero =>
      have hlast := (lt_count_iff hp first mid k).mp (by omega)
      omega
    | succ j =>
      have hlast := (lt_count_iff hp (mid + left period first mid) stop j).mp (by omega)
      obtain rfl : k = m + j := by omega
      rw [hnext] at hlast
      rw [Int.natCast_add, Int.add_mul]
      omega

theorem left_split {mid stop : Int} (h : mid ≤ stop) :
    left period (mid + left period first mid) stop = left period first stop := by
  have hcount := count_split hp first h
  unfold left at hcount ⊢
  rw [hcount, Int.natCast_add, Int.add_mul]
  omega

/-- What is left leads to the first event that does not come before the stop. -/
theorem left_least :
    0 ≤ left period first stop ∧ (∃ k : Nat, stop + left period first stop = first + k * period) ∧
      ∀ k : Nat, stop ≤ first + k * period →
        stop + left period first stop ≤ first + k * period := by
  refine ⟨left_nonneg hp first stop, ⟨_, add_left period first stop⟩, ?_⟩
  intro k hk
  have hcount : count period first stop ≤ k := by
    have hlt := mt (lt_count_iff hp first stop k).mp (Int.not_lt.mpr hk)
    omega
  have hmul := Int.mul_le_mul_of_nonneg_right (Int.ofNat_le.mpr hcount) (Int.le_of_lt hp)
  rw [add_left]
  omega

end Count

theorem count_rebase (period origin first stop : Int) :
    count period (first - origin) (stop - origin) = count period first stop := by
  unfold count
  congr 2
  omega

theorem left_rebase (period origin first stop : Int) :
    left period (first - origin) (stop - origin) = left period first stop := by
  unfold left
  rw [count_rebase]
  omega

/-! ### The steps of a run -/

section Sound

variable {σ : Type} (tick : σ → σ) (level : σ → Int) (period : Int)

/-- The steps that `play` records. -/
def trace : Nat → Int → σ → List Step
  | 0, _, _ => []
  | n + 1, time, s =>
    Step.change time (level (tick s) - level s) ++ trace n (time + period) (tick s)

theorem toList_play (n : Nat) (time : Int) (s : σ) (steps : Array Step) :
    (play tick level period n time s steps).2.toList =
      steps.toList ++ trace tick level period n time s := by
  induction n generalizing time s steps with
  | zero => simp [play, trace]
  | succ n ih => rw [play, ih, trace, Step.toList_record, List.append_assoc]

theorem trace_add (m n : Nat) (time : Int) (s : σ) :
    trace tick level period (m + n) time s =
      trace tick level period m time s ++
        trace tick level period n (time + m * period) (skip tick m s) := by
  induction m generalizing time s with
  | zero => simp [trace, skip]
  | succ m ih =>
    have htime : time + period + m * period = time + (m + 1 : Nat) * period := by
      rw [Int.natCast_add, Int.natCast_one, Int.add_mul, Int.one_mul]
      omega
    rw [Nat.succ_add, trace, ih, trace, skip, List.append_assoc, htime]

theorem map_rebase_trace (origin : Int) (n : Nat) (time : Int) (s : σ) :
    (trace tick level period n time s).map (Step.rebase origin) =
      trace tick level period n (time - origin) s := by
  induction n generalizing time s with
  | zero => rfl
  | succ n ih =>
    have htime : time + period - origin = time - origin + period := by omega
    rw [trace, List.map_append, Step.map_rebase_change, ih, htime, trace]

variable {tick level period}

/-- A level that no event changes makes no step. -/
theorem trace_eq_nil {P : σ → Prop} (h : ∀ s, P s → P (tick s) ∧ level (tick s) = level s) (n : Nat)
    (time : Int) {s : σ} (hs : P s) : trace tick level period n time s = [] := by
  induction n generalizing time s with
  | zero => rfl
  | succ n ih =>
    rw [trace, ih _ (h s hs).1, (h s hs).2, Int.sub_self, Step.change_zero, List.append_nil]

/-- What every event before `stop` preserves holds after all of them.  `P` may speak of the time at
which the next event is due. -/
theorem skip_invariant (hp : 0 < period) {P : Int → σ → Prop} {stop : Int}
    (h : ∀ due s, due < stop → P due s → P (due + period) (tick s)) {due : Int} {s : σ}
    (hs : P due s) :
    P (stop + left period due stop) (skip tick (count period due stop) s) := by
  rw [add_left]
  generalize hn : count period due stop = n
  induction n generalizing due s with
  | zero => simpa [skip] using hs
  | succ n ih =>
    have hdue : due < stop := by
      have := (lt_count_iff hp due stop 0).mp (by omega)
      omega
    have hcount := count_succ hp hdue
    have hnext := ih (h due s hdue hs) (by omega)
    rw [skip, Int.natCast_add, Int.natCast_one, Int.add_mul, Int.one_mul, Int.add_comm _ period,
      ← Int.add_assoc]
    exact hnext

/-- A map of states that commutes with events commutes with a run of them. -/
theorem skip_comm {f : σ → σ} (h : ∀ s, tick (f s) = f (tick s)) (n : Nat) (s : σ) :
    skip tick n (f s) = f (skip tick n s) := by
  induction n generalizing s with
  | zero => rfl
  | succ n ih => rw [skip, h, ih, skip]

/-- A map of states that commutes with events and keeps the level does not change the steps. -/
theorem trace_comm {f : σ → σ} (h : ∀ s, tick (f s) = f (tick s))
    (hlevel : ∀ s, level (f s) = level s) (n : Nat) (time : Int) (s : σ) :
    trace tick level period n time (f s) = trace tick level period n time s := by
  induction n generalizing time s with
  | zero => rfl
  | succ n ih => rw [trace, h, hlevel, hlevel, ih, trace]

section Related

variable {τ : Type} {tick' : τ → τ} {level' : τ → Int} {R : σ → τ → Prop}
  (h : ∀ s t, R s t → R (tick s) (tick' t))
include h

/-- States that every event keeps related are related after a run. -/
theorem skip_related (n : Nat) {s : σ} {t : τ} (hs : R s t) :
    R (skip tick n s) (skip tick' n t) := by
  induction n generalizing s t with
  | zero => exact hs
  | succ n ih => exact ih (h s t hs)

theorem trace_related (hlevel : ∀ s t, R s t → level' t = level s) (n : Nat) (time : Int) {s : σ}
    {t : τ} (hs : R s t) :
    trace tick' level' period n time t = trace tick level period n time s := by
  induction n generalizing time s t with
  | zero => rfl
  | succ n ih =>
    have hnext := h s t hs
    rw [trace, trace, hlevel s t hs, hlevel _ _ hnext, ih _ hnext]

end Related

theorem total_trace (n : Nat) (time : Int) (s : σ) :
    Step.total (trace tick level period n time s) = level (skip tick n s) - level s := by
  have hplay := total_play tick level period n time s #[]
  rw [toList_play, List.nil_append] at hplay
  rw [hplay]
  exact Int.zero_add _

/-- Every step of a run is the change of the level by one of its events, at the time of that
event. -/
theorem mem_trace {n : Nat} {time : Int} {s : σ} {step : Step}
    (h : step ∈ trace tick level period n time s) :
    ∃ k < n, step.time = time + k * period ∧ step.delta ≠ 0 ∧
      step.delta = level (tick (skip tick k s)) - level (skip tick k s) := by
  induction n generalizing time s with
  | zero => cases h
  | succ n ih =>
    rw [trace, List.mem_append] at h
    rcases h with h | h
    · obtain ⟨hzero, rfl⟩ := Step.eq_of_mem_change h
      exact ⟨0, Nat.succ_pos n, by simp, hzero, rfl⟩
    · obtain ⟨k, hk, htime, hdelta⟩ := ih h
      refine ⟨k + 1, Nat.succ_lt_succ hk, ?_, hdelta⟩
      rw [htime, Int.natCast_add, Int.natCast_one, Int.add_mul, Int.one_mul]
      omega

theorem time_of_mem_trace {n : Nat} {time : Int} {s : σ} {step : Step}
    (h : step ∈ trace tick level period n time s) :
    ∃ k < n, step.time = time + k * period := by
  obtain ⟨k, hk, htime, _⟩ := mem_trace h
  exact ⟨k, hk, htime⟩

/-- The steps of a run come one after the other. -/
theorem trace_pairwise (hp : 0 < period) (n : Nat) (time : Int) (s : σ) :
    (trace tick level period n time s).Pairwise (·.time < ·.time) := by
  induction n generalizing time s with
  | zero => exact .nil
  | succ n ih =>
    rw [trace, List.pairwise_append]
    refine ⟨?_, ih .., ?_⟩
    · unfold Step.change
      split
      · exact .nil
      · exact List.pairwise_singleton ..
    · intro step hstep later hlater
      obtain ⟨k, _, htime⟩ := time_of_mem_trace hlater
      have hnonneg : 0 ≤ (k : Int) * period :=
        Int.mul_nonneg (Int.natCast_nonneg k) (Int.le_of_lt hp)
      rw [Step.time_of_mem_change hstep]
      omega

variable (tick level period) in
/-- The steps of a run from `time` to `stop`.  It starts in state `s` with the level `heard` put out
and with `delay` clocks to the first event. -/
def sound (heard time delay stop : Int) (s : σ) : List Step :=
  Step.change time (level s - heard) ++
    trace tick level period (count period (time + delay) stop) (time + delay) s

theorem total_sound (heard time delay stop : Int) (s : σ) :
    Step.total (sound tick level period heard time delay stop s) =
      level (skip tick (count period (time + delay) stop) s) - heard := by
  rw [sound, Step.total_append, Step.total_change, total_trace]
  omega

/-- A run cut at `mid`: the second part starts with the level of its state already put out. -/
theorem sound_split (hp : 0 < period) (heard time delay : Int) {mid stop : Int} (s : σ)
    (h : mid ≤ stop) :
    sound tick level period heard time delay stop s =
      sound tick level period heard time delay mid s ++
        sound tick level period (level (skip tick (count period (time + delay) mid) s)) mid
          (left period (time + delay) mid) stop
          (skip tick (count period (time + delay) mid) s) := by
  unfold sound
  rw [Int.sub_self, Step.change_zero, List.nil_append, count_split hp _ h, trace_add, add_left,
    List.append_assoc]

theorem sound_rebase (origin heard time delay stop : Int) (s : σ) :
    sound tick level period heard (time - origin) delay (stop - origin) s =
      (sound tick level period heard time delay stop s).map (Step.rebase origin) := by
  have hfirst : time - origin + delay = time + delay - origin := by omega
  unfold sound
  rw [List.map_append, Step.map_rebase_change, map_rebase_trace, hfirst, count_rebase]

theorem sound_comm {f : σ → σ} (h : ∀ s, tick (f s) = f (tick s))
    (hlevel : ∀ s, level (f s) = level s) (heard time delay stop : Int) (s : σ) :
    sound tick level period heard time delay stop (f s) =
      sound tick level period heard time delay stop s := by
  unfold sound
  rw [hlevel, trace_comm h hlevel]

theorem sound_related {τ : Type} {tick' : τ → τ} {level' : τ → Int} {R : σ → τ → Prop}
    (h : ∀ s t, R s t → R (tick s) (tick' t)) (hlevel : ∀ s t, R s t → level' t = level s)
    (heard time delay stop : Int) {s : σ} {t : τ} (hs : R s t) :
    sound tick' level' period heard time delay stop t =
      sound tick level period heard time delay stop s := by
  unfold sound
  rw [hlevel s t hs, trace_related h hlevel _ _ hs]

/-- The steps of a run lie within its span. -/
theorem time_of_mem_sound (hp : 0 < period) {heard time delay stop : Int} {s : σ}
    (hdelay : 0 ≤ delay) (hstop : time ≤ stop) {step : Step}
    (h : step ∈ sound tick level period heard time delay stop s) :
    time ≤ step.time ∧ step.time ≤ stop := by
  rw [sound, List.mem_append] at h
  rcases h with h | h
  · have := Step.time_of_mem_change h
    omega
  · obtain ⟨k, hk, htime⟩ := time_of_mem_trace h
    have hlt := (lt_count_iff hp (time + delay) stop k).mp hk
    have hnonneg : 0 ≤ (k : Int) * period := Int.mul_nonneg (Int.natCast_nonneg k) (Int.le_of_lt hp)
    omega

end Sound

end Timer

end Chiptune
