import Chiptune.Proofs.Timer
import Chiptune.Sequencer

/-! The beats of the frame sequencer.  A run cut in two gives the beats of one run over both spans
(`run_split`), wherever the frame starts (`run_rebase`).  `Predicts` ties the predicted interrupt
to the state, and `Predicts.irqFlag_after` says that a run raises the flag exactly when it goes past
the prediction. -/

namespace Chiptune.Sequencer

/-- The steps that happen in a run, each with its time. -/
def beats (sequencer : Sequencer) (now stop : Int) : List (Int × Beat) :=
  (sequencer.run now stop).1.toList

/-- The sequencer after a run. -/
def after (sequencer : Sequencer) (now stop : Int) : Sequencer := (sequencer.run now stop).2

/-! ### Equations of a run -/

section Equations

variable {sequencer : Sequencer} {now stop : Int}

theorem run_of_due (h : now + sequencer.delay < stop) (fired : Array (Int × Beat)) :
    sequencer.run now stop fired =
      (sequencer.fire (now + sequencer.delay)).run (now + sequencer.delay) stop
        (fired.push (now + sequencer.delay, beatOf sequencer.next)) := by
  rw [run]
  simp [h]

theorem run_of_not_due (h : ¬now + sequencer.delay < stop) (fired : Array (Int × Beat)) :
    sequencer.run now stop fired = (fired, sequencer.advance (stop - now)) := by
  rw [run]
  simp [h]

/-- Induction along the steps that happen before `stop`. -/
theorem due_induction (stop : Int) {motive : Sequencer → Int → Prop}
    (due : ∀ sequencer now, now + sequencer.delay < stop →
      motive (sequencer.fire (now + sequencer.delay)) (now + sequencer.delay) →
      motive sequencer now)
    (last : ∀ sequencer now, ¬now + sequencer.delay < stop → motive sequencer now)
    (sequencer : Sequencer) (now : Int) : motive sequencer now := by
  by_cases h : now + sequencer.delay < stop
  · exact due sequencer now h (due_induction stop due last _ _)
  · exact last sequencer now h
  termination_by (stop - (now + sequencer.delay)).toNat
  decreasing_by
    have := gapAfter_pos sequencer.region sequencer.mode sequencer.next
    simp only [fire_delay]
    omega

theorem run_fired (fired : Array (Int × Beat)) :
    sequencer.run now stop fired =
      (fired ++ (sequencer.run now stop).1, (sequencer.run now stop).2) := by
  induction sequencer, now using due_induction stop generalizing fired with
  | due sequencer now h ih =>
    rw [run_of_due h, run_of_due h, ih, ih (#[].push _), ← Array.append_assoc]
    simp
  | last sequencer now h =>
    rw [run_of_not_due h, run_of_not_due h]
    simp

theorem beats_of_due (h : now + sequencer.delay < stop) :
    sequencer.beats now stop =
      (now + sequencer.delay, beatOf sequencer.next) ::
        (sequencer.fire (now + sequencer.delay)).beats (now + sequencer.delay) stop := by
  rw [beats, run_of_due h, run_fired, beats]
  simp

theorem beats_of_not_due (h : ¬now + sequencer.delay < stop) : sequencer.beats now stop = [] := by
  rw [beats, run_of_not_due h]

theorem after_of_due (h : now + sequencer.delay < stop) :
    sequencer.after now stop =
      (sequencer.fire (now + sequencer.delay)).after (now + sequencer.delay) stop := by
  rw [after, run_of_due h, run_fired, after]

theorem after_of_not_due (h : ¬now + sequencer.delay < stop) :
    sequencer.after now stop = sequencer.advance (stop - now) := by
  rw [after, run_of_not_due h]

end Equations

/-! ### Runs cut in two -/

theorem advance_advance (sequencer : Sequencer) (clocks clocks' : Int) :
    (sequencer.advance clocks).advance clocks' = sequencer.advance (clocks + clocks') := by
  unfold advance
  rw [Int.sub_sub]

/-- Clocks that went by without a step do not matter. -/
theorem run_advance (sequencer : Sequencer) (now mid stop : Int) :
    (sequencer.advance (mid - now)).beats mid stop = sequencer.beats now stop ∧
      (sequencer.advance (mid - now)).after mid stop = sequencer.after now stop := by
  have hdue : mid + (sequencer.advance (mid - now)).delay = now + sequencer.delay := by
    show mid + (sequencer.delay - (mid - now)) = _
    omega
  by_cases h : now + sequencer.delay < stop
  · rw [beats_of_due h, after_of_due h, beats_of_due (by rwa [hdue]), after_of_due (by rwa [hdue]),
      hdue]
    exact ⟨rfl, rfl⟩
  · rw [beats_of_not_due h, after_of_not_due h, beats_of_not_due (by rwa [hdue]),
      after_of_not_due (by rwa [hdue]), advance_advance]
    exact ⟨rfl, congrArg _ (by omega)⟩

theorem run_split (sequencer : Sequencer) (now : Int) {mid stop : Int} (h : mid ≤ stop) :
    sequencer.beats now stop =
        sequencer.beats now mid ++ (sequencer.after now mid).beats mid stop ∧
      (sequencer.after now mid).after mid stop = sequencer.after now stop := by
  induction sequencer, now using due_induction mid with
  | due sequencer now hdue ih =>
    have hdue' : now + sequencer.delay < stop := Int.lt_of_lt_of_le hdue h
    rw [beats_of_due hdue, beats_of_due hdue', after_of_due hdue, after_of_due hdue', ih.1,
      List.cons_append]
    exact ⟨rfl, ih.2⟩
  | last sequencer now hdue =>
    rw [beats_of_not_due hdue, after_of_not_due hdue, List.nil_append]
    exact ⟨(run_advance sequencer now mid stop).1.symm, (run_advance sequencer now mid stop).2⟩

/-! ### Frames -/

/-- The sequencer as it is seen from a frame that starts at `origin`. -/
def rebase (sequencer : Sequencer) (origin : Int) : Sequencer :=
  { sequencer with nextIrq := sequencer.nextIrq.map (· - origin) }

theorem fire_rebase (sequencer : Sequencer) (origin time : Int) :
    (sequencer.rebase origin).fire (time - origin) = (sequencer.fire time).rebase origin := by
  have htime (clocks : Int) : time - origin + clocks - 2 + 1 = time + clocks - 2 + 1 - origin := by
    omega
  unfold fire rebase
  simp only [period, htime]
  split <;> rfl

theorem run_rebase (sequencer : Sequencer) (origin now stop : Int) :
    (sequencer.rebase origin).beats (now - origin) (stop - origin) =
        (sequencer.beats now stop).map (fun beat => (beat.1 - origin, beat.2)) ∧
      (sequencer.rebase origin).after (now - origin) (stop - origin) =
        (sequencer.after now stop).rebase origin := by
  induction sequencer, now using due_induction stop with
  | due sequencer now h ih =>
    have htime :
        now - origin + (sequencer.rebase origin).delay = now + sequencer.delay - origin := by
      show now - origin + sequencer.delay = _
      omega
    have h' : now - origin + (sequencer.rebase origin).delay < stop - origin := by omega
    rw [beats_of_due h, after_of_due h, beats_of_due h', after_of_due h', htime, fire_rebase, ih.1,
      ih.2]
    exact ⟨rfl, rfl⟩
  | last sequencer now h =>
    have h' : ¬now - origin + (sequencer.rebase origin).delay < stop - origin := by
      show ¬now - origin + sequencer.delay < _
      omega
    rw [beats_of_not_due h, after_of_not_due h, beats_of_not_due h', after_of_not_due h',
      show stop - origin - (now - origin) = stop - now by omega]
    exact ⟨rfl, rfl⟩

theorem writeMode_rebase (sequencer : Sequencer) (origin time : Int) (mode : UInt8) :
    (sequencer.rebase origin).writeMode (time - origin) mode =
      (sequencer.writeMode time mode).rebase origin := by
  unfold writeMode rebase
  simp only [period]
  split
  · rfl
  · split
    · rfl
    · simp only [Option.map_some]
      congr 2
      omega

/-! ### Times -/

theorem delay_after_nonneg (sequencer : Sequencer) (now stop : Int) :
    0 ≤ (sequencer.after now stop).delay := by
  induction sequencer, now using due_induction stop with
  | due sequencer now h ih => rwa [after_of_due h]
  | last sequencer now h =>
    rw [after_of_not_due h]
    show 0 ≤ sequencer.delay - (stop - now)
    omega

theorem delay_writeMode_nonneg (sequencer : Sequencer) (time : Int) (mode : UInt8) :
    0 ≤ (sequencer.writeMode time mode).delay := by
  have hodd : 0 ≤ sequencer.delay % 2 := Int.emod_nonneg _ (by decide)
  unfold writeMode
  split
  · exact hodd
  · exact Int.add_nonneg hodd (Int.natCast_nonneg _)

/-- The times of `beats` do not fall, from `now` on and up to `stop`. -/
def Ordered (stop : Int) : (now : Int) → List (Int × Beat) → Prop
  | now, [] => now ≤ stop
  | now, (due, _) :: beats => now ≤ due ∧ Ordered stop due beats

theorem Ordered.le {stop now : Int} {beats : List (Int × Beat)} (h : Ordered stop now beats) :
    now ≤ stop := by
  induction beats generalizing now with
  | nil => exact h
  | cons beat beats ih => exact Int.le_trans h.1 (ih h.2)

theorem beats_ordered (sequencer : Sequencer) {now stop : Int} (hdelay : 0 ≤ sequencer.delay)
    (h : now ≤ stop) : Ordered stop now (sequencer.beats now stop) := by
  induction sequencer, now using due_induction stop with
  | due sequencer now hdue ih =>
    have := gapAfter_pos sequencer.region sequencer.mode sequencer.next
    rw [beats_of_due hdue]
    exact ⟨by omega, ih (by rw [fire_delay]; omega) (by omega)⟩
  | last sequencer now hdue =>
    rw [beats_of_not_due hdue]
    exact h

/-! ### The frame interrupt -/

/-- Whether step 0 raises the interrupt in a mode. -/
def raises (mode : UInt8) : Bool := !isFiveStep mode && !inhibitsIrq mode

/-- The clocks from a step to the step 0 at which it or a later step arrives. -/
def untilFirst (region : Region) (mode : UInt8) (step : BitVec 2) : Nat :=
  (if step = 1 then gapAfter region mode 1 else 0) +
    (if step = 1 ∨ step = 2 then gapAfter region mode 2 else 0) +
    if step = 0 then 0 else gapAfter region mode 3

/-- The predicted interrupt comes one clock after the next step 0, if the mode lets that step raise
it.  The next step is due at `due`. -/
def Predicts (sequencer : Sequencer) (due : Int) : Prop :=
  sequencer.nextIrq =
    if raises sequencer.mode then
      some (due + untilFirst sequencer.region sequencer.mode sequencer.next + 1)
    else none

theorem gapAfter_of_four_steps {mode : UInt8} (h : isFiveStep mode = false) (region : Region)
    (step : BitVec 2) : gapAfter region mode step = gapAfter region 0 step := by
  have h0 : isFiveStep 0 = false := by decide
  unfold gapAfter
  rw [h, h0]

theorem untilFirst_of_four_steps {mode : UInt8} (h : isFiveStep mode = false) (region : Region)
    (step : BitVec 2) : untilFirst region mode step = untilFirst region 0 step := by
  unfold untilFirst
  rw [gapAfter_of_four_steps h, gapAfter_of_four_steps h, gapAfter_of_four_steps h]

theorem gapAfter_add_untilFirst {mode : UInt8} (h : isFiveStep mode = false) (region : Region)
    (step : BitVec 2) :
    gapAfter region mode step + untilFirst region mode (step + 1) =
      if step = 0 then region.stepPeriod * 4 - 2 else untilFirst region mode step := by
  rw [gapAfter_of_four_steps h, untilFirst_of_four_steps h, untilFirst_of_four_steps h]
  revert step
  cases region <;> decide

theorem untilFirst_zero (region : Region) (mode : UInt8) : untilFirst region mode 0 = 0 := by
  simp [untilFirst]

theorem untilFirst_one {mode : UInt8} (h : isFiveStep mode = false) (region : Region) :
    untilFirst region mode 1 = region.stepPeriod * 3 - 2 := by
  rw [untilFirst_of_four_steps h]
  cases region <;> decide

theorem two_le_stepPeriod (region : Region) : 2 ≤ region.stepPeriod := by cases region <;> decide

theorem raises_iff {mode : UInt8} :
    raises mode = true ↔ isFiveStep mode = false ∧ inhibitsIrq mode = false := by
  simp [raises]

/-- At a step 0 that raises the interrupt the flag is set and the next interrupt is predicted. -/
theorem fire_of_raises {sequencer : Sequencer} (hstep : sequencer.next = 0)
    (hmode : raises sequencer.mode = true) (time : Int) :
    (sequencer.fire time).irqFlag = true ∧
      (sequencer.fire time).nextIrq = some (time + sequencer.period * 4 - 2 + 1) := by
  unfold fire
  rw [raises_iff] at hmode
  simp [hstep, hmode]

/-- At any other step flag and prediction stay. -/
theorem fire_of_not_raises {sequencer : Sequencer}
    (h : ¬(sequencer.next = 0 ∧ raises sequencer.mode = true)) (time : Int) :
    (sequencer.fire time).irqFlag = sequencer.irqFlag ∧
      (sequencer.fire time).nextIrq = sequencer.nextIrq := by
  unfold fire
  split
  · rename_i hfirst
    exact absurd ⟨hfirst.1, by simpa [raises] using hfirst.2⟩ h
  · exact ⟨rfl, rfl⟩

theorem fire_fields (sequencer : Sequencer) (time : Int) :
    (sequencer.fire time).region = sequencer.region ∧ (sequencer.fire time).mode = sequencer.mode ∧
      (sequencer.fire time).next = sequencer.next + 1 := by
  unfold fire
  split <;> exact ⟨rfl, rfl, rfl⟩

theorem Predicts.fire {sequencer : Sequencer} {due : Int} (h : sequencer.Predicts due) :
    (sequencer.fire due).Predicts (due + (sequencer.fire due).delay) := by
  obtain ⟨hregion, hmode, hnext⟩ := fire_fields sequencer due
  unfold Predicts at h ⊢
  rw [hregion, hmode, hnext, fire_delay]
  by_cases hraises : raises sequencer.mode = true
  · have hgap := gapAfter_add_untilFirst (raises_iff.mp hraises).1 sequencer.region sequencer.next
    have hperiod := two_le_stepPeriod sequencer.region
    rw [if_pos hraises] at h ⊢
    by_cases hstep : sequencer.next = 0
    · rw [(fire_of_raises hstep hraises due).2, period]
      rw [if_pos hstep] at hgap
      congr 1
      omega
    · rw [(fire_of_not_raises (fun h => hstep h.1) due).2, h]
      rw [if_neg hstep] at hgap
      congr 1
      omega
  · rw [(fire_of_not_raises (fun h => hraises h.2) due).2, h, if_neg hraises, if_neg hraises]

theorem Predicts.after {sequencer : Sequencer} {now : Int}
    (h : sequencer.Predicts (now + sequencer.delay)) (stop : Int) :
    (sequencer.after now stop).Predicts (stop + (sequencer.after now stop).delay) := by
  induction sequencer, now using due_induction stop with
  | due sequencer now hdue ih =>
    rw [after_of_due hdue]
    exact ih h.fire
  | last sequencer now hdue =>
    rw [after_of_not_due hdue]
    have htime : stop + (sequencer.advance (stop - now)).delay = now + sequencer.delay := by
      show stop + (sequencer.delay - (stop - now)) = _
      omega
    rw [htime]
    exact h

theorem predicts_writeMode (sequencer : Sequencer) (time : Int) (mode : UInt8) :
    (sequencer.writeMode time mode).Predicts (time + (sequencer.writeMode time mode).delay) := by
  have hperiod := two_le_stepPeriod sequencer.region
  unfold Predicts writeMode
  cases hfive : isFiveStep mode
  · have hfirst := untilFirst_one hfive sequencer.region
    cases hirq : inhibitsIrq mode
    · simp only [BitVec.ofNat_eq_ofNat] at hfirst
      simp [raises, hfive, hirq, hfirst, period]
      omega
    · simp [raises, hirq]
  · simp [raises, hfive]

theorem Predicts.rebase {sequencer : Sequencer} {due : Int} (h : sequencer.Predicts due)
    (origin : Int) : (sequencer.rebase origin).Predicts (due - origin) := by
  unfold Predicts Sequencer.rebase at *
  simp only
  rw [h]
  split
  · rw [Option.map_some]
    congr 1
    omega
  · rfl

/-- A step 0 that raises the interrupt does so one clock before the predicted time. -/
theorem Predicts.nextIrq_of_first {sequencer : Sequencer} {due : Int} (h : sequencer.Predicts due)
    (hfirst : sequencer.next = 0 ∧ raises sequencer.mode = true) :
    sequencer.nextIrq = some (due + 1) := by
  rw [h, if_pos hfirst.2, hfirst.1, untilFirst_zero, Int.natCast_zero, Int.add_zero]

theorem Predicts.lt {sequencer : Sequencer} {due t : Int} (h : sequencer.Predicts due)
    (ht : sequencer.nextIrq = some t) : due < t := by
  rw [h] at ht
  split at ht
  · cases ht
    omega
  · cases ht

/-- Whether the interrupt is raised or predicted not to come after `stop`. -/
def RaisedBy (sequencer : Sequencer) (stop : Int) : Prop :=
  sequencer.irqFlag = true ∨ ∃ t, sequencer.nextIrq = some t ∧ t ≤ stop

/-- A run raises the interrupt exactly when it goes past the prediction. -/
theorem Predicts.irqFlag_after {sequencer : Sequencer} {now : Int}
    (h : sequencer.Predicts (now + sequencer.delay)) (stop : Int) :
    (sequencer.after now stop).irqFlag = true ↔ sequencer.RaisedBy stop := by
  unfold RaisedBy
  induction sequencer, now using due_induction stop with
  | due sequencer now hdue ih =>
    rw [after_of_due hdue, ih h.fire]
    by_cases hraises : sequencer.next = 0 ∧ raises sequencer.mode = true
    · rw [(fire_of_raises hraises.1 hraises.2 _).1, h.nextIrq_of_first hraises]
      exact ⟨fun _ => .inr ⟨_, rfl, by omega⟩, fun _ => .inl rfl⟩
    · rw [(fire_of_not_raises hraises _).1, (fire_of_not_raises hraises _).2]
  | last sequencer now hdue =>
    rw [after_of_not_due hdue]
    refine ⟨.inl, ?_⟩
    rintro (hirq | ⟨t, ht, hle⟩)
    · exact hirq
    · have hlt := h.lt ht
      omega

theorem Predicts.raisedBy_after {sequencer : Sequencer} {now : Int}
    (h : sequencer.Predicts (now + sequencer.delay)) {mid stop : Int} (hmid : mid ≤ stop) :
    (sequencer.after now mid).RaisedBy stop ↔ sequencer.RaisedBy stop := by
  rw [← h.irqFlag_after stop, ← (sequencer.run_split now hmid).2]
  exact ((h.after mid).irqFlag_after stop).symm

end Chiptune.Sequencer
