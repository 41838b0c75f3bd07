import Chiptune.Proofs.BeatSchedule
import Mathlib.Data.Nat.Nth

/-! The half frames of a schedule.  A sequencer stands before a step of some round: `schedule` has
this round and all that follow it, and the steps of the round that come before are over.  `halves`
counts the half frames that are due in a span of clocks, which are the ones that a history fires in
it.  As every second step is one, any number of them is reached at some clock. -/

namespace Chiptune

namespace Schedule

variable (schedule : Schedule)

/-! ### Places and clocks -/

theorem due_lt_iff {k l : Nat} : schedule.due k < schedule.due l ↔ k < l := by
  constructor
  · intro hdue
    refine Nat.lt_of_not_le fun hle => ?_
    have hmono := schedule.due_mono hle
    omega
  · intro hlt
    exact Int.lt_of_lt_of_le (schedule.due_lt_succ k) (schedule.due_mono hlt)

theorem le_due (k : Nat) : schedule.first + k ≤ schedule.due k := by
  induction k with
  | zero => exact Int.le_of_eq ((Int.add_zero _).trans schedule.due_zero.symm)
  | succ k ih =>
    have hlt := schedule.due_lt_succ k
    omega

/-- The steps before a clock are those before a place. -/
theorem exists_place (clock : Int) : ∃ place, ∀ k, k < place ↔ schedule.due k < clock := by
  have hlate : ∃ k, clock ≤ schedule.due k := by
    refine ⟨(clock - schedule.first).toNat, ?_⟩
    have hle := schedule.le_due (clock - schedule.first).toNat
    omega
  refine ⟨Nat.find hlate, fun k => ?_⟩
  rw [Nat.lt_find_iff]
  constructor
  · intro hbefore
    exact Int.not_le.mp (hbefore k (Nat.le_refl k))
  · intro hdue m hm
    have hmono := schedule.due_mono hm
    omega

/-! ### Half frames -/

/-- The place is that of a half frame that is due from `start` on. -/
def HalfFrom (start : Int) (k : Nat) : Prop :=
  (schedule.beat k).2.half = true ∧ start ≤ schedule.due k

instance (start : Int) : DecidablePred (schedule.HalfFrom start) :=
  fun _ => inferInstanceAs (Decidable (_ ∧ _))

/-- The number of the half frames that are due from `start` on and before `stop`.  No two steps share a
clock, which bounds their places. -/
def halves (start stop : Int) : Nat :=
  Nat.count (fun k => schedule.HalfFrom start k ∧ schedule.due k < stop)
    (stop - schedule.first).toNat

variable {schedule} {start stop : Int} {base later : Nat}

theorem halves_eq_count (hlater : ∀ k, k < later ↔ schedule.due k < stop) :
    schedule.halves start stop = Nat.count (schedule.HalfFrom start) later := by
  unfold halves
  rw [Nat.count_eq_card_filter_range, Nat.count_eq_card_filter_range]
  refine congrArg Finset.card (Finset.ext fun k => ?_)
  have hle := schedule.le_due k
  have hlater := hlater k
  simp only [Finset.mem_filter, Finset.mem_range]
  constructor
  · rintro ⟨_, hhalf, hdue⟩
    exact ⟨hlater.mpr hdue, hhalf⟩
  · rintro ⟨hk, hhalf⟩
    exact ⟨by omega, hhalf, hlater.mp hk⟩

/-- The half frames of a span are those among the steps between two places. -/
theorem halves_eq (hbase : ∀ k, k < base ↔ schedule.due k < start)
    (hlater : ∀ k, k < later ↔ schedule.due k < stop) (hle : base ≤ later) :
    schedule.halves start stop =
      ((List.range' base (later - base)).map schedule.beat).countP (·.2.half) := by
  have hearly : Nat.count (schedule.HalfFrom start) base = 0 :=
    Nat.count_of_forall_not fun k hk hhalf => Int.not_le.mpr ((hbase k).mp hk) hhalf.2
  have hlate (k : Nat) : start ≤ schedule.due (base + k) :=
    Int.not_lt.mp fun hdue => absurd ((hbase _).mpr hdue) (by omega)
  obtain ⟨n, rfl⟩ := Nat.exists_eq_add_of_le hle
  rw [halves_eq_count hlater, Nat.count_add, hearly, Nat.zero_add, Nat.add_sub_cancel_left,
    List.range'_eq_map_range, List.map_map, List.countP_map]
  refine List.countP_congr fun k _ => ?_
  simp [HalfFrom, hlate]

/-- Every second step is a half frame. -/
theorem half_or_half_succ (k : Nat) :
    (schedule.beat k).2.half = true ∨ (schedule.beat (k + 1)).2.half = true := by
  have hall : ∀ step : BitVec 2,
      (Sequencer.beatOf step).half = true ∨ (Sequencer.beatOf (step + 1)).half = true := by
    decide
  unfold beat
  rw [step_succ]
  exact hall (schedule.step k)

theorem infinite_halfFrom (start : Int) : (Set.ofPred (schedule.HalfFrom start)).Infinite := by
  refine Set.infinite_of_forall_exists_gt fun k => ?_
  have hfar (l : Nat) (hl : (start - schedule.first).toNat ≤ l) : start ≤ schedule.due l := by
    have hle := schedule.le_due l
    omega
  rcases schedule.half_or_half_succ (k + 1 + (start - schedule.first).toNat) with hhalf | hhalf
  · exact ⟨_, ⟨hhalf, hfar _ (by omega)⟩, by omega⟩
  · exact ⟨_, ⟨hhalf, hfar _ (by omega)⟩, by omega⟩

/-- The half frame that comes after `n` others, and the clocks up to which no more than these have
come. -/
theorem exists_half (start : Int) (n : Nat) :
    ∃ k, schedule.HalfFrom start k ∧ schedule.halves start (schedule.due k) = n ∧
      ∀ clock, schedule.halves start clock ≤ n ↔ clock ≤ schedule.due k := by
  have hinfinite := schedule.infinite_halfFrom start
  refine ⟨Nat.nth (schedule.HalfFrom start) n, Nat.nth_mem_of_infinite hinfinite n, ?_, ?_⟩
  · rw [halves_eq_count fun k => schedule.due_lt_iff.symm]
    exact Nat.count_nth_of_infinite hinfinite n
  · intro clock
    obtain ⟨place, hplace⟩ := schedule.exists_place clock
    rw [halves_eq_count hplace, Nat.count_le_iff_le_nth hinfinite, ← Nat.not_lt, hplace,
      Int.not_lt]

end Schedule

/-! ### The schedule of a sequencer -/

namespace Sequencer

/-- The number of steps that come before the next one in its round. -/
def place (sequencer : Sequencer) : Nat :=
  if isFiveStep sequencer.mode then sequencer.next.toNat else (sequencer.next - 1).toNat

/-- The steps of a sequencer at `now`, from the first one of its round on. -/
def schedule (sequencer : Sequencer) (now : Int) : Schedule :=
  let fromZero : Schedule := ⟨sequencer.region, sequencer.mode, 0⟩
  { fromZero with first := now + sequencer.delay - fromZero.offset sequencer.place }

/-- Only the first step of a round may be further away than the gap before it, after a mode byte. -/
def Near (sequencer : Sequencer) : Prop :=
  sequencer.place ≠ 0 →
    sequencer.delay < gapAfter sequencer.region sequencer.mode (sequencer.next - 1)

theorem near_writeMode (sequencer : Sequencer) (time : Int) (mode : UInt8) :
    (sequencer.writeMode time mode).Near := by
  intro hplace
  refine absurd ?_ hplace
  unfold place writeMode
  cases hfive : isFiveStep mode <;> simp [hfive]

theorem near_after {sequencer : Sequencer} {now stop : Int} (hlt : now < stop)
    (h : sequencer.place ≠ 0 →
      sequencer.delay ≤ gapAfter sequencer.region sequencer.mode (sequencer.next - 1)) :
    (sequencer.after now stop).Near := by
  induction sequencer, now using due_induction stop with
  | due sequencer now hdue ih =>
    obtain ⟨hregion, hmode, hnext⟩ := sequencer.fire_fields (now + sequencer.delay)
    rw [after_of_due hdue]
    refine ih hdue fun _ => ?_
    rw [fire_delay, hregion, hmode, hnext, BitVec.add_sub_cancel]
  | last sequencer now hdue =>
    rw [after_of_not_due hdue]
    intro hplace
    have hle := h hplace
    show sequencer.delay - (stop - now) <
      gapAfter sequencer.region sequencer.mode (sequencer.next - 1)
    omega

end Sequencer

theorem Console.Reachable.near {console : Console} (h : Reachable console) :
    console.board.chip.sequencer.Near :=
  h.sequencer_invariant (fun _ _ _ hlt hnear => Sequencer.near_after hlt fun hplace =>
    Int.le_of_lt (hnear hplace)) Sequencer.near_writeMode fun _ _ _ hnear => hnear

namespace Sequencer

variable (sequencer : Sequencer) (now : Int)

theorem place_lt : sequencer.place < 4 := by
  unfold place
  split <;> exact BitVec.isLt _

theorem step_place : (sequencer.schedule now).step sequencer.place = sequencer.next := by
  obtain ⟨region, delay, next, mode, irqFlag, nextIrq⟩ := sequencer
  have hfive : isFiveStep mode = mode.toNat.testBit 7 := rfl
  unfold Schedule.step Schedule.isFive place schedule
  dsimp only
  rw [hfive]
  cases mode.toNat.testBit 7
  · revert next
    decide
  · revert next
    decide

theorem due_place :
    (sequencer.schedule now).due sequencer.place = now + sequencer.delay := by
  have hlow := sequencer.place_lt
  unfold Schedule.due
  rw [Nat.div_eq_of_lt hlow, Nat.mod_eq_of_lt hlow, Nat.zero_mul, Nat.zero_add]
  show now + sequencer.delay - _ + _ = _
  exact Int.sub_add_cancel ..

theorem on_schedule (hdelay : 0 ≤ sequencer.delay) :
    (sequencer.schedule now).On sequencer.place sequencer now where
  region := rfl
  mode := rfl
  next := (sequencer.step_place now).symm
  due := (sequencer.due_place now).symm
  le := by
    rw [due_place]
    omega

/-- The steps of the round that come before the next one are over. -/
theorem lt_place_iff {sequencer : Sequencer} (hnear : sequencer.Near)
    (hdelay : 0 ≤ sequencer.delay) (k : Nat) :
    k < sequencer.place ↔ (sequencer.schedule now).due k < now := by
  have hdue := sequencer.due_place now
  constructor
  · intro hk
    obtain ⟨last, hlast⟩ := Nat.exists_eq_succ_of_ne_zero (Nat.ne_of_gt (Nat.zero_lt_of_lt hk))
    have hgap := hnear (by omega)
    have hstep := sequencer.step_place now
    have hmono := (sequencer.schedule now).due_mono (Nat.le_of_lt_succ (hlast ▸ hk))
    rw [hlast, Schedule.due_succ] at hdue
    rw [hlast, Schedule.step_succ] at hstep
    rw [← hstep, BitVec.add_sub_cancel] at hgap
    have hsame : gapAfter (sequencer.schedule now).region (sequencer.schedule now).mode =
        gapAfter sequencer.region sequencer.mode := rfl
    rw [hsame] at hdue
    omega
  · intro hbefore
    refine Nat.lt_of_not_le fun hle => ?_
    have hmono := (sequencer.schedule now).due_mono hle
    omega

end Sequencer

namespace Score

/-- A console that a host can bring about starts a history on the schedule of its sequencer. -/
theorem onSchedule_start {console : Console} (h : console.Reachable) :
    let sequencer := console.board.chip.sequencer
    OnSchedule (sequencer.schedule console.board.chip.time) sequencer.place { console }
      sequencer.place := by
  intro sequencer
  have hdelay : 0 ≤ sequencer.delay := h.consistent.sequencer_delay
  have hreached : reached { console } = console.board.chip.time := Int.zero_add _
  refine ⟨Nat.le_refl _, ?_, fun k => ?_, ?_⟩
  · rw [hreached]
    exact sequencer.on_schedule _ hdelay
  · rw [hreached]
    exact Sequencer.lt_place_iff _ h.near hdelay k
  · rw [Nat.sub_self]
    rfl

namespace OnSchedule

variable {schedule : Schedule} {base place : Nat} {score : Score} {start : Int}
  (h : OnSchedule schedule base score place) (hbase : ∀ k, k < base ↔ schedule.due k < start)
include h hbase

theorem countP_beats :
    score.beats.countP (·.2.half) = schedule.halves start score.reached := by
  rw [h.beats, Schedule.halves_eq hbase h.fired h.le]

/-- The half frames that have been fired after a further run. -/
theorem countP_beatsTo (stop : Int) :
    (score.beatsTo stop).countP (·.2.half) =
      schedule.halves start (score.origin + max score.now stop) := by
  obtain ⟨later, hle, hplaces, hfires, _⟩ := on_runTo h.on h.fired stop
  rw [h.beatsTo hle hfires, Schedule.halves_eq hbase hplaces (Nat.le_trans h.le hle)]

end OnSchedule

end Score

end Chiptune
