import Chiptune.Proofs.Progress

/-! The schedule of the frame sequencer.  A mode byte fixes the times and the steps of all beats
that follow it, until the next one: `Schedule.due` and `Schedule.step` give them in closed form.
The sequencer only counts a delay down and a step up.  `On` says that it stands before a place of
the schedule; a fired step leads to the next place, a run to the place that its stop asks for, and
no operation but a mode byte or a reset leads away from it. -/

namespace Chiptune

/-- The steps that follow a mode byte, the first of which is due at `first`. -/
structure Schedule where
  region : Region
  mode : UInt8
  first : Int
  deriving DecidableEq

namespace Schedule

variable (schedule : Schedule)

/-- Whether bit 7 of the mode asks for five steps. -/
def isFive : Bool := schedule.mode.toNat.testBit 7

/-- The gaps after the first four steps. -/
def gaps : List Nat :=
  let period := schedule.region.stepPeriod
  match schedule.isFive, schedule.region with
  | false, .ntsc => [period - 2, period, period, period]
  | false, .pal => [period, period - 2, period, period]
  | true, .ntsc => [period, period - 2, period, 2 * period - 6]
  | true, .pal => [period, period, period - 2, 2 * period - 2]

/-- The clocks after which the gaps repeat. -/
def total : Nat :=
  let period := schedule.region.stepPeriod
  match schedule.isFive, schedule.region with
  | false, _ => 4 * period - 2
  | true, .ntsc => 5 * period - 8
  | true, .pal => 5 * period - 4

/-- The clocks from the first step of a round to its step `k`. -/
def offset (k : Nat) : Nat := (schedule.gaps.take k).foldl (· + ·) 0

/-- The time of a place in the schedule. -/
def due (k : Nat) : Int :=
  schedule.first + (k / 4 * schedule.total + schedule.offset (k % 4) : Nat)

/-- The step at a place.  Four steps begin with step 1 and five with step 0. -/
def step (k : Nat) : BitVec 2 := BitVec.ofNat 2 (if schedule.isFive then k else k + 1)

/-- The beat at a place, with its time. -/
def beat (k : Nat) : Int × Beat := (schedule.due k, Sequencer.beatOf (schedule.step k))

/-- The schedule as it is seen from a frame that starts at `origin`. -/
def rebase (origin : Int) : Schedule := { schedule with first := schedule.first - origin }

/-- The schedule after a mode byte written at `time`, with `delay` clocks to the step that was due
before.  Of these only an odd clock is kept. -/
def afterWrite (region : Region) (mode : UInt8) (time delay : Int) : Schedule :=
  { region, mode
    first := time + delay % 2 + if mode.toNat.testBit 7 then 0 else region.stepPeriod }

/-! ### Times -/

theorem step_mod_four (k : Nat) : schedule.step k = schedule.step (k % 4) := by
  unfold step
  refine BitVec.eq_of_toNat_eq ?_
  rw [BitVec.toNat_ofNat, BitVec.toNat_ofNat]
  split <;> omega

theorem step_succ (k : Nat) : schedule.step (k + 1) = schedule.step k + 1 := by
  unfold step
  split <;> exact BitVec.ofNat_add ..

theorem gapAfter_of_mode (region : Region) (mode : UInt8) (step : BitVec 2) :
    Sequencer.gapAfter region mode step =
      Sequencer.gapAfter region (if mode.toNat.testBit 7 then 0x80 else 0) step := by
  unfold Sequencer.gapAfter Sequencer.isFiveStep
  cases mode.toNat.testBit 7 <;> rfl

theorem offset_succ {k : Nat} (h : k < 4) :
    schedule.offset (k + 1) =
      schedule.offset k + Sequencer.gapAfter schedule.region schedule.mode (schedule.step k) := by
  obtain ⟨region, mode, first⟩ := schedule
  rw [gapAfter_of_mode]
  unfold offset gaps step isFive
  dsimp only
  generalize mode.toNat.testBit 7 = five
  revert k
  cases region <;> cases five <;> decide

theorem offset_zero : schedule.offset 0 = 0 := rfl

theorem offset_four : schedule.offset 4 = schedule.total := by
  obtain ⟨region, mode, first⟩ := schedule
  unfold offset gaps total isFive
  dsimp only
  generalize mode.toNat.testBit 7 = five
  cases region <;> cases five <;> rfl

theorem due_succ (k : Nat) :
    schedule.due (k + 1) = schedule.due k +
      Sequencer.gapAfter schedule.region schedule.mode (schedule.step k) := by
  have hlow : k % 4 < 4 := Nat.mod_lt k (by decide)
  have hgap := schedule.offset_succ hlow
  rw [← step_mod_four] at hgap
  unfold due
  -- Within a round the next gap is added, and the last one completes the round.
  by_cases hlast : k % 4 = 3
  · have hquot : (k + 1) / 4 = k / 4 + 1 := by omega
    have hrem : (k + 1) % 4 = 0 := by omega
    rw [hlast, offset_four] at hgap
    rw [hquot, hrem, hlast, Nat.add_mul, offset_zero]
    omega
  · have hquot : (k + 1) / 4 = k / 4 := by omega
    have hrem : (k + 1) % 4 = k % 4 + 1 := by omega
    rw [hquot, hrem, hgap]
    omega

theorem due_lt_succ (k : Nat) : schedule.due k < schedule.due (k + 1) := by
  have hpos := Sequencer.gapAfter_pos schedule.region schedule.mode (schedule.step k)
  rw [due_succ]
  omega

theorem due_mono {k l : Nat} (h : k ≤ l) : schedule.due k ≤ schedule.due l := by
  induction h with
  | refl => exact Int.le_refl _
  | step h ih => exact Int.le_trans ih (Int.le_of_lt (schedule.due_lt_succ _))

theorem due_zero : schedule.due 0 = schedule.first := by
  simp [due, offset_zero]

theorem due_rebase (origin : Int) (k : Nat) :
    (schedule.rebase origin).due k = schedule.due k - origin := by
  show schedule.first - origin + _ = schedule.first + _ - origin
  have hoffset : (schedule.rebase origin).offset = schedule.offset := rfl
  have htotal : (schedule.rebase origin).total = schedule.total := rfl
  rw [hoffset, htotal]
  omega

/-- Whether the mode lets step 0 raise the interrupt: bits 6 and 7 are clear. -/
def raises : Prop := schedule.mode.toNat.testBit 6 = false ∧ schedule.mode.toNat.testBit 7 = false

/-! ### A sequencer on schedule -/

/-- The sequencer at `now` stands before a place of the schedule. -/
structure On (schedule : Schedule) (place : Nat) (sequencer : Sequencer) (now : Int) : Prop where
  region : sequencer.region = schedule.region
  mode : sequencer.mode = schedule.mode
  next : sequencer.next = schedule.step place
  due : now + sequencer.delay = schedule.due place
  le : now ≤ schedule.due place

namespace On

variable {schedule} {place : Nat} {sequencer : Sequencer} {now : Int}

theorem raises_iff (h : schedule.On place sequencer now) :
    Sequencer.raises sequencer.mode = true ↔ schedule.raises := by
  rw [Sequencer.raises_iff, h.mode]
  unfold raises Sequencer.isFiveStep Sequencer.inhibitsIrq
  exact and_comm

/-- A mode byte puts the sequencer on its schedule. -/
theorem writeMode (sequencer : Sequencer) (mode : UInt8) (time : Int) :
    (afterWrite sequencer.region mode time sequencer.delay).On 0 (sequencer.writeMode time mode)
      time := by
  have hodd : 0 ≤ sequencer.delay % 2 := Int.emod_nonneg _ (by decide)
  have hfive : Sequencer.isFiveStep mode = mode.toNat.testBit 7 := rfl
  constructor
  · exact Sequencer.region_writeMode ..
  · unfold Sequencer.writeMode
    split <;> rfl
  · unfold Sequencer.writeMode step isFive afterWrite
    rw [hfive]
    cases mode.toNat.testBit 7 <;> rfl
  · rw [due_zero]
    unfold Sequencer.writeMode afterWrite Sequencer.period
    rw [hfive]
    cases mode.toNat.testBit 7
    · exact (Int.add_assoc ..).symm
    · exact (Int.add_zero _).symm
  · rw [due_zero]
    unfold afterWrite
    dsimp only
    split <;> omega

/-- A step leads to the next place. -/
theorem fire (h : schedule.On place sequencer now) :
    schedule.On (place + 1) (sequencer.fire (now + sequencer.delay)) (now + sequencer.delay) := by
  obtain ⟨hregion, hmode, hnext⟩ := sequencer.fire_fields (now + sequencer.delay)
  have hdelay := sequencer.fire_delay (now + sequencer.delay)
  rw [h.region, h.mode, h.next] at hdelay
  refine ⟨hregion.trans h.region, hmode.trans h.mode, ?_, ?_, ?_⟩
  · rw [hnext, h.next, step_succ]
  · rw [hdelay, h.due, due_succ]
  · rw [h.due]
    exact Int.le_of_lt (schedule.due_lt_succ place)

/-- A run leads to the first place that does not come before its stop, and the steps at the places
on the way happen in it. -/
theorem run (h : schedule.On place sequencer now) {stop : Int} (hstop : now ≤ stop) :
    ∃ later, place ≤ later ∧ (∀ k, place ≤ k → (k < later ↔ schedule.due k < stop)) ∧
      sequencer.beats now stop = (List.range' place (later - place)).map schedule.beat ∧
      schedule.On later (sequencer.after now stop) stop := by
  induction sequencer, now using Sequencer.due_induction stop generalizing place with
  | due sequencer now hdue ih =>
    obtain ⟨later, hle, hplaces, hbeats, hon⟩ := ih h.fire (Int.le_of_lt hdue)
    rw [h.due] at hdue
    refine ⟨later, Nat.le_of_succ_le hle, ?_, ?_, ?_⟩
    · intro k hk
      rcases Nat.eq_or_lt_of_le hk with rfl | hlt
      · exact ⟨fun _ => hdue, fun _ => hle⟩
      · exact hplaces k hlt
    · have hcount : later - place = later - (place + 1) + 1 := by omega
      rw [Sequencer.beats_of_due (by rwa [h.due]), hbeats, hcount, List.range'_succ, List.map_cons,
        h.due, h.next]
      rfl
    · rwa [Sequencer.after_of_due (by rwa [h.due])]
  | last sequencer now hdue =>
    have hlate : stop ≤ schedule.due place := by
      rw [← h.due]
      exact Int.not_lt.mp hdue
    refine ⟨place, Nat.le_refl place, ?_, ?_, ?_⟩
    · intro k hk
      have hmono := schedule.due_mono hk
      omega
    · rw [Sequencer.beats_of_not_due hdue, Nat.sub_self]
      rfl
    · rw [Sequencer.after_of_not_due hdue]
      refine ⟨h.region, h.mode, h.next, ?_, hlate⟩
      rw [← h.due]
      show stop + (sequencer.delay - (stop - now)) = _
      omega

/-- A run raises the interrupt just if a step 0 happens in it and the mode lets it. -/
theorem irqFlag_after (h : schedule.On place sequencer now) (stop : Int) :
    (sequencer.after now stop).irqFlag = true ↔
      sequencer.irqFlag = true ∨
        schedule.raises ∧ ∃ k, place ≤ k ∧ schedule.due k < stop ∧ schedule.step k = 0 := by
  induction sequencer, now using Sequencer.due_induction stop generalizing place with
  | due sequencer now hdue ih =>
    -- The step at `place` raises the interrupt itself or leaves the flag to the later ones.
    have hfire : (sequencer.fire (now + sequencer.delay)).irqFlag = true ↔
        sequencer.irqFlag = true ∨ schedule.raises ∧ schedule.step place = 0 := by
      rw [← h.raises_iff, ← h.next, and_comm]
      by_cases hraises : sequencer.next = 0 ∧ Sequencer.raises sequencer.mode = true
      · have hraised := (Sequencer.fire_of_raises hraises.1 hraises.2 (now + sequencer.delay)).1
        exact ⟨fun _ => .inr hraises, fun _ => hraised⟩
      · rw [(Sequencer.fire_of_not_raises hraises _).1]
        exact ⟨.inl, fun h => h.resolve_right hraises⟩
    rw [Sequencer.after_of_due hdue, ih h.fire, hfire]
    rw [h.due] at hdue
    constructor
    · rintro ((hflag | ⟨hmode, hstep⟩) | ⟨hmode, k, hk, hbefore, hstep⟩)
      · exact .inl hflag
      · exact .inr ⟨hmode, place, Nat.le_refl place, hdue, hstep⟩
      · exact .inr ⟨hmode, k, Nat.le_of_succ_le hk, hbefore, hstep⟩
    · rintro (hflag | ⟨hmode, k, hk, hbefore, hstep⟩)
      · exact .inl (.inl hflag)
      · rcases Nat.eq_or_lt_of_le hk with rfl | hlt
        · exact .inl (.inr ⟨hmode, hstep⟩)
        · exact .inr ⟨hmode, k, hlt, hbefore, hstep⟩
  | last sequencer now hdue =>
    rw [Sequencer.after_of_not_due hdue]
    refine ⟨.inl, ?_⟩
    rintro (hflag | ⟨_, k, hk, hbefore, _⟩)
    · exact hflag
    · have hmono := schedule.due_mono hk
      rw [h.due] at hdue
      omega

theorem rebase_iff (origin : Int) :
    (schedule.rebase origin).On place sequencer (now - origin) ↔
      schedule.On place sequencer now := by
  have hdue := schedule.due_rebase origin place
  constructor
  · intro h
    refine ⟨h.region, h.mode, h.next, ?_, ?_⟩
    · have := h.due
      omega
    · have := h.le
      omega
  · intro h
    refine ⟨h.region, h.mode, h.next, ?_, ?_⟩
    · have := h.due
      omega
    · have := h.le
      omega

end On

end Schedule

/-! ### Chips on schedule -/

namespace Session

variable {schedule : Schedule} {place : Nat} (session : Session)

theorem on_runTo (h : schedule.On place session.chip.sequencer session.chip.time) (stop : Int) :
    ∃ later, place ≤ later ∧ (∀ k, place ≤ k → (k < later ↔ schedule.due k < stop)) ∧
      session.fires stop = (List.range' place (later - place)).map schedule.beat ∧
      schedule.On later (session.runTo stop).chip.sequencer (max session.chip.time stop) := by
  by_cases hstop : stop ≤ session.chip.time
  · rw [runTo_of_le hstop, Int.max_eq_left hstop, fires, if_pos hstop]
    refine ⟨place, Nat.le_refl place, ?_, ?_, h⟩
    · intro k hk
      have hle := h.le
      have hmono := schedule.due_mono hk
      omega
    · rw [Nat.sub_self]
      rfl
  · have hlt := Int.not_le.mp hstop
    rw [runTo_chip hlt, Int.max_eq_right (Int.le_of_lt hlt), fires, if_neg hstop]
    exact h.run (Int.le_of_lt hlt)

theorem irqFlag_runTo_iff (h : schedule.On place session.chip.sequencer session.chip.time)
    (stop : Int) :
    (session.runTo stop).chip.sequencer.irqFlag = true ↔
      session.chip.sequencer.irqFlag = true ∨
        schedule.raises ∧ ∃ k, place ≤ k ∧ schedule.due k < stop ∧ schedule.step k = 0 := by
  by_cases hstop : stop ≤ session.chip.time
  · rw [runTo_of_le hstop]
    refine ⟨.inl, ?_⟩
    rintro (hflag | ⟨_, k, hk, hbefore, _⟩)
    · exact hflag
    · have hle := h.le
      have hmono := schedule.due_mono hk
      omega
  · rw [runTo_chip (Int.not_le.mp hstop)]
    exact h.irqFlag_after stop

/-- Of what an operation does to a chip that has run to its clock, only a mode byte and a reset lead
away from the schedule, and only a status read takes the interrupt back. -/
theorem on_touch {now : Int} (h : schedule.On place session.chip.sequencer now)
    {operation : Operation} (hleaves : operation.leaves 0x4017 = true) :
    schedule.On place (operation.touch session).chip.sequencer now ∧
      ((operation.touch session).chip.sequencer.irqFlag = true ↔
        session.chip.sequencer.irqFlag = true ∧ ∀ time, operation ≠ .readStatus time) := by
  rcases session.sequencer_touch operation with ⟨time, mode, rfl, _⟩ | rfl | ⟨_, _, hsame, hirq⟩
  · simp [Operation.leaves] at hleaves
  · exact Bool.noConfusion hleaves
  · rw [hsame]
    exact ⟨⟨h.region, h.mode, h.next, h.due, h.le⟩, hirq⟩

end Session

namespace Score

section On

variable {schedule : Schedule} {score : Score} {place : Nat}
  (hon : schedule.On place score.console.board.chip.sequencer score.reached)
  (hfired : ∀ k, k < place ↔ schedule.due k < score.reached)
include hon

theorem on_now :
    (schedule.rebase score.origin).On place score.console.board.chip.sequencer score.now := by
  have hnow : score.now = score.reached - score.origin := by
    unfold reached
    omega
  rw [hnow, Schedule.On.rebase_iff]
  exact hon

include hfired

/-- The place to which a run leads, and the steps that it fires. -/
theorem on_runTo (stop : Int) :
    ∃ later, place ≤ later ∧
      (∀ k, k < later ↔ schedule.due k < score.origin + max score.now stop) ∧
      score.console.board.session.fires stop =
        (List.range' place (later - place)).map (schedule.rebase score.origin).beat ∧
      schedule.On later (score.console.board.session.runTo stop).chip.sequencer
        (score.origin + max score.now stop) := by
  obtain ⟨later, hle, hplaces, hfires, hlater⟩ :=
    score.console.board.session.on_runTo (on_now hon) stop
  refine ⟨later, hle, ?_, hfires, ?_⟩
  · intro k
    have hfired := hfired k
    have hplaces := hplaces k
    rw [Schedule.due_rebase] at hplaces
    unfold reached at hfired
    omega
  · rw [← Schedule.On.rebase_iff score.origin]
    have hnow : score.origin + max score.now stop - score.origin = max score.now stop := by omega
    rw [hnow]
    exact hlater

/-- The place to which an accepted operation leads that writes no mode byte. -/
theorem on_accept {operation : Operation} {outcome : Outcome} {next : Console}
    (hleaves : operation.leaves 0x4017 = true)
    (hperform : score.console.perform operation = .ok (outcome, next)) :
    ∃ later, place ≤ later ∧
      (∀ k, k < later ↔ schedule.due k < (score.accept operation outcome next).reached) ∧
      score.console.board.session.fires (operation.stop score.now) =
        (List.range' place (later - place)).map (schedule.rebase score.origin).beat ∧
      schedule.On later next.board.chip.sequencer
        (score.accept operation outcome next).reached := by
  obtain ⟨later, hle, hplaces, hfires, hlater⟩ := on_runTo hon hfired (operation.stop score.now)
  have hsequencer := (touched hperform).sequencer.eq rfl
  have htouch := (Session.on_touch _ hlater hleaves).1
  rw [← reached_accept hperform] at hplaces htouch
  rw [← hsequencer] at htouch
  exact ⟨later, hle, hplaces, hfires, htouch⟩

end On

/-- A history that came from one place of a schedule to another and fired the steps between them,
each once. -/
structure OnSchedule (schedule : Schedule) (base : Nat) (score : Score) (place : Nat) : Prop where
  le : base ≤ place
  on : schedule.On place score.console.board.chip.sequencer score.reached
  fired : ∀ k, k < place ↔ schedule.due k < score.reached
  beats : score.beats = (List.range' base (place - base)).map schedule.beat

namespace OnSchedule

variable {schedule : Schedule} {base place : Nat} {score : Score} {operation : Operation}
  {outcome : Outcome} {next : Console}

/-- The places of a run go on where those of the history so far end. -/
theorem beatsTo (h : OnSchedule schedule base score place) {stop : Int} {later : Nat}
    (hle : place ≤ later)
    (hfires : score.console.board.session.fires stop =
      (List.range' place (later - place)).map (schedule.rebase score.origin).beat) :
    score.beatsTo stop = (List.range' base (later - base)).map schedule.beat := by
  have hbase := h.le
  have hrange := @List.range'_append_1 base (place - base) (later - place)
  have hmid : base + (place - base) = place := by omega
  have hcount : place - base + (later - place) = later - base := by omega
  rw [hmid, hcount] at hrange
  rw [Score.beatsTo, h.beats, hfires, ← hrange, List.map_append, List.map_map]
  refine congrArg (_ ++ ·) (List.map_congr_left fun k _ => ?_)
  show ((schedule.rebase score.origin).due k + score.origin, _) = schedule.beat k
  rw [Schedule.due_rebase, Int.sub_add_cancel]
  rfl

theorem accept (h : OnSchedule schedule base score place)
    (hleaves : operation.leaves 0x4017 = true)
    (hperform : score.console.perform operation = .ok (outcome, next)) :
    ∃ later, OnSchedule schedule base (score.accept operation outcome next) later := by
  obtain ⟨later, hle, hplaces, hfires, hon⟩ := on_accept h.on h.fired hleaves hperform
  exact ⟨later, Nat.le_trans h.le hle, hon, hplaces, h.beatsTo hle hfires⟩

/-- A history stays on its schedule while no mode byte is written and the chip is not reset. -/
theorem playAll (h : OnSchedule schedule base score place) {operations : List Operation}
    (hleaves : ∀ operation ∈ operations, operation.leaves 0x4017 = true) :
    ∃ later, OnSchedule schedule base (score.playAll operations) later :=
  playAll_invariant (P := fun score => ∃ place, OnSchedule schedule base score place)
    (fun _ _ ⟨place, h⟩ => ⟨place, h.le, h.on, h.fired, h.beats⟩)
    (fun hleaves ⟨_, h⟩ hperform => h.accept hleaves hperform) ⟨place, h⟩ hleaves

end OnSchedule

/-- A mode byte starts its schedule. -/
theorem onSchedule_written {console written : Console} {time : Int} {mode : UInt8}
    {outcome : Outcome}
    (hwrite : console.perform (.write time 0x4017 mode) = .ok (outcome, written)) :
    let sequencer := (console.board.session.runTo time).chip.sequencer
    OnSchedule (.afterWrite sequencer.region mode time sequencer.delay) 0
      { console := written } 0 := by
  intro sequencer
  have hlocation : Location.ofAddress? 0x4017 = some .mode := by decide
  obtain ⟨hchip, _, htime⟩ := Console.perform_ok hwrite
  have hwritten : written.board.chip.sequencer = sequencer.writeMode time mode := by
    rw [hchip, Operation.act_of_some _ _ hlocation, Session.announce_chip]
    rfl
  have hnow : written.board.chip.time = time := by
    have hle := (htime time rfl).1
    rw [hchip]
    show (console.board.session.write time 0x4017 mode).chip.time = time
    rw [Session.write_time hlocation]
    exact Int.max_eq_right hle
  have hreached : reached { console := written } = time := by
    unfold reached now
    rw [hnow]
    exact Int.zero_add time
  have hon := Schedule.On.writeMode sequencer mode time
  refine ⟨Nat.le_refl 0, ?_, ?_, rfl⟩
  · rw [hreached, hwritten]
    exact hon
  · intro k
    have hle := hon.le
    have hmono := (Schedule.afterWrite sequencer.region mode time sequencer.delay).due_mono
      (Nat.zero_le k)
    rw [hreached]
    omega

/-- After an accepted mode byte, and however the following time is cut into runs and frames, the
sequencer has fired just the steps of its schedule that come before the present clock, each once and
in their order, and waits for the next one.  A further run clocks the channels at the steps that are
due before its stop, and raises the interrupt just if one of them is step 0 and bits 6 and 7 of the
mode are clear; no operation raises it otherwise.  Every step clocks the quarter frame, and steps 0
and 2 clock the half frame before it. -/
theorem beats_follow_schedule {console written : Console} {time : Int} {mode : UInt8}
    {answer : Outcome}
    (hwrite : console.perform (.write time 0x4017 mode) = .ok (answer, written))
    {operations : List Operation}
    (hleaves : ∀ operation ∈ operations, operation.leaves 0x4017 = true) :
    let sequencer := (console.board.session.runTo time).chip.sequencer
    let schedule := Schedule.afterWrite sequencer.region mode time sequencer.delay
    let score := playAll { console := written } operations
    let session := score.console.board.session
    ∃ place, (∀ k, k < place ↔ schedule.due k < score.reached) ∧
      score.beats = (List.range place).map schedule.beat ∧
      session.chip.sequencer.next = schedule.step place ∧
      score.reached + session.chip.sequencer.delay = schedule.due place ∧
      (∀ stop, score.now < stop →
        ∃ later, place ≤ later ∧
          (∀ k, k < later ↔ schedule.due k < score.origin + stop) ∧
          (session.runTo stop).chip.tones = session.chip.tones.play score.now stop
            ((List.range' place (later - place)).map (schedule.rebase score.origin).beat) ∧
          ((session.runTo stop).chip.sequencer.irqFlag = true ↔
            session.chip.sequencer.irqFlag = true ∨
              (mode.toNat.testBit 6 = false ∧ mode.toNat.testBit 7 = false) ∧
                ∃ k, place ≤ k ∧ k < later ∧ schedule.step k = 0)) ∧
      (∀ operation outcome next, operation.leaves 0x4017 = true →
        score.console.perform operation = .ok (outcome, next) →
        (next.board.chip.sequencer.irqFlag = true ↔
          (session.runTo (operation.stop score.now)).chip.sequencer.irqFlag = true ∧
            ∀ time, operation ≠ .readStatus time)) ∧
      ∀ (tones : Tones) (step : BitVec 2),
        tones.clock (Sequencer.beatOf step) =
          if step = 0 ∨ step = 2 then tones.clockHalf.clockQuarter else tones.clockQuarter := by
  intro sequencer schedule score session
  obtain ⟨place, h⟩ : ∃ place, OnSchedule schedule 0 score place :=
    (onSchedule_written hwrite).playAll hleaves
  have hbeats := h.beats
  rw [Nat.sub_zero, ← List.range_eq_range'] at hbeats
  refine ⟨place, h.fired, hbeats, h.on.next, h.on.due, ?_, ?_, ?_⟩
  · intro stop hstop
    obtain ⟨later, hle, hplaces, hfires, _⟩ := on_runTo h.on h.fired stop
    rw [Int.max_eq_right (Int.le_of_lt hstop)] at hplaces
    have hbefore (k : Nat) : (schedule.rebase score.origin).due k < stop ↔ k < later := by
      rw [Schedule.due_rebase, hplaces]
      omega
    have hflag := session.irqFlag_runTo_iff (on_now h.on) stop
    simp only [hbefore] at hflag
    refine ⟨later, hle, hplaces, ?_, hflag⟩
    rw [Session.runTo_chip hstop, ← hfires]
    exact congrArg (session.chip.tones.play score.now stop) (if_neg (Int.not_le.mpr hstop)).symm
  · intro operation outcome next hleaves hperform
    obtain ⟨_, _, _, _, hon⟩ := on_runTo h.on h.fired (operation.stop score.now)
    have hsequencer := (touched hperform).sequencer.eq rfl
    have htouch := (Session.on_touch _ hon hleaves).2
    rw [← hsequencer] at htouch
    exact htouch
  · intro tones step
    unfold Tones.clock Sequencer.beatOf
    split <;> simp_all

/-- Two frames with a status read. -/
def twoFrames : List Operation := [.runFrame 7000 0, .readStatus 100, .runFrame 3000 0]

/-- A mode byte for five steps, of which two are due within the frames that follow it. -/
theorem beats_follow_schedule_of_five_steps :
    ∃ console answer written, Console.create (.unconnected 0) .standard = .ok console ∧
      console.perform (.write 5 0x4017 0x80) = .ok (answer, written) ∧
      (∀ operation ∈ twoFrames, operation.leaves 0x4017 = true) ∧
      let score := playAll { console := written } twoFrames
      score.reached = 10000 ∧ score.beats = [(5, ⟨true, true⟩), (7463, ⟨true, false⟩)] ∧
        10000 + score.console.board.chip.sequencer.delay = 14919 := by
  obtain ⟨console, hcreate, hfacts⟩ := exists_ok (Console.create (.unconnected 0) .standard)
    (fun console =>
      let sequencer := (console.board.session.runTo 5).chip.sequencer
      Schedule.afterWrite sequencer.region 0x80 5 sequencer.delay = ⟨.ntsc, 0x80, 5⟩ &&
        (console.perform (.write 5 0x4017 0x80)).toOption.any fun result =>
          (playAll { console := result.2 } twoFrames).reached = 10000)
    (by decide +kernel)
  obtain ⟨hschedule, hfacts⟩ := Bool.and_eq_true_iff.mp hfacts
  obtain ⟨⟨answer, written⟩, hwrite, hreached⟩ := exists_ok _ _ hfacts
  have hschedule := of_decide_eq_true hschedule
  have hreached : (playAll { console := written } twoFrames).reached = 10000 :=
    of_decide_eq_true hreached
  have hleaves : ∀ operation ∈ twoFrames, operation.leaves 0x4017 = true := by
    simp [twoFrames, Operation.leaves]
  obtain ⟨place, hplaces, hbeats, _, hdue, _⟩ := beats_follow_schedule hwrite hleaves
  rw [hschedule, hreached] at hplaces
  rw [hschedule] at hbeats hdue
  rw [hreached] at hdue
  have hsecond := (hplaces 1).mpr (by decide)
  have hthird := mt (hplaces 2).mp (by decide)
  obtain rfl : place = 2 := by omega
  exact ⟨console, answer, written, hcreate, hwrite, hleaves, hreached, hbeats, hdue⟩

end Score

end Chiptune
