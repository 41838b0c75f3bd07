import Chiptune.Proofs.Conservation
import Chiptune.Proofs.Progress

/-! Loads of the sample channel's level while no sample plays.  A load puts nothing out: it leaves
the channel with a step `pending`, which the next run puts out, the difference of the curve at the
new level and at the old one.  If the chip does not run before the next load, at the same clock,
that step is lost.  So the steps of a history add up along the curve over the loads that no other
one follows at their clock (`clicks`), and to the whole way from rest if no two loads share a
clock. -/

namespace Chiptune

namespace Dmc

/-- The curve at the level that a value loads. -/
def table (value : UInt8) : Int := (curve.getD (value.toNat % 128) 0 : Nat)

/-- Whether what a load at a clock leaves pending is lost, because the next load comes at that clock
too. -/
def isLost (time : Int) (loads : List (Int × UInt8)) : Bool :=
  loads.head?.any fun load => load.1 = time

/-- The sum of the steps of loads that follow a load of `before`: each moves the output along the
curve, unless its step is lost. -/
def clicks (before : UInt8) : List (Int × UInt8) → Int
  | [] => 0
  | (time, value) :: loads =>
    (if isLost time loads then 0 else table value - table before) + clicks value loads

theorem isLost_of_lt {time : Int} {loads : List (Int × UInt8)}
    (h : ∀ load ∈ loads, time < load.1) : isLost time loads = false := by
  cases loads with
  | nil => rfl
  | cons load loads => exact decide_eq_false (Int.ne_of_gt (h load (.head _)))

/-- If no two loads share a clock, their steps add up to the way along the curve to the last one. -/
theorem clicks_of_apart {loads : List (Int × UInt8)} (h : loads.Pairwise (·.1 < ·.1))
    {last : Int × UInt8} (hlast : loads.getLast? = some last) (before : UInt8) :
    clicks before loads = table last.2 - table before := by
  induction loads generalizing before with
  | nil => cases hlast
  | cons load loads ih =>
    obtain ⟨hfirst, hrest⟩ := List.pairwise_cons.mp h
    rw [clicks, isLost_of_lt hfirst, if_neg Bool.false_ne_true]
    cases loads with
    | nil =>
      cases hlast
      exact Int.add_zero _
    | cons next loads =>
      rw [List.getLast?_cons_cons] at hlast
      rw [ih hrest hlast]
      omega

/-- A run of a channel that plays nothing only counts bits and puts its level out. -/
theorem after_of_silent {dmc : Dmc} (h : dmc.silent = true ∧ dmc.buffer = none) (time stop : Int)
    (bus : Bus) :
    (dmc.after time stop bus).1 = { dmc with
      bitsLeft := dmc.bitsLeft -
        BitVec.ofNat 3 (Timer.count dmc.period (time + dmc.voice.delay) stop)
      voice := { dmc.voice with
        delay := Timer.left dmc.period (time + dmc.voice.delay) stop
        level := dmc.dac.toNat } } := by
  unfold Dmc.after eventsAfter
  rw [skip_of_silent h]
  rfl

/-- The channel plays nothing.  It is at the level that `value` loads, and `pending` is the step by
which its output has still to move. -/
structure Holds (dmc : Dmc) (value : UInt8) (pending : Int) : Prop where
  silent : dmc.silent = true
  buffer : dmc.buffer = none
  dac : dmc.dac = BitVec.ofNat 7 value.toNat
  level : dmc.dac.toNat - dmc.voice.level = pending

theorem holds_restarted (wiring : Wiring) : (Chip.restarted wiring).dmc.Holds 0 0 :=
  ⟨rfl, rfl, rfl, rfl⟩

namespace Holds

variable {dmc : Dmc} {value : UInt8} {pending : Int} (h : dmc.Holds value pending)
include h

/-- A run puts out the pending step and nothing else. -/
theorem after (time stop : Int) (bus : Bus) :
    (dmc.after time stop bus).1.Holds value 0 ∧ Step.total (dmc.steps time stop bus) = pending := by
  have hsteps := dmc.total_steps time stop bus
  rw [after_of_silent ⟨h.silent, h.buffer⟩] at hsteps ⊢
  exact ⟨⟨h.silent, h.buffer, h.dac, Int.sub_self _⟩, hsteps.trans h.level⟩

/-- A load leaves the step along the curve pending, and nothing of what was pending before. -/
theorem load (loaded : UInt8) (now : Int) :
    (dmc.write .second loaded now).Holds loaded (table loaded - table value) := by
  have hresponse (value : UInt8) : response (BitVec.ofNat 7 value.toNat) = table value := by
    unfold response table
    rw [BitVec.toNat_ofNat]
  refine ⟨h.silent, h.buffer, rfl, ?_⟩
  -- The level that counts as put out is set back from the new one by the step along the curve.
  show ((BitVec.ofNat 7 loaded.toNat).toNat : Int) - ((BitVec.ofNat 7 loaded.toNat).toNat -
    (response (BitVec.ofNat 7 loaded.toNat) - response dmc.dac)) = _
  rw [h.dac, hresponse, hresponse]
  omega

theorem write {slot : Slot} (hslot : slot ≠ .second) (written : UInt8) (now : Int) :
    (dmc.write slot written now).Holds value pending := by
  cases slot with
  | second => exact absurd rfl hslot
  | _ => exact ⟨h.silent, h.buffer, h.dac, h.level⟩

theorem disable (bus : Bus) (now : Int) :
    (dmc.clearIrq.setEnabled false bus now).1.Holds value pending :=
  ⟨h.silent, h.buffer, h.dac, h.level⟩

end Holds

end Dmc

/-! ### Operations -/

namespace Operation

/-- Whether an operation leaves the sample channel off: it neither enables it nor resets the
chip. -/
def leavesSampleOff : Operation → Bool
  | .write _ address value => address ≠ 0x4015 || value &&& 0x10 = 0
  | .reset => false
  | _ => true

/-- The time and the value of a load. -/
def load? : Operation → Option (Int × UInt8)
  | .write time address value => if address = 0x4011 then some (time, value) else none
  | _ => none

theorem eq_of_load? {operation : Operation} {time : Int} {value : UInt8}
    (h : operation.load? = some (time, value)) : operation = .write time 0x4011 value := by
  cases operation with
  | write written address value =>
    unfold load? at h
    dsimp only at h
    split at h
    · rename_i haddress
      cases h
      rw [haddress]
    · cases h
  | _ => cases h

end Operation

theorem Location.eq_of_ofAddress?_level {address : UInt16}
    (h : ofAddress? address = some (.voice .dmc .second)) : address = 0x4011 :=
  UInt16.toNat_inj.mp (toNat_of_ofAddress?_dmc h)

namespace Session

variable (session : Session) {value : UInt8} {pending : Int}

/-- A run that goes on puts out what is pending. -/
theorem holds_runTo (h : session.chip.dmc.Holds value pending) (stop : Int) :
    (session.runTo stop).chip.dmc.Holds value (if session.chip.time < stop then 0 else pending) ∧
      Step.total (session.emits stop .dmc) = if session.chip.time < stop then pending else 0 := by
  by_cases hstop : stop ≤ session.chip.time
  · rw [runTo_of_le hstop, emits, if_pos hstop, if_neg (Int.not_lt.mpr hstop),
      if_neg (Int.not_lt.mpr hstop)]
    exact ⟨h, rfl⟩
  · have hlt := Int.not_le.mp hstop
    rw [runTo_chip hlt, emits, if_neg hstop, if_pos hlt, if_pos hlt]
    exact h.after session.chip.time stop session.bus

theorem holds_touch (h : session.chip.dmc.Holds value pending) {operation : Operation}
    (hoff : operation.leavesSampleOff = true) (hload : operation.load? = none) :
    (operation.touch session).chip.dmc.Holds value pending := by
  cases operation with
  | write time address written =>
    cases hlocation : Location.ofAddress? address with
    | none => rwa [Operation.touch_of_none _ _ hlocation]
    | some location =>
      rw [Operation.touch_of_some _ _ hlocation]
      cases location with
      | voice channel slot =>
        cases channel with
        | dmc =>
          refine h.write ?_ written session.chip.time
          rintro rfl
          rw [Location.eq_of_ofAddress?_level hlocation] at hload
          cases hload
        | _ => exact h
      | status =>
        have haddress := Location.eq_of_ofAddress?_status hlocation
        have hbit : written &&& 0x10 = 0 := by
          simpa [Operation.leavesSampleOff, haddress] using hoff
        have hdisabled : (Status.enables written).dmc = false :=
          decide_eq_false fun hset => hset hbit
        show (session.chip.dmc.clearIrq.setEnabled (Status.enables written).dmc session.bus
          session.chip.time).1.Holds value pending
        rw [hdisabled]
        exact h.disable ..
      | _ => exact h
  | reset => exact Bool.noConfusion hoff
  | takeStall => exact ⟨h.silent, h.buffer, h.dac, h.level⟩
  | runFrame time count => exact ⟨h.silent, h.buffer, h.dac, h.level⟩
  | _ => exact h

theorem holds_touch_load (h : session.chip.dmc.Holds value pending) (time : Int)
    (loaded : UInt8) :
    (Operation.touch session (.write time 0x4011 loaded)).chip.dmc.Holds loaded
      (Dmc.table loaded - Dmc.table value) := by
  have hlocation : Location.ofAddress? 0x4011 = some (.voice .dmc .second) := by decide
  rw [Operation.touch_of_some _ _ hlocation]
  exact h.load loaded session.chip.time

end Session

/-! ### Histories -/

theorem Step.total_map_rebase (origin : Int) (steps : List Step) :
    total (steps.map (rebase origin)) = total steps := by
  induction steps with
  | nil => rfl
  | cons step steps ih =>
    rw [List.map_cons, total, total, ih]
    rfl

namespace Score

/-- The loads of a history that were accepted, each with its clock from the start. -/
def loads (score : Score) : List Operation → List (Int × UInt8)
  | [] => []
  | operation :: operations =>
    let later := (score.play operation).loads operations
    match operation.load?, score.console.perform operation with
    | some (time, value), .ok _ => (score.origin + time, value) :: later
    | _, _ => later

variable {score : Score} {operation : Operation} {operations : List Operation}
  {outcome : Outcome} {next : Console} {value : UInt8} {pending : Int}

theorem loads_of_error {fault : Fault} (h : score.console.perform operation = .error fault) :
    score.loads (operation :: operations) = (score.play operation).loads operations := by
  simp only [loads, h]
  cases operation.load? <;> rfl

theorem loads_of_none (h : operation.load? = none) :
    score.loads (operation :: operations) = (score.play operation).loads operations := by
  simp only [loads, h]

theorem loads_of_some {time : Int} (hload : operation.load? = some (time, value))
    (h : score.console.perform operation = .ok (outcome, next)) :
    score.loads (operation :: operations) =
      (score.origin + time, value) :: (score.play operation).loads operations := by
  simp only [loads, hload, h]

theorem reached_le_accept (h : score.console.perform operation = .ok (outcome, next)) :
    score.reached ≤ (score.accept operation outcome next).reached := by
  rw [reached_accept h]
  unfold reached
  omega

/-- A load is made at the clock that the chip then comes to. -/
theorem reached_accept_load {time : Int} (hload : operation.load? = some (time, value))
    (h : score.console.perform operation = .ok (outcome, next)) :
    (score.accept operation outcome next).reached = score.origin + time := by
  obtain rfl := Operation.eq_of_load? hload
  have hle : score.now ≤ time := ((Console.perform_ok h).2.2 time rfl).1
  have hlocation : Location.ofAddress? 0x4011 = some (.voice .dmc .second) := by decide
  rw [reached_accept h, Operation.stop_of_some _ _ hlocation, Int.max_eq_right hle]

theorem reached_le_loads (score : Score) (operations : List Operation) :
    ∀ load ∈ score.loads operations, score.reached ≤ load.1 := by
  induction operations generalizing score with
  | nil => exact fun _ hmem => absurd hmem List.not_mem_nil
  | cons operation operations ih =>
    cases hperform : score.console.perform operation with
    | error fault =>
      rw [loads_of_error hperform, play_of_error hperform]
      exact ih { score with refused := score.refused ++ [fault] }
    | ok result =>
      have hle := reached_le_accept hperform
      have hlater := ih (score.accept operation result.1 result.2)
      cases hload : operation.load? with
      | none =>
        rw [loads_of_none hload, play_of_ok hperform]
        exact fun load hmem => Int.le_trans hle (hlater load hmem)
      | some load =>
        have hreached := reached_accept_load hload hperform
        rw [loads_of_some hload hperform, play_of_ok hperform, ← hreached]
        exact List.forall_mem_cons.mpr
          ⟨hle, fun load hmem => Int.le_trans hle (hlater load hmem)⟩

/-- The clocks of loads do not fall. -/
theorem loads_sorted (score : Score) (operations : List Operation) :
    (score.loads operations).Pairwise (·.1 ≤ ·.1) := by
  induction operations generalizing score with
  | nil => exact .nil
  | cons operation operations ih =>
    cases hperform : score.console.perform operation with
    | error fault =>
      rw [loads_of_error hperform]
      exact ih _
    | ok result =>
      cases hload : operation.load? with
      | none =>
        rw [loads_of_none hload]
        exact ih _
      | some load =>
        have hreached := reached_accept_load hload hperform
        rw [loads_of_some hload hperform, play_of_ok hperform, ← hreached]
        exact List.pairwise_cons.mpr ⟨reached_le_loads _ operations, ih _⟩

/-- An accepted operation puts out what is pending if the chip goes on to its clock; a load leaves a
step pending of its own, and any other operation leaves pending what was not put out. -/
theorem holds_accept (h : score.console.board.chip.dmc.Holds value pending)
    (hoff : operation.leavesSampleOff = true)
    (hperform : score.console.perform operation = .ok (outcome, next)) :
    let later := score.accept operation outcome next
    Step.total (later.steps .dmc) = Step.total (score.steps .dmc) +
        (if score.reached < later.reached then pending else 0) ∧
      (operation.load? = none → later.console.board.chip.dmc.Holds value
        (if score.reached < later.reached then 0 else pending)) ∧
      ∀ time loaded, operation.load? = some (time, loaded) →
        later.console.board.chip.dmc.Holds loaded (Dmc.table loaded - Dmc.table value) := by
  intro later
  have hgoes : (score.reached < later.reached) = (score.now < operation.stop score.now) := by
    rw [reached_accept hperform]
    unfold reached
    refine propext ⟨fun hlt => ?_, fun hlt => ?_⟩ <;> omega
  have hdmc : later.console.board.chip.dmc = (operation.touch
      (score.console.board.session.runTo (operation.stop score.now))).chip.dmc :=
    (touched hperform).dmc rfl
  obtain ⟨hran, hemits⟩ := score.console.board.session.holds_runTo h
    (operation.stop score.now)
  simp only [hgoes, hdmc]
  refine ⟨?_, ?_, ?_⟩
  · rw [steps_accept, stepsTo, Step.total_append, Step.total_map_rebase, hemits]
    rfl
  · intro hload
    exact Session.holds_touch _ hran hoff hload
  · intro time loaded hload
    obtain rfl := Operation.eq_of_load? hload
    exact Session.holds_touch_load _ hran time loaded

/-- What a history has put out and what it leaves pending: its loads and what was pending before,
but for the steps that were lost.  Nothing is left pending if the history goes on past the last
load. -/
theorem total_playAll (h : score.console.board.chip.dmc.Holds value pending)
    (hoff : ∀ operation ∈ operations, operation.leavesSampleOff = true) :
    let loads := score.loads operations
    let last := score.playAll operations
    ∃ value' pending', last.console.board.chip.dmc.Holds value' pending' ∧
      Step.total (last.steps .dmc) + pending' = Step.total (score.steps .dmc) +
        (if Dmc.isLost score.reached loads then 0 else pending) + Dmc.clicks value loads ∧
      ((pending = 0 ∨ score.reached < last.reached) → (∀ load ∈ loads, load.1 < last.reached) →
        pending' = 0) := by
  induction operations generalizing score value pending with
  | nil =>
    refine ⟨value, pending, h, (Int.add_zero _).symm, ?_⟩
    rintro (hzero | hlt) _
    · exact hzero
    · exact absurd hlt (Int.lt_irrefl _)
  | cons operation operations ih =>
    have hlater := fun operation hmem => hoff operation (.tail _ hmem)
    have hplay : score.playAll (operation :: operations) =
        (score.play operation).playAll operations := rfl
    rw [hplay]
    cases hperform : score.console.perform operation with
    | error fault =>
      rw [loads_of_error hperform, play_of_error hperform]
      exact @ih { score with refused := score.refused ++ [fault] } value pending h hlater
    | ok result =>
      obtain ⟨hsteps, hkeep, hleft⟩ := holds_accept h (hoff operation (.head _)) hperform
      have hle := reached_le_accept hperform
      have hpast := reached_le_loads (score.accept operation result.1 result.2) operations
      cases hsome : operation.load? with
      | none =>
        rw [loads_of_none hsome, play_of_ok hperform]
        have hholds := hkeep hsome
        generalize score.accept operation result.1 result.2 = later at *
        obtain ⟨value', pending', hlast, htotal, hnone⟩ := ih hholds hlater
        refine ⟨value', pending', hlast, ?_, ?_⟩
        · rw [htotal, hsteps]
          -- If the chip went on, what was pending is out, and no later load can take it back.
          by_cases hgoes : score.reached < later.reached
          · have hkept := Dmc.isLost_of_lt fun load hmem =>
              Int.lt_of_lt_of_le hgoes (hpast load hmem)
            simp [hgoes, hkept]
          · have hsame : later.reached = score.reached := by omega
            simp [hsame]
        · intro hstart
          refine hnone ?_
          split
          · exact .inl rfl
          · omega
      | some load =>
        have hholds := hleft _ _ hsome
        have hreached := reached_accept_load hsome hperform
        rw [loads_of_some hsome hperform, play_of_ok hperform, ← hreached]
        generalize score.accept operation result.1 result.2 = later at *
        obtain ⟨value', pending', hlast, htotal, hnone⟩ := ih hholds hlater
        refine ⟨value', pending', hlast, ?_, ?_⟩
        · -- The load takes the place of what is pending, unless the chip went on to reach it.
          have hlost :
              Dmc.isLost score.reached ((later.reached, load.2) :: later.loads operations) =
                decide (later.reached = score.reached) := rfl
          rw [htotal, hsteps, Dmc.clicks, hlost]
          by_cases hgoes : score.reached < later.reached
          · simp [hgoes, Int.ne_of_gt hgoes]
            omega
          · have hsame : later.reached = score.reached := by omega
            simp [hsame]
            omega
        · intro _ hloads
          exact hnone (.inr (hloads _ (.head _))) fun load hmem => hloads load (.tail _ hmem)

/-- From a reset on, while the sample channel stays off, and once the chip has run past the last
load: the steps that the channel has put out are those of its loads along the curve, but of loads at
one clock only the last one is heard.  If no two loads share a clock the steps add up to the curve
at the last level less the curve at rest. -/
theorem loads_follow_curve (console : Console) {operations : List Operation}
    (hoff : ∀ operation ∈ operations, operation.leavesSampleOff = true) :
    let start : Score := { console := console.reset }
    let loads := start.loads operations
    let score := start.playAll operations
    loads.Pairwise (·.1 ≤ ·.1) ∧
      ((∀ load ∈ loads, load.1 < score.reached) →
        Step.total (score.steps .dmc) = Dmc.clicks 0 loads ∧
        (loads.Pairwise (·.1 < ·.1) → ∀ last, loads.getLast? = some last →
          Step.total (score.steps .dmc) = Dmc.table last.2 - Dmc.table 0)) := by
  intro start loads score
  refine ⟨start.loads_sorted operations, ?_⟩
  intro hpast
  have hstart : start.console.board.chip.dmc.Holds 0 0 := by
    show console.reset.board.chip.dmc.Holds 0 0
    rw [Console.reset_chip]
    exact Dmc.holds_restarted _
  obtain ⟨value, pending, _, htotal, hnone⟩ := total_playAll hstart hoff
  have hclicks : Step.total (score.steps .dmc) = Dmc.clicks 0 loads := by
    have hempty : Step.total (start.steps .dmc) = 0 := rfl
    rw [hnone (.inl rfl) hpast, hempty, ite_self, Int.add_zero, Int.zero_add, Int.zero_add]
      at htotal
    exact htotal
  exact ⟨hclicks, fun hapart last hlast => hclicks.trans (Dmc.clicks_of_apart hapart hlast 0)⟩

/-- Two loads at different clocks, a third one in the next frame and the end of that frame. -/
def threeLoads : List Operation :=
  [.write 10 0x4011 127, .write 30 0x4011 255, .runFrame 1000 0, .write 0 0x4011 64,
    .runFrame 500 100]

theorem loads_follow_curve_of_three_loads :
    ∃ console, Console.create (.unconnected 0) .standard = .ok console ∧
      (∀ operation ∈ threeLoads, operation.leavesSampleOff = true) ∧
      let start : Score := { console := console.reset }
      let score := start.playAll threeLoads
      start.loads threeLoads = [(10, 127), (30, 255), (1000, 64)] ∧ score.reached = 1500 ∧
        Step.total (score.steps .dmc) = Dmc.table 64 - Dmc.table 0 ∧
        Dmc.table 64 - Dmc.table 0 = 50 := by
  have hoff : ∀ operation ∈ threeLoads, operation.leavesSampleOff = true := by
    simp [threeLoads, Operation.leavesSampleOff]
  obtain ⟨console, hcreate, hfacts⟩ := exists_ok (Console.create (.unconnected 0) .standard)
    (fun console =>
      let start : Score := { console := console.reset }
      start.loads threeLoads = [(10, 127), (30, 255), (1000, 64)] &&
        (start.playAll threeLoads).reached = 1500)
    (by decide +kernel)
  simp only [Bool.and_eq_true, decide_eq_true_eq] at hfacts
  obtain ⟨hloads, hreached⟩ := hfacts
  obtain ⟨_, hcurve⟩ := loads_follow_curve console hoff
  rw [hloads, hreached] at hcurve
  obtain ⟨_, hapart⟩ := hcurve (by decide)
  exact ⟨console, hcreate, hoff, hloads, hreached, hapart (by decide) (1000, 64) rfl,
    by decide +kernel⟩

/-- Two loads at one clock, the second of which changes nothing. -/
def loadsAtOnce : List Operation :=
  [.write 10 0x4011 127, .write 10 0x4011 127, .runFrame 1000 0]

/-- The first of two loads at one clock is not heard, and the output stays where it was. -/
theorem first_load_unheard :
    ∃ console, Console.create (.unconnected 0) .standard = .ok console ∧
      (∀ operation ∈ loadsAtOnce, operation.leavesSampleOff = true) ∧
      let start : Score := { console := console.reset }
      let score := start.playAll loadsAtOnce
      score.refused.length = 0 ∧ start.loads loadsAtOnce = [(10, 127), (10, 127)] ∧
        score.reached = 1000 ∧ Step.total (score.steps .dmc) = 0 ∧
        Dmc.table 127 - Dmc.table 0 = 83 := by
  have hoff : ∀ operation ∈ loadsAtOnce, operation.leavesSampleOff = true := by
    simp [loadsAtOnce, Operation.leavesSampleOff]
  obtain ⟨console, hcreate, hfacts⟩ := exists_ok (Console.create (.unconnected 0) .standard)
    (fun console =>
      let start : Score := { console := console.reset }
      let score := start.playAll loadsAtOnce
      (score.refused.length = 0 ∧ start.loads loadsAtOnce = [(10, 127), (10, 127)]) ∧
        score.reached = 1000 ∧ Step.total (score.steps .dmc) = 0)
    (by decide +kernel)
  obtain ⟨⟨haccepted, hloads⟩, hreached, htotal⟩ := of_decide_eq_true hfacts
  exact ⟨console, hcreate, hoff, haccepted, hloads, hreached, htotal, by decide +kernel⟩

end Score

end Chiptune
