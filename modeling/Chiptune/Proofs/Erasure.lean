import Chiptune.Proofs.Score

/-! Runs from which operations have been erased.  The others keep their clocks: one with a time of its
own is made at that time, and one without, as soon as the chip has run to the clock at which it was
made in the whole run.  If nothing within the scope can tell the erased operations, the shorter run
trails the whole one to its end (`Trails.replay`). -/

namespace Chiptune

namespace Score

/-- A run of operations, each at its own time. -/
def playAll (score : Score) (operations : List Operation) : Score :=
  operations.foldl play score

/-- The operations of a run, each with the clock at which it is made. -/
def timeline (score : Score) : List Operation → List (Int × Operation)
  | [] => []
  | operation :: operations =>
    (operation.clock score.now, operation) :: (score.play operation).timeline operations

/-- Makes an operation at a clock.  For one that has no time of its own the chip runs there first. -/
def playAt (score : Score) (event : Int × Operation) : Score :=
  match event.2.time? with
  | some _ => score.play event.2
  | none => (score.advance event.1).play event.2

theorem playAt_of_some {operation : Operation} {time : Int} (h : operation.time? = some time)
    (score : Score) (clock : Int) : score.playAt (clock, operation) = score.play operation := by
  unfold playAt
  rw [h]

theorem playAt_of_none {operation : Operation} (h : operation.time? = none) (score : Score)
    (clock : Int) : score.playAt (clock, operation) = (score.advance clock).play operation := by
  unfold playAt
  rw [h]

/-- A run of operations, each at the clock that stands beside it. -/
def replay (score : Score) (events : List (Int × Operation)) : Score :=
  events.foldl playAt score

/-- The operations of a run that are kept, with the clocks at which the whole run makes them. -/
def kept (score : Score) (keep : Operation → Bool) (operations : List Operation) :
    List (Int × Operation) :=
  (score.timeline operations).filter fun event => keep event.2

section Kept

variable {keep : Operation → Bool} {operation : Operation}

theorem kept_cons_of_pos (h : keep operation = true) (score : Score) (operations : List Operation) :
    score.kept keep (operation :: operations) =
      (operation.clock score.now, operation) :: (score.play operation).kept keep operations :=
  List.filter_cons_of_pos h

theorem kept_cons_of_neg (h : keep operation = false) (score : Score)
    (operations : List Operation) :
    score.kept keep (operation :: operations) = (score.play operation).kept keep operations :=
  List.filter_cons_of_neg (by simp [h])

end Kept

theorem playAll_of_ok {score : Score} {operations : List Operation} {outcomes : List Outcome}
    {last : Console} (hrun : score.console.performAll operations = .ok (outcomes, last)) :
    (score.playAll operations).console = last ∧
      (score.playAll operations).samples = score.samples ++ outcomes.flatMap Outcome.handed ∧
      (score.playAll operations).stalls = score.stalls ++ outcomes.flatMap Outcome.collected ∧
      (score.playAll operations).readings.map Reading.status =
        score.readings.map Reading.status ++ outcomes.flatMap Outcome.told ∧
      (score.playAll operations).refused = score.refused := by
  induction operations generalizing score outcomes with
  | nil =>
    cases hrun
    exact ⟨rfl, (List.append_nil _).symm, (List.append_nil _).symm, (List.append_nil _).symm, rfl⟩
  | cons operation operations ih =>
    obtain ⟨outcome, rest, next, hperform, hrest, rfl⟩ := Console.performAll_cons hrun
    obtain ⟨hconsole, hsamples, hstalls, hreadings, hrefused⟩ :=
      @ih (score.accept operation outcome next) rest hrest
    have hplay : score.playAll (operation :: operations) =
        (score.accept operation outcome next).playAll operations :=
      congrArg (playAll · operations) (play_of_ok hperform)
    have htold := Outcome.map_status_readings hperform score.origin score.now
    have hreading : (score.accept operation outcome next).readings =
        score.readings ++ outcome.readings score.origin score.now operation := rfl
    rw [hreading, List.map_append, htold] at hreadings
    simp only [hplay, List.flatMap_cons, ← List.append_assoc]
    exact ⟨hconsole, hsamples, hstalls, hreadings, hrefused⟩

namespace Trails

variable {scope : Scope} {score score' : Score}

theorem playAt (h : Trails scope score score') {operation : Operation}
    (htime : ∀ time, operation.time? = some time → score'.now ≤ time) :
    Trails scope (score.playAt (operation.clock score'.now, operation)) (score'.play operation) := by
  cases hsome : operation.time? with
  | some time =>
    have hclock : operation.clock score.now = time := by
      unfold Operation.clock
      rw [hsome]
      rfl
    have hle := htime time hsome
    rw [playAt_of_some hsome]
    exact h.play (by omega)
  | none =>
    have hclock (now : Int) : operation.clock now = now := by
      unfold Operation.clock
      rw [hsome]
      rfl
    rw [playAt_of_none hsome, hclock]
    refine h.advance.play ?_
    rw [hclock, now_advance]
    omega

/-- Operations that cannot be told within the scope may be erased from a run. -/
theorem replay {keep : Operation → Bool} {operations : List Operation} {outcomes : List Outcome}
    {last : Console} (h : Trails scope score score')
    (hunseen : ∀ operation ∈ operations, keep operation = false → operation.Unseen scope)
    (hrun : score'.console.performAll operations = .ok (outcomes, last)) :
    Trails scope (score.replay (score'.kept keep operations)) (score'.playAll operations) := by
  induction operations generalizing score score' outcomes with
  | nil => exact h
  | cons operation operations ih =>
    obtain ⟨outcome, rest, next, hperform, hrest, _⟩ := Console.performAll_cons hrun
    have hnext : (score'.play operation).console.performAll operations = .ok (rest, last) := by
      rw [play_of_ok hperform]
      exact hrest
    have ih {score : Score} (htrails : Trails scope score (score'.play operation)) :=
      ih htrails (fun operation hmem => hunseen operation (.tail _ hmem)) hnext
    cases hkeep : keep operation with
    | false =>
      rw [kept_cons_of_neg hkeep]
      exact ih (h.erase (hunseen operation (.head _) hkeep) hperform)
    | true =>
      have htime := (Console.perform_ok hperform).2.2
      rw [kept_cons_of_pos hkeep]
      exact ih (h.playAt fun time hsome => (htime time hsome).1)

end Trails

/-! ### Consistent chips -/

/-- The sample channel and the sequencer determine the announced interrupt. -/
theorem earliestIrq_eq {chip chip' : Chip} (h : chip.Consistent) (h' : chip'.Consistent)
    (hdmc : chip'.dmc = chip.dmc) (hsequencer : chip'.sequencer = chip.sequencer) :
    chip'.earliestIrq = chip.earliestIrq := by
  rw [h.current, h'.current]
  unfold Chip.nextIrq Chip.irqPending
  rw [hdmc, hsequencer]

theorem consistent_advance {score : Score} (h : score.console.board.chip.Consistent) (stop : Int) :
    (score.advance stop).console.board.chip.Consistent := by
  show (score.console.absorb (score.console.board.session.runTo stop)).board.chip.Consistent
  rw [Console.absorb_chip]
  exact Session.consistent_runTo h stop

theorem consistent_play {score : Score} (h : score.console.board.chip.Consistent)
    (operation : Operation) : (score.play operation).console.board.chip.Consistent := by
  cases hperform : score.console.perform operation with
  | error fault =>
    rw [play_of_error hperform]
    exact h
  | ok result =>
    obtain ⟨hchip, _, htime⟩ := Console.perform_ok hperform
    rw [play_of_ok hperform]
    show result.2.board.chip.Consistent
    rw [hchip]
    exact Operation.consistent_act _ h fun time hsome => (htime time hsome).1

theorem consistent_replay {score : Score} (h : score.console.board.chip.Consistent)
    (events : List (Int × Operation)) :
    (score.replay events).console.board.chip.Consistent := by
  induction events generalizing score with
  | nil => exact h
  | cons event events ih =>
    refine ih ?_
    unfold playAt
    split
    · exact consistent_play h _
    · exact consistent_play (consistent_advance h _) _

end Score

end Chiptune
