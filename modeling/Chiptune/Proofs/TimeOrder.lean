import Chiptune.Proofs.History

/-! The order of the times in a frame.  An operation is refused if its time comes before the clock to
which the chip has run.  For all operations but one this clock is the largest time that was accepted
since the frame began (`Clocked`): a write outside the chip's range is checked like any other, but the
chip does not run for it. -/

namespace Chiptune

/-- Whether an address is one of the chip's. -/
def Location.inRange (address : UInt16) : Bool := firstAddress ≤ address && address ≤ lastAddress

theorem Location.isSome_ofAddress? (address : UInt16) :
    (ofAddress? address).isSome = inRange address := by
  unfold ofAddress? inRange
  by_cases hrange : address < firstAddress ∨ lastAddress < address
  · rw [if_pos hrange]
    rcases hrange with hlow | hhigh
    · simp [UInt16.not_le.mpr hlow]
    · simp [UInt16.not_le.mpr hhigh]
  · obtain ⟨hlow, hhigh⟩ := not_or.mp hrange
    rw [if_neg hrange]
    simp only [UInt16.not_lt.mp hlow, UInt16.not_lt.mp hhigh, decide_true, Bool.and_self]
    split
    · rfl
    · split
      · rfl
      · split <;> rfl

namespace Board

variable {board : Board} {out : StepBuffer} {time : Int}

theorem checkTime_of_early (h : time < board.chip.time) :
    board.checkTime out time = .error (.timeRegression time board.chip.time) :=
  if_pos h

theorem checkTime_of_late (hnow : board.chip.time ≤ time) (h : out.frameCapacity < time) :
    board.checkTime out time = .error (.frameOverflow time out.frameCapacity) := by
  unfold checkTime
  rw [if_neg (Int.not_lt.mpr hnow), if_pos h]

theorem checkTime_of_within (hnow : board.chip.time ≤ time) (h : time ≤ out.frameCapacity) :
    board.checkTime out time = .ok () := by
  unfold checkTime
  rw [if_neg (Int.not_lt.mpr hnow), if_neg (Int.not_lt.mpr h)]

end Board

namespace Console

/-- An operation that has a time depends on the check of that time, and on nothing else. -/
theorem exists_perform_eq (console : Console) {operation : Operation} {time : Int}
    (h : operation.time? = some time) :
    ∃ result, console.perform operation =
      (console.board.checkTime console.buffer time).map fun _ => result := by
  cases operation with
  | write time address value =>
    obtain rfl := Option.some.inj h
    exact ⟨_, console.perform_write time address value⟩
  | readStatus time =>
    obtain rfl := Option.some.inj h
    exact ⟨_, console.perform_readStatus time⟩
  | runFrame time count =>
    obtain rfl := Option.some.inj h
    exact ⟨_, console.perform_runFrame time count⟩
  | _ => cases h

end Console

/-- The largest time that was accepted since the frame began, after another operation.  Only writes to
addresses that are `counted` change it. -/
def Operation.latest (counted : UInt16 → Bool) (latest : Int) : Operation → Int
  | .write time address _ => if counted address then max latest time else latest
  | .readStatus time => max latest time
  | .runFrame _ _ | .reset => 0
  | _ => latest

theorem Operation.act_time (session : Session) {operation : Operation}
    (htime : ∀ time, operation.time? = some time → session.chip.time ≤ time) :
    (operation.act session).chip.time = operation.latest Location.inRange session.chip.time := by
  cases operation with
  | write time address value =>
    show (session.write time address value).chip.time = _
    simp only [latest, ← Location.isSome_ofAddress?]
    cases hlocation : Location.ofAddress? address with
    | none =>
      rw [Session.write_of_none hlocation]
      rfl
    | some location =>
      rw [Session.write_time hlocation]
      rfl
  | readStatus time => exact session.readStatus_time time
  | runFrame time count => exact Session.endFrame_time (htime time rfl)
  | reset => exact (Chip.consistent_reset _).2
  | _ => rfl

/-- A console with the largest time that it accepted since the frame began. -/
structure Clocked where
  console : Console
  latest : Int := 0

namespace Clocked

/-- An operation.  A refused one changes nothing, also not the largest time. -/
def step (counted : UInt16 → Bool) (clocked : Clocked) (operation : Operation) : Clocked :=
  match clocked.console.perform operation with
  | .error _ => clocked
  | .ok (_, next) => { console := next, latest := operation.latest counted clocked.latest }

theorem time_step {clocked : Clocked} (h : clocked.console.board.chip.time = clocked.latest)
    (operation : Operation) :
    (clocked.step Location.inRange operation).console.board.chip.time =
      (clocked.step Location.inRange operation).latest := by
  unfold step
  split
  · exact h
  · rename_i outcome next hperform
    obtain ⟨hchip, _, htime⟩ := Console.perform_ok hperform
    show next.board.chip.time = operation.latest Location.inRange clocked.latest
    rw [hchip, ← h]
    exact Operation.act_time _ fun time ht => (htime time ht).1

theorem time_run {clocked : Clocked} (h : clocked.console.board.chip.time = clocked.latest)
    (operations : List Operation) :
    (operations.foldl (step Location.inRange) clocked).console.board.chip.time =
      (operations.foldl (step Location.inRange) clocked).latest := by
  induction operations generalizing clocked with
  | nil => exact h
  | cons operation operations ih => exact ih (time_step h operation)

/-- Within the horizon an operation is accepted just if its time is not before the largest that was
accepted since the frame began, writes outside the chip's range not counted.  A time before that one
is a regression, and any other past the horizon an overflow. -/
theorem accepted_iff_latest_le {bus : Bus} {configuration : Configuration} {console : Console}
    (hcreate : Console.create bus configuration = .ok console) (operations : List Operation) :
    let clocked := operations.foldl (step Location.inRange) { console }
    let capacity := clocked.console.buffer.frameCapacity
    clocked.console.board.chip.time = clocked.latest ∧
      ∀ operation time, operation.time? = some time →
        (time < clocked.latest →
          clocked.console.perform operation = .error (.timeRegression time clocked.latest)) ∧
        (clocked.latest ≤ time → capacity < time →
          clocked.console.perform operation = .error (.frameOverflow time capacity)) ∧
        (time ≤ capacity →
          ((∃ outcome next, clocked.console.perform operation = .ok (outcome, next)) ↔
            clocked.latest ≤ time)) := by
  intro clocked capacity
  have hstart : console.board.chip.time = 0 := by
    obtain ⟨buffer, _, rfl⟩ := Console.create_ok hcreate
    simp only [Console.reset, Board.reset_chip, (Chip.consistent_reset _).2]
  have htime : clocked.console.board.chip.time = clocked.latest := time_run hstart operations
  refine ⟨htime, ?_⟩
  intro operation time hoperation
  obtain ⟨result, hperform⟩ := clocked.console.exists_perform_eq hoperation
  rw [hperform, ← htime]
  refine ⟨?_, ?_, ?_⟩
  · intro hearly
    rw [Board.checkTime_of_early hearly]
    rfl
  · intro hnow hlate
    rw [Board.checkTime_of_late hnow hlate]
    rfl
  · intro hcapacity
    constructor
    · rintro ⟨outcome, next, hok⟩
      obtain ⟨_, hcheck, _⟩ := map_eq_ok hok
      exact (Board.checkTime_ok hcheck).1
    · intro hnow
      rw [Board.checkTime_of_within hnow hcapacity]
      exact ⟨result.1, result.2, rfl⟩

/-- A frame, and in the next one two writes and a status read. -/
def twoWrites : List Operation :=
  [.write 700 0x4015 1, .runFrame 1000 0, .write 100 0x4003 8, .readStatus 300, .write 250 0x4002 1]

theorem accepted_iff_latest_le_of_two_writes :
    ∃ console, Console.create (.unconnected 0) .standard = .ok console ∧
      (twoWrites.foldl (step Location.inRange) { console }).latest = 300 ∧
      (twoWrites.foldl (step Location.inRange) { console }).console.perform (.runFrame 299 0) =
        .error (.timeRegression 299 300) := by
  obtain ⟨console, hcreate, hlatest⟩ := exists_ok
    (Console.create (.unconnected 0) .standard)
    (fun console => (twoWrites.foldl (step Location.inRange) { console }).latest = 300)
    (by decide +kernel)
  have hlatest := of_decide_eq_true hlatest
  obtain ⟨_, hordered⟩ := accepted_iff_latest_le hcreate twoWrites
  have hearly := (hordered (.runFrame 299 0) 299 rfl).1
  rw [hlatest] at hearly
  exact ⟨console, hcreate, hlatest, hearly (by decide)⟩

/-- A write outside the chip's range is accepted at clock 100, and after it one at clock 50. -/
theorem accepted_before_latest :
    ∃ console, Console.create (.unconnected 0) .standard = .ok console ∧
      let clocked := step (fun _ => true) { console } (.write 100 0x5000 0)
      clocked.latest = 100 ∧
        ∃ outcome next, clocked.console.perform (.write 50 0x4015 0) = .ok (outcome, next) := by
  obtain ⟨console, hcreate, hfacts⟩ := exists_ok
    (Console.create (.unconnected 0) .standard)
    (fun console =>
      let clocked := step (fun _ => true) { console } (.write 100 0x5000 0)
      clocked.latest = 100 && (clocked.console.perform (.write 50 0x4015 0)).toOption.isSome)
    (by decide +kernel)
  obtain ⟨hlatest, haccepted⟩ := Bool.and_eq_true_iff.mp hfacts
  refine ⟨console, hcreate, of_decide_eq_true hlatest, ?_⟩
  obtain ⟨⟨outcome, next⟩, hperform, _⟩ := exists_ok _ (fun _ => true) haccepted
  exact ⟨outcome, next, hperform⟩

end Clocked

end Chiptune
