import Chiptune.Console
import Chiptune.Proofs.ChipState

/-! What a host may do with a console, and the states that it can bring about.  `performAll` makes
operations one after the other and stops at the first that is refused.  `act` is what an operation
does to the chip and its bus; it keeps the chip consistent, so every chip that can be reached is. -/

namespace Chiptune

/-- What a host may ask of a console. -/
inductive Operation where
  | write (time : Int) (address : UInt16) (value : UInt8)
  | readStatus (time : Int)
  | runFrame (time : Int) (count : Nat)
  | read (count : Nat)
  | setMuted (position : Nat) (muted : Bool)
  | setVolume (volume : Float)
  | listen (listening : Bool)
  | takeStall
  | reset

/-- What an operation hands back. -/
inductive Outcome where
  | done
  | status (status : Status)
  | samples (samples : Array Int16)
  | stall (cycles : UInt32)
  deriving DecidableEq

/-- The samples that an operation handed out. -/
def Outcome.taken : Outcome → List Int16
  | .samples taken => taken.toList
  | _ => []

namespace Console

/-- Makes an operation. -/
def perform (console : Console) : Operation → Except Fault (Outcome × Console)
  | .write time address value => (console.write time address value).map (.done, ·)
  | .readStatus time => (console.readStatus time).map fun (status, next) => (.status status, next)
  | .runFrame time count =>
    (console.runFrame time count).map fun (samples, next) => (.samples samples, next)
  | .read count =>
    let (samples, next) := console.read count
    .ok (.samples samples, next)
  | .setMuted position muted => (console.setMuted position muted).map (.done, ·)
  | .setVolume volume => .ok (.done, { console with board := console.board.setVolume volume })
  | .listen listening => .ok (.done, { console with board := console.board.listen listening })
  | .takeStall =>
    let (cycles, next) := console.takeStall
    .ok (.stall cycles, next)
  | .reset => .ok (.done, console.reset)

/-- Makes operations until one is refused. -/
def performAll (console : Console) : List Operation → Except Fault (List Outcome × Console)
  | [] => .ok ([], console)
  | operation :: operations =>
    match console.perform operation with
    | .error fault => .error fault
    | .ok (outcome, next) =>
      (next.performAll operations).map fun (outcomes, last) => (outcome :: outcomes, last)

/-- The consoles that a host can bring about. -/
inductive Reachable : Console → Prop where
  | create {bus : Bus} {configuration : Configuration} {console : Console} :
      Console.create bus configuration = .ok console → Reachable console
  | perform {console next : Console} {operation : Operation} {outcome : Outcome} :
      Reachable console → console.perform operation = .ok (outcome, next) → Reachable next

end Console

namespace Operation

/-- The clocks by which an operation moves the start of the frame. -/
def clocks : Operation → Int
  | .runFrame time _ => time
  | _ => 0

/-- The clocks by which operations move the start of the frame. -/
def totalClocks : List Operation → Int
  | [] => 0
  | operation :: operations => operation.clocks + totalClocks operations

/-- The time of an operation that has one. -/
def time? : Operation → Option Int
  | .write time _ _ | .readStatus time | .runFrame time _ => some time
  | _ => none

/-- What an operation does to a chip at work. -/
def act (session : Session) : Operation → Session
  | .write time address value => session.write time address value
  | .readStatus time => (session.readStatus time).2
  | .runFrame time _ => session.endFrame time
  | .takeStall =>
    { session with chip := { session.chip with dmc := session.chip.dmc.takeStall.2 } }
  | .reset => { session with chip := session.chip.reset.1 }
  | _ => session

end Operation

namespace Board

@[simp] theorem hear_chip (board : Board) (notices : Array (Option Int)) :
    (board.hear notices).chip = board.chip := by
  unfold hear
  split <;> rfl

@[simp] theorem hear_bus (board : Board) (notices : Array (Option Int)) :
    (board.hear notices).bus = board.bus := by
  unfold hear
  split <;> rfl

@[simp] theorem hear_mix (board : Board) (notices : Array (Option Int)) :
    (board.hear notices).mix = board.mix := by
  unfold hear
  split <;> rfl

@[simp] theorem hear_muted (board : Board) (notices : Array (Option Int)) :
    (board.hear notices).muted = board.muted := by
  unfold hear
  split <;> rfl

@[simp] theorem hear_listening (board : Board) (notices : Array (Option Int)) :
    (board.hear notices).listening = board.listening := by
  unfold hear
  split <;> rfl

theorem hear_notices (board : Board) (notices : Array (Option Int)) :
    (board.hear notices).notices =
      if board.listening then board.notices ++ notices else board.notices := by
  unfold hear
  split <;> rfl

theorem reset_chip (board : Board) : board.reset.chip = board.chip.reset.1 := by
  unfold reset
  rw [hear_chip]

theorem reset_bus (board : Board) : board.reset.bus = board.bus := by
  unfold reset
  rw [hear_bus]

theorem reset_muted (board : Board) : board.reset.muted = board.muted := by
  unfold reset
  rw [hear_muted]

theorem checkTime_ok {board : Board} {out : StepBuffer} {time : Int} {result : Unit}
    (h : board.checkTime out time = .ok result) :
    board.chip.time ≤ time ∧ time ≤ out.frameCapacity := by
  unfold checkTime at h
  split at h
  · cases h
  · split at h
    · cases h
    · omega

end Board

theorem map_eq_ok {α β : Type} {f : α → β} {result : Except Fault α} {b : β}
    (h : result.map f = .ok b) : ∃ a, result = .ok a ∧ f a = b := by
  cases result with
  | error fault => cases h
  | ok a => exact ⟨a, rfl, Except.ok.inj h⟩

theorem exists_ok {α : Type} (result : Except Fault α) (p : α → Bool)
    (h : result.toOption.any p = true) : ∃ a, result = .ok a ∧ p a = true := by
  cases result with
  | error fault => cases h
  | ok a => exact ⟨a, rfl, h⟩

namespace Console

/-! ### Accepted operations -/

/-- The console after its chip was at work. -/
def absorb (console : Console) (session : Session) : Console :=
  { console with
    board := (console.board.conclude console.buffer session).1
    buffer := (console.board.conclude console.buffer session).2 }

@[simp] theorem absorb_chip (console : Console) (session : Session) :
    (console.absorb session).board.chip = session.chip :=
  Board.hear_chip ..

@[simp] theorem absorb_bus (console : Console) (session : Session) :
    (console.absorb session).board.bus = session.bus :=
  Board.hear_bus ..

@[simp] theorem absorb_mix (console : Console) (session : Session) :
    (console.absorb session).board.mix = console.board.mix :=
  Board.hear_mix ..

@[simp] theorem absorb_muted (console : Console) (session : Session) :
    (console.absorb session).board.muted = console.board.muted :=
  Board.hear_muted ..

section Accepted

variable {console next : Console} {time : Int}

theorem write_ok {address : UInt16} {value : UInt8}
    (h : console.write time address value = .ok next) :
    (console.board.chip.time ≤ time ∧ time ≤ console.buffer.frameCapacity) ∧
      next = console.absorb (console.board.session.write time address value) := by
  obtain ⟨_, hwrite, rfl⟩ := map_eq_ok h
  obtain ⟨_, htime, rfl⟩ := map_eq_ok hwrite
  exact ⟨Board.checkTime_ok htime, rfl⟩

theorem readStatus_ok {status : Status} (h : console.readStatus time = .ok (status, next)) :
    (console.board.chip.time ≤ time ∧ time ≤ console.buffer.frameCapacity) ∧
      next = console.absorb (console.board.session.readStatus time).2 := by
  obtain ⟨_, hread, hnext⟩ := map_eq_ok h
  obtain ⟨_, htime, rfl⟩ := map_eq_ok hread
  cases hnext
  exact ⟨Board.checkTime_ok htime, rfl⟩

/-- The console after a frame, before samples are read. -/
def ended (console : Console) (time : Int) : Console :=
  let ran := console.absorb (console.board.session.endFrame time)
  { ran with buffer := ran.buffer.endFrame time }

theorem runFrame_ok {count : Nat} {samples : Array Int16}
    (h : console.runFrame time count = .ok (samples, next)) :
    (console.board.chip.time ≤ time ∧ time ≤ console.buffer.frameCapacity) ∧
      (samples, next) =
        (console.ended time).read (min count console.configuration.blockSize) := by
  obtain ⟨_, hend, hnext⟩ := map_eq_ok h
  obtain ⟨_, htime, rfl⟩ := map_eq_ok hend
  exact ⟨Board.checkTime_ok htime, hnext.symm⟩

theorem setMuted_ok {position : Nat} {muted : Bool}
    (h : console.setMuted position muted = .ok next) :
    next.board.chip = console.board.chip ∧ next.board.bus = console.board.bus ∧
      (next.buffer = console.buffer ∨ ∃ channel delta,
        next.buffer =
          console.board.deliver console.buffer channel console.board.chip.time delta) := by
  obtain ⟨⟨board, out⟩, hset, rfl⟩ := map_eq_ok h
  unfold Board.setMuted at hset
  split at hset
  · cases hset
  · rename_i channel _
    split at hset
    · cases hset
      exact ⟨rfl, rfl, .inl rfl⟩
    · cases hset
      refine ⟨rfl, rfl, ?_⟩
      dsimp only
      generalize (if muted then -console.board.chip.level channel
        else console.board.chip.level channel) = delta
      split
      · exact .inl rfl
      · exact .inr ⟨channel, delta, rfl⟩

/-- An accepted operation is in time and does to the chip and its bus what `act` says. -/
theorem perform_ok {operation : Operation} {outcome : Outcome}
    (h : console.perform operation = .ok (outcome, next)) :
    next.board.chip = (operation.act console.board.session).chip ∧
      next.board.bus = (operation.act console.board.session).bus ∧
      ∀ time, operation.time? = some time →
        console.board.chip.time ≤ time ∧ time ≤ console.buffer.frameCapacity := by
  cases operation with
  | write time address value =>
    obtain ⟨_, hwrite, hnext⟩ := map_eq_ok h
    cases hnext
    obtain ⟨htime, rfl⟩ := write_ok hwrite
    exact ⟨absorb_chip .., absorb_bus .., fun _ h => Option.some.inj h ▸ htime⟩
  | readStatus time =>
    obtain ⟨⟨_, _⟩, hread, hnext⟩ := map_eq_ok h
    cases hnext
    obtain ⟨htime, rfl⟩ := readStatus_ok hread
    exact ⟨absorb_chip .., absorb_bus .., fun _ h => Option.some.inj h ▸ htime⟩
  | runFrame time count =>
    obtain ⟨⟨samples, _⟩, hrun, hnext⟩ := map_eq_ok h
    cases hnext
    obtain ⟨htime, hread⟩ := runFrame_ok hrun
    cases hread
    exact ⟨absorb_chip .., absorb_bus .., fun _ h => Option.some.inj h ▸ htime⟩
  | setMuted position muted =>
    obtain ⟨_, hset, hnext⟩ := map_eq_ok h
    cases hnext
    obtain ⟨hchip, hbus, _⟩ := setMuted_ok hset
    exact ⟨hchip, hbus, fun _ h => by cases h⟩
  | reset =>
    cases h
    refine ⟨?_, ?_, fun _ h => by cases h⟩
    · simp only [Console.reset, Operation.act, Board.session, Board.reset_chip]
    · simp only [Console.reset, Operation.act, Board.session, Board.reset_bus]
  | _ =>
    cases h
    exact ⟨rfl, rfl, fun _ h => by cases h⟩

end Accepted

theorem performAll_cons {console last : Console} {operation : Operation}
    {operations : List Operation} {outcomes : List Outcome}
    (h : console.performAll (operation :: operations) = .ok (outcomes, last)) :
    ∃ outcome rest next, console.perform operation = .ok (outcome, next) ∧
      next.performAll operations = .ok (rest, last) ∧ outcomes = outcome :: rest := by
  unfold performAll at h
  split at h
  · cases h
  · rename_i outcome next hperform
    obtain ⟨⟨rest, _⟩, hrest, hlast⟩ := map_eq_ok h
    cases hlast
    exact ⟨outcome, rest, next, hperform, hrest, rfl⟩

theorem performAll_append {console last : Console} {operations operations' : List Operation}
    {outcomes : List Outcome}
    (h : console.performAll (operations ++ operations') = .ok (outcomes, last)) :
    ∃ first mid rest, console.performAll operations = .ok (first, mid) ∧
      mid.performAll operations' = .ok (rest, last) ∧ outcomes = first ++ rest := by
  induction operations generalizing console outcomes with
  | nil => exact ⟨[], console, outcomes, rfl, h, rfl⟩
  | cons operation operations ih =>
    obtain ⟨outcome, _, next, hperform, hnext, rfl⟩ := performAll_cons h
    obtain ⟨first, mid, rest, hfirst, hrest, rfl⟩ := ih hnext
    refine ⟨outcome :: first, mid, rest, ?_, hrest, rfl⟩
    rw [performAll, hperform]
    simp only [hfirst]
    rfl

end Console

namespace Operation

/-- An operation in time keeps the chip consistent. -/
theorem consistent_act (session : Session) (h : session.chip.Consistent) {operation : Operation}
    (htime : ∀ time, operation.time? = some time → session.chip.time ≤ time) :
    (operation.act session).chip.Consistent := by
  cases operation with
  | write time address value => exact Session.consistent_write h (htime time rfl) address value
  | readStatus time => exact Session.consistent_readStatus h time
  | runFrame time count => exact (Session.consistent_endFrame h (htime time rfl)).2
  | takeStall =>
    exact ⟨⟨h.time_nonneg, h.tones, h.dmc_delay,
      ⟨⟨h.dmc.enabled_iff, h.dmc.buffered, h.dmc.ends, h.dmc.permitted⟩, h.dmc.predicted⟩,
      h.sequencer_delay, h.sequencer⟩, h.current⟩
  | reset => exact (Chip.consistent_reset _).1
  | _ => exact h

/-- No operation takes the chip past a clock that is past the chip and the operation. -/
theorem act_time_le (session : Session) {operation : Operation} {bound : Int}
    (hzero : 0 ≤ bound) (hnow : session.chip.time ≤ bound)
    (htime : ∀ time, operation.time? = some time → session.chip.time ≤ time ∧ time ≤ bound) :
    (operation.act session).chip.time ≤ bound := by
  cases operation with
  | write time address value =>
    obtain ⟨_, hle⟩ := htime time rfl
    show (session.write time address value).chip.time ≤ bound
    cases hlocation : Location.ofAddress? address with
    | none => rwa [Session.write_of_none hlocation]
    | some location =>
      rw [Session.write_time hlocation]
      omega
  | readStatus time =>
    obtain ⟨_, hle⟩ := htime time rfl
    show (session.readStatus time).2.chip.time ≤ bound
    rw [Session.readStatus_time]
    omega
  | runFrame time count =>
    show (session.endFrame time).chip.time ≤ bound
    rwa [Session.endFrame_time (htime time rfl).1]
  | reset =>
    show session.chip.reset.1.time ≤ bound
    rwa [(Chip.consistent_reset _).2]
  | _ => exact hnow

/-- No operation but a reset takes the chip back in time. -/
theorem time_le_act (session : Session) {operation : Operation} (hreset : operation ≠ .reset)
    (htime : ∀ time, operation.time? = some time → session.chip.time ≤ time) :
    session.chip.time ≤ (operation.act session).chip.time + operation.clocks := by
  cases operation with
  | write time address value =>
    show session.chip.time ≤ (session.write time address value).chip.time + 0
    cases hlocation : Location.ofAddress? address with
    | none =>
      rw [Session.write_of_none hlocation]
      omega
    | some location =>
      rw [Session.write_time hlocation]
      omega
  | readStatus time =>
    show session.chip.time ≤ (session.readStatus time).2.chip.time + 0
    rw [Session.readStatus_time]
    omega
  | runFrame time count =>
    have hle := htime time rfl
    show session.chip.time ≤ (session.endFrame time).chip.time + time
    rw [Session.endFrame_time hle]
    omega
  | reset => exact absurd rfl hreset
  | _ => exact Int.le_add_of_nonneg_right (Int.le_refl 0)

end Operation

namespace Console

theorem create_ok {bus : Bus} {configuration : Configuration} {console : Console}
    (h : Console.create bus configuration = .ok console) :
    ∃ buffer, StepBuffer.create configuration.sampleRate configuration.clockRate
        configuration.bufferLengthMs = .ok buffer ∧
      console = Console.reset
        { board := (Board.create configuration.region bus).setVolume configuration.volume
          buffer
          configuration } := by
  unfold Console.create at h
  simp only [bind, Except.bind] at h
  split at h
  · cases h
  · split at h
    · cases h
    · rename_i buffer hbuffer
      exact ⟨buffer, hbuffer, (Except.ok.inj h).symm⟩

/-- The chip of every console that can be reached is consistent. -/
theorem Reachable.consistent {console : Console} (h : Reachable console) :
    console.board.chip.Consistent := by
  induction h with
  | create hcreate =>
    obtain ⟨buffer, _, rfl⟩ := create_ok hcreate
    simp only [Console.reset, Board.reset_chip]
    exact (Chip.consistent_reset _).1
  | perform _ hperform ih =>
    obtain ⟨hchip, _, htime⟩ := perform_ok hperform
    rw [hchip]
    exact Operation.consistent_act _ ih fun time ht => (htime time ht).1

theorem Reachable.performAll {console last : Console} {operations : List Operation}
    {outcomes : List Outcome} (h : Reachable console)
    (hrun : console.performAll operations = .ok (outcomes, last)) : Reachable last := by
  induction operations generalizing console outcomes with
  | nil =>
    cases hrun
    exact h
  | cons operation operations ih =>
    obtain ⟨_, _, next, hperform, hrest, _⟩ := performAll_cons hrun
    exact ih (h.perform hperform) hrest

theorem consistent_performAll {console last : Console} {operations : List Operation}
    {outcomes : List Outcome} (h : console.board.chip.Consistent)
    (hrun : console.performAll operations = .ok (outcomes, last)) :
    last.board.chip.Consistent := by
  induction operations generalizing console outcomes with
  | nil =>
    cases hrun
    exact h
  | cons operation operations ih =>
    obtain ⟨_, _, next, hperform, hrest, _⟩ := performAll_cons hrun
    obtain ⟨hchip, _, htime⟩ := perform_ok hperform
    refine ih ?_ hrest
    rw [hchip]
    exact Operation.consistent_act _ h fun time ht => (htime time ht).1

theorem time_le_performAll {console last : Console} {operations : List Operation}
    {outcomes : List Outcome} (hreset : .reset ∉ operations)
    (hrun : console.performAll operations = .ok (outcomes, last)) :
    console.board.chip.time ≤ last.board.chip.time + Operation.totalClocks operations := by
  induction operations generalizing console outcomes with
  | nil =>
    cases hrun
    exact Int.le_add_of_nonneg_right (Int.le_refl 0)
  | cons operation operations ih =>
    obtain ⟨_, _, next, hperform, hrest, _⟩ := performAll_cons hrun
    obtain ⟨hchip, _, htime⟩ := perform_ok hperform
    have hnext := ih (fun h => hreset (.tail _ h)) hrest
    have hstep := Operation.time_le_act console.board.session
      (fun h => hreset (h ▸ .head _)) fun time ht => (htime time ht).1
    rw [← hchip] at hstep
    rw [Operation.totalClocks]
    have hstep : console.board.chip.time ≤ next.board.chip.time + operation.clocks := hstep
    omega

/-- What `forecast` says of a clock that is still to come stays true through a whole run, if it
stays true through each of the operations that are allowed in it. -/
theorem forecast_performAll {α : Type} (forecast : Chip → Bus → Int → α)
    {allowed : Operation → Bool} (hreset : allowed .reset = false)
    (hact : ∀ (session : Session) (operation : Operation) (stop : Int), session.chip.Consistent →
      (∀ time, operation.time? = some time → session.chip.time ≤ time) →
      allowed operation = true → (operation.act session).chip.time + operation.clocks ≤ stop →
      forecast (operation.act session).chip (operation.act session).bus (stop - operation.clocks) =
        forecast session.chip session.bus stop)
    {console last : Console} {operations : List Operation} {outcomes : List Outcome}
    (h : console.board.chip.Consistent)
    (hallowed : ∀ operation ∈ operations, allowed operation = true)
    (hrun : console.performAll operations = .ok (outcomes, last)) {stop : Int}
    (hstop : last.board.chip.time + Operation.totalClocks operations ≤ stop) :
    forecast last.board.chip last.board.bus (stop - Operation.totalClocks operations) =
      forecast console.board.chip console.board.bus stop := by
  induction operations generalizing console outcomes stop with
  | nil =>
    cases hrun
    show forecast last.board.chip last.board.bus (stop - 0) = _
    rw [Int.sub_zero]
  | cons operation operations ih =>
    obtain ⟨_, _, next, hperform, hrest, _⟩ := performAll_cons hrun
    obtain ⟨hchip, hbus, htime⟩ := perform_ok hperform
    have hinTime := fun time ht => (htime time ht).1
    have hlater : .reset ∉ operations := by
      intro hmem
      have hnone := hallowed _ (.tail _ hmem)
      rw [hreset] at hnone
      exact Bool.noConfusion hnone
    have hle := time_le_performAll hlater hrest
    rw [Operation.totalClocks] at hstop ⊢
    have hstep : forecast next.board.chip next.board.bus (stop - operation.clocks) =
        forecast console.board.chip console.board.bus stop := by
      have hnow : (operation.act console.board.session).chip.time + operation.clocks ≤ stop := by
        rw [← hchip]
        omega
      rw [hchip, hbus]
      exact hact console.board.session operation stop h hinTime (hallowed operation (.head _)) hnow
    have hnext : next.board.chip.Consistent := by
      rw [hchip]
      exact Operation.consistent_act _ h hinTime
    rw [← Int.sub_sub, ← hstep]
    exact ih hnext (fun operation hmem => hallowed operation (.tail _ hmem)) hrest (by omega)

end Console

end Chiptune
