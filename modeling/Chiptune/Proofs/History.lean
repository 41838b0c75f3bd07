import Chiptune.Proofs.Horizon

/-! Histories in which operations may be refused.  `attempt` makes an operation or answers why not,
and one that is refused changes nothing.  A console that could be reached before can be reached
after any history, and its chip is always consistent and within the horizon of its output. -/

namespace Chiptune

namespace Console

/-- Makes an operation, or answers with the fault for which it is refused and changes nothing. -/
def attempt (console : Console) (operation : Operation) : Except Fault Outcome × Console :=
  match console.perform operation with
  | .error fault => (.error fault, console)
  | .ok (outcome, next) => (.ok outcome, next)

/-- The console after operations, each of which may have been refused. -/
def attemptAll (console : Console) (operations : List Operation) : Console :=
  operations.foldl (fun console operation => (console.attempt operation).2) console

/-- The answers to operations, each of which may be refused. -/
def answers (console : Console) : List Operation → List (Except Fault Outcome)
  | [] => []
  | operation :: operations =>
    (console.attempt operation).1 :: (console.attempt operation).2.answers operations

theorem attempt_of_ok {console next : Console} {operation : Operation} {outcome : Outcome}
    (h : console.perform operation = .ok (outcome, next)) :
    console.attempt operation = (.ok outcome, next) := by
  unfold attempt
  rw [h]

theorem attempt_of_error {console : Console} {operation : Operation} {fault : Fault}
    (h : console.perform operation = .error fault) :
    console.attempt operation = (.error fault, console) := by
  unfold attempt
  rw [h]

theorem attemptAll_cons (console : Console) (operation : Operation)
    (operations : List Operation) :
    console.attemptAll (operation :: operations) =
      (console.attempt operation).2.attemptAll operations := rfl

/-- What every accepted operation preserves holds after every history. -/
theorem attemptAll_invariant {P : Console → Prop}
    (hstep : ∀ {console next : Console} {operation : Operation} {outcome : Outcome}, P console →
      console.perform operation = .ok (outcome, next) → P next)
    {console : Console} (h : P console) (operations : List Operation) :
    P (console.attemptAll operations) := by
  induction operations generalizing console with
  | nil => exact h
  | cons operation operations ih =>
    rw [attemptAll_cons]
    refine ih ?_
    cases hperform : console.perform operation with
    | error fault => rwa [attempt_of_error hperform]
    | ok result =>
      rw [attempt_of_ok hperform]
      exact hstep h hperform

theorem Reachable.reset {console : Console} (h : Reachable console) : Reachable console.reset :=
  have hperform : console.perform .reset = .ok (.done, console.reset) := rfl
  h.perform hperform

theorem Reachable.attemptAll {console : Console} (h : Reachable console)
    (operations : List Operation) : Reachable (console.attemptAll operations) :=
  attemptAll_invariant Reachable.perform h operations

/-- Every console that can be reached has an account in balance. -/
theorem Reachable.balanced {console : Console} (h : Reachable console) :
    ∃ factor clocks handed, factor ≤ Resampler.unit ∧
      Account.Balanced factor { console, clocks, handed } := by
  induction h with
  | create hcreate =>
    obtain ⟨⟨_, hunit⟩, hbalanced⟩ := Account.balanced_create hcreate
    exact ⟨_, 0, 0, hunit, hbalanced⟩
  | perform _ hperform ih =>
    obtain ⟨factor, clocks, handed, hunit, hbalanced⟩ := ih
    obtain ⟨clocks, handed, hnext⟩ := hbalanced.perform hunit hperform
    exact ⟨factor, clocks, handed, hunit, hnext⟩

theorem Reachable.inTime {console : Console} (h : Reachable console) :
    console.board.chip.time ≤ console.buffer.frameCapacity := by
  obtain ⟨_, _, _, _, hbalanced⟩ := h.balanced
  exact hbalanced.inTime

/-! ### Checks

Whether an operation that has a time is refused depends on the check of that time alone, and whether
a switch is refused on its position. -/

section Checks

variable (console : Console) (time : Int)

theorem perform_write (address : UInt16) (value : UInt8) :
    console.perform (.write time address value) =
      (console.board.checkTime console.buffer time).map fun _ =>
        (.done, console.absorb (console.board.session.write time address value)) := by
  show Except.map _ (Except.map _ (Except.map _ _)) = _
  cases console.board.checkTime console.buffer time with
  | error fault => rfl
  | ok => rfl

theorem perform_readStatus :
    console.perform (.readStatus time) =
      (console.board.checkTime console.buffer time).map fun _ =>
        (.status (console.board.session.readStatus time).1,
          console.absorb (console.board.session.readStatus time).2) := by
  show Except.map _ (Except.map _ (Except.map _ _)) = _
  cases console.board.checkTime console.buffer time with
  | error fault => rfl
  | ok => rfl

theorem perform_runFrame (count : Nat) :
    console.perform (.runFrame time count) =
      (console.board.checkTime console.buffer time).map fun _ =>
        (.samples ((console.ended time).read (min count console.configuration.blockSize)).1,
          ((console.ended time).read (min count console.configuration.blockSize)).2) := by
  show Except.map _ (Except.map _ (Except.map _ _)) = _
  cases console.board.checkTime console.buffer time with
  | error fault => rfl
  | ok => rfl

/-- Two consoles whose checks agree both refuse an operation with the same fault, or neither does. -/
theorem attempt_of_checks {α : Type} {f : Outcome → α} {R : Console → Console → Prop}
    {console console' next next' : Console} {operation : Operation} {outcome outcome' : Outcome}
    {time : Int}
    (hcheck : console'.board.checkTime console'.buffer time =
      console.board.checkTime console.buffer time)
    (hperform : console.perform operation =
      (console.board.checkTime console.buffer time).map fun _ => (outcome, next))
    (hperform' : console'.perform operation =
      (console'.board.checkTime console'.buffer time).map fun _ => (outcome', next'))
    (h : R console console') (houtcome : f outcome' = f outcome) (hnext : R next next') :
    (console'.attempt operation).1.map f = (console.attempt operation).1.map f ∧
      R (console.attempt operation).2 (console'.attempt operation).2 := by
  rw [hcheck] at hperform'
  cases hresult : console.board.checkTime console.buffer time with
  | error fault =>
    rw [hresult] at hperform hperform'
    rw [attempt_of_error hperform, attempt_of_error hperform']
    exact ⟨rfl, h⟩
  | ok =>
    rw [hresult] at hperform hperform'
    rw [attempt_of_ok hperform, attempt_of_ok hperform']
    exact ⟨congrArg Except.ok houtcome, hnext⟩

/-- The console after a channel was switched off or on: the level that the channel holds is taken from
the output or given back. -/
def switched (channel : Channel) (muted : Bool) : Console :=
  let level := console.board.chip.level channel
  let delta := if muted then -level else level
  { console with
    board := { console.board with muted := console.board.muted.set channel muted }
    buffer :=
      if delta = 0 then console.buffer
      else console.board.deliver console.buffer channel console.board.chip.time delta }

theorem switched_invariant {P : StepBuffer → Prop}
    (hput : ∀ out time delta, P out → P (out.put time delta)) (h : P console.buffer)
    (channel : Channel) (muted : Bool) : P (console.switched channel muted).buffer := by
  unfold switched
  dsimp only
  generalize (if muted then -console.board.chip.level channel
    else console.board.chip.level channel) = delta
  split
  · exact h
  · exact console.board.deliver_invariant hput h _ _ _

theorem perform_setMuted (position : Nat) (muted : Bool) :
    console.perform (.setMuted position muted) =
      match Channel.ofIndex? position with
      | none =>
        .error (.invalidConfiguration
          s!"channel index {position} out of range (0-{Channel.count - 1})")
      | some channel =>
        .ok (.done,
          if console.board.muted.get channel = muted then console
          else console.switched channel muted) := by
  show Except.map _ (Except.map _ _) = _
  unfold Board.setMuted
  cases Channel.ofIndex? position with
  | none => rfl
  | some channel =>
    dsimp only
    split
    · rfl
    · rfl

/-- The console after an operation, provided that it is accepted. -/
def accepting : Operation → Console
  | .write time address value => console.absorb (console.board.session.write time address value)
  | .readStatus time => console.absorb (console.board.session.readStatus time).2
  | .runFrame time count =>
    ((console.ended time).read (min count console.configuration.blockSize)).2
  | .read count => (console.read count).2
  | .setMuted position muted =>
    match Channel.ofIndex? position with
    | none => console
    | some channel =>
      if console.board.muted.get channel = muted then console else console.switched channel muted
  | .setVolume volume => { console with board := console.board.setVolume volume }
  | .listen listening => { console with board := console.board.listen listening }
  | .takeStall => console.takeStall.2
  | .reset => console.reset

theorem accepting_setMuted (position : Nat) (muted : Bool) :
    console.accepting (.setMuted position muted) =
      match Channel.ofIndex? position with
      | none => console
      | some channel =>
        if console.board.muted.get channel = muted then console
        else console.switched channel muted := rfl

theorem perform_accepting {next : Console} {operation : Operation} {outcome : Outcome}
    (h : console.perform operation = .ok (outcome, next)) : next = console.accepting operation := by
  cases operation with
  | write time address value =>
    rw [perform_write] at h
    obtain ⟨_, _, hnext⟩ := map_eq_ok h
    cases hnext
    rfl
  | readStatus time =>
    rw [perform_readStatus] at h
    obtain ⟨_, _, hnext⟩ := map_eq_ok h
    cases hnext
    rfl
  | runFrame time count =>
    rw [perform_runFrame] at h
    obtain ⟨_, _, hnext⟩ := map_eq_ok h
    cases hnext
    rfl
  | setMuted position muted =>
    rw [perform_setMuted] at h
    rw [accepting_setMuted]
    cases hchannel : Channel.ofIndex? position with
    | none =>
      rw [hchannel] at h
      cases h
    | some channel =>
      rw [hchannel] at h
      cases h
      rfl
  | _ =>
    cases h
    rfl

end Checks

end Console

/-! ### The board after an operation -/

theorem ByChannel.set_get {α : Type} (values : ByChannel α) (channel : Channel) :
    values.set channel (values.get channel) = values := by
  cases channel <;> rfl

namespace Board

theorem hear_nil (board : Board) : board.hear #[] = board := by
  unfold hear
  split
  · simp
  · rfl

/-- The board after an operation, which does not depend on the output. -/
def after (board : Board) : Operation → Board
  | .setMuted position muted =>
    match Channel.ofIndex? position with
    | none => board
    | some channel => { board with muted := board.muted.set channel muted }
  | .setVolume volume => board.setVolume volume
  | .listen listening => board.listen listening
  | .reset => board.reset
  | operation =>
    let session := operation.act board.session
    { board with chip := session.chip, bus := session.bus }.hear session.notices

end Board

namespace Console

theorem accepting_board (console : Console) (operation : Operation) :
    (console.accepting operation).board = console.board.after operation := by
  cases operation with
  | setMuted position muted =>
    rw [accepting_setMuted]
    simp only [Board.after]
    cases Channel.ofIndex? position with
    | none => rfl
    | some channel =>
      dsimp only
      split
      · rename_i hsame
        rw [← hsame, ByChannel.set_get]
      · rfl
  | read count => exact console.board.hear_nil.symm
  | takeStall => exact (Board.hear_nil _).symm
  | _ => rfl

theorem perform_board {console next : Console} {operation : Operation} {outcome : Outcome}
    (h : console.perform operation = .ok (outcome, next)) :
    next.board = console.board.after operation := by
  rw [console.perform_accepting h, accepting_board]

end Console

end Chiptune
