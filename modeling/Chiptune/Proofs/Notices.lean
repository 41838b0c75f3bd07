import Chiptune.Proofs.History
import Chiptune.Proofs.PowerOn
import Mathlib.Data.List.Chain

/-! What a listener on the interrupt line can know.  A session is `Told` if the last of its notices is
what the chip announces now and none of them repeats the one before.  A `Listener` keeps the last
notice and moves it with the start of each frame; from the first notice on it has the time of the next
interrupt, which is always the earlier of the two predictions. -/

namespace Chiptune

namespace Session

/-- Since `start` was announced, every notice changed what the one before said, and the last one says
what is announced now. -/
structure Told (start : Option Int) (session : Session) : Prop where
  current : session.notices.toList.getLastD start = session.chip.earliestIrq
  changed : (start :: session.notices.toList).IsChain (· ≠ ·)

theorem told_start (chip : Chip) (bus : Bus) : Told chip.earliestIrq { chip, bus } :=
  ⟨rfl, .singleton _⟩

@[simp] theorem applyWrite_earliestIrq (session : Session) (time : Int) (location : Location)
    (value : UInt8) :
    (session.applyWrite time location value).chip.earliestIrq = session.chip.earliestIrq := by
  cases location with
  | voice channel slot => cases channel <;> rfl
  | _ => rfl

@[simp] theorem applyWrite_notices (session : Session) (time : Int) (location : Location)
    (value : UInt8) : (session.applyWrite time location value).notices = session.notices := by
  cases location with
  | voice channel slot => cases channel <;> rfl
  | _ => rfl

namespace Told

variable {start : Option Int} {session : Session} (h : Told start session)
include h

theorem of_eq {session' : Session}
    (hcurrent : session'.chip.earliestIrq = session.chip.earliestIrq)
    (hnotices : session'.notices = session.notices) : Told start session' :=
  ⟨by rw [hcurrent, hnotices]; exact h.current, by rw [hnotices]; exact h.changed⟩

theorem announce : Told start session.announce := by
  rw [announce_eq]
  split
  · exact h
  · rename_i hne
    have hcurrent := h.current
    constructor
    · simp [Chip.announced]
    · rw [Array.toList_push, ← List.cons_append]
      refine h.changed.append (.singleton _) ?_
      intro last hlast next hnext
      rw [List.getLast?_cons, ← List.getLastD_eq_getLast?, hcurrent, Option.mem_some] at hlast
      rw [List.head?_cons, Option.mem_some] at hnext
      rw [← hlast, ← hnext]
      exact Ne.symm hne

theorem runTo (stop : Int) : Told start (session.runTo stop) := by
  unfold Session.runTo
  dsimp only
  split
  · exact h
  · exact announce (h.of_eq rfl rfl)

theorem write (time : Int) (address : UInt16) (value : UInt8) :
    Told start (session.write time address value) := by
  cases hlocation : Location.ofAddress? address with
  | none => rwa [write_of_none hlocation]
  | some location =>
    rw [write_of_some hlocation]
    exact ((h.runTo time).of_eq (applyWrite_earliestIrq ..) (applyWrite_notices ..)).announce

theorem readStatus (time : Int) : Told start (session.readStatus time).2 := by
  have hran := (h.runTo (max (time - 1) session.chip.time)).runTo time
  unfold Session.readStatus
  dsimp only
  split
  · exact announce (hran.of_eq rfl rfl)
  · exact hran

theorem writes (writes : List (UInt16 × UInt8)) :
    Told start (writes.foldl (fun session (address, value) => session.write 0 address value)
      session) := by
  induction writes generalizing session with
  | nil => exact h
  | cons write writes ih => exact ih (h.write 0 _ _)

end Told

end Session

/-- A time as it is known after an operation: the end of a frame moves it, and cuts it off at zero. -/
def Operation.reframe (operation : Operation) (irq : Option Int) : Option Int :=
  match operation with
  | .runFrame time _ => irq.map fun irq => max (irq - time) 0
  | _ => irq

/-- What an operation announces goes on from what was announced before. -/
theorem Operation.told_act (session : Session) (hnone : session.notices = #[])
    {operation : Operation} (hreset : operation ≠ .reset) :
    (session.chip.earliestIrq :: (operation.act session).notices.toList).IsChain (· ≠ ·) ∧
      (operation.act session).chip.earliestIrq =
        operation.reframe
          ((operation.act session).notices.toList.getLastD session.chip.earliestIrq) := by
  have hstart : Session.Told session.chip.earliestIrq session :=
    (Session.told_start session.chip session.bus).of_eq rfl hnone
  have htold {session' : Session} (h : Session.Told session.chip.earliestIrq session') :
      (session.chip.earliestIrq :: session'.notices.toList).IsChain (· ≠ ·) ∧
        session'.chip.earliestIrq =
          session'.notices.toList.getLastD session.chip.earliestIrq :=
    ⟨h.changed, h.current.symm⟩
  cases operation with
  | write time address value => exact htold (hstart.write time address value)
  | readStatus time => exact htold (hstart.readStatus time)
  | runFrame time count =>
    obtain ⟨hchanged, hcurrent⟩ := htold (hstart.runTo time)
    exact ⟨hchanged, congrArg (Operation.reframe (.runFrame time count)) hcurrent⟩
  | takeStall =>
    have hstall : Session.Told session.chip.earliestIrq (Operation.takeStall.act session) :=
      hstart.of_eq rfl rfl
    exact htold hstall
  | reset => exact absurd rfl hreset
  | _ => exact htold hstart

namespace Chip

theorem reset_snd (chip : Chip) : chip.reset.2 = chip.started.notices := by
  unfold reset
  dsimp only
  rw [started, blank]

theorem nextIrq_poweredOn (wiring : Wiring) : (poweredOn wiring).nextIrq ≠ none := by
  have hmode (region : Region) : ((Sequencer.powerOn region).writeMode 0 0).irqFlag = false ∧
      ((Sequencer.powerOn region).writeMode 0 0).nextIrq ≠ none := by
    cases region <;> decide
  obtain ⟨hflag, hirq⟩ := hmode wiring.sequencer
  have hpending : (poweredOn wiring).irqPending = false := hflag ▸ rfl
  unfold nextIrq
  rw [hpending]
  exact hirq

/-- The power-on writes announce the first interrupt. -/
theorem told_reset (chip : Chip) : chip.reset.2.toList.getLast? = some chip.reset.1.earliestIrq := by
  have htold : Session.Told none chip.started :=
    (Session.told_start chip.blank (.unconnected 0)).writes powerOnWrites
  have hcurrent : chip.started.notices.toList.getLast?.getD none =
      chip.started.chip.earliestIrq := by
    rw [← List.getLastD_eq_getLast?]
    exact htold.current
  have hfirst : chip.started.chip.earliestIrq ≠ none := by
    rw [started_chip]
    exact nextIrq_poweredOn _
  rw [← hcurrent] at hfirst
  rw [reset_fst, reset_snd]
  dsimp only
  rw [← hcurrent]
  cases hlast : chip.started.notices.toList.getLast? with
  | none =>
    rw [hlast] at hfirst
    exact absurd rfl hfirst
  | some irq => rfl

theorem nextIrq_eq_min (chip : Chip) :
    chip.nextIrq =
      if chip.irqPending then some 0
      else (chip.dmc.nextIrq.toList ++ chip.sequencer.nextIrq.toList).min? := by
  unfold nextIrq
  split
  · rfl
  · cases chip.dmc.nextIrq <;> cases chip.sequencer.nextIrq <;> rfl

end Chip

/-! ### Listeners -/

namespace Board

/-- What the interrupt line tells in an operation. -/
def tells (board : Board) : Operation → Array (Option Int)
  | .reset => board.chip.reset.2
  | operation => (operation.act board.session).notices

theorem tells_reset (board : Board) : board.tells .reset = board.chip.reset.2 := by
  rw [tells]

theorem tells_of_ne_reset (board : Board) {operation : Operation} (h : operation ≠ .reset) :
    board.tells operation = (operation.act board.session).notices := by
  cases operation <;> first | exact absurd rfl h | rfl

theorem after_told {board : Board} (h : board.listening = true) {operation : Operation}
    (hlisten : ∀ listening, operation ≠ .listen listening) :
    (board.after operation).listening = true ∧
      (board.after operation).notices = board.notices ++ board.tells operation := by
  have hhear (board : Board) (h : board.listening = true) (notices : Array (Option Int)) :
      (board.hear notices).listening = true ∧
        (board.hear notices).notices = board.notices ++ notices := by
    rw [hear_listening, hear_notices, if_pos h]
    exact ⟨h, rfl⟩
  cases operation with
  | listen listening => exact absurd rfl (hlisten listening)
  | setMuted position muted =>
    simp only [after]
    split
    · exact ⟨h, Array.append_empty.symm⟩
    · exact ⟨h, Array.append_empty.symm⟩
  | setVolume volume => exact ⟨h, Array.append_empty.symm⟩
  | reset =>
    rw [tells_reset, after]
    unfold reset
    dsimp only
    rw [hear_listening, hear_notices]
    dsimp only
    rw [if_pos h]
    exact ⟨h, rfl⟩
  | _ => exact hhear _ (by exact h) _

end Board

/-- What a listener heard between two consoles. -/
def Console.heard (console next : Console) : List (Option Int) :=
  next.board.notices.toList.drop console.board.notices.size

theorem Console.heard_eq {console next : Console} {operation : Operation} {outcome : Outcome}
    (h : console.perform operation = .ok (outcome, next))
    (hlistening : console.board.listening = true)
    (hlisten : ∀ listening, operation ≠ .listen listening) :
    next.board.listening = true ∧
      next.board.notices = console.board.notices ++ console.board.tells operation ∧
      console.heard next = (console.board.tells operation).toList := by
  obtain ⟨hstill, hnotices⟩ := Board.after_told hlistening hlisten
  rw [← perform_board h] at hstill hnotices
  refine ⟨hstill, hnotices, ?_⟩
  unfold heard
  rw [hnotices, Array.toList_append]
  exact List.drop_left

/-- A console and a listener that keeps the last notice, once there was one. -/
structure Listener where
  console : Console
  kept : Option (Option Int) := none

namespace Listener

/-- Makes an operation.  The listener keeps the last notice that it heard, and moves what it keeps
with the start of the frame. -/
def step (listener : Listener) (operation : Operation) : Listener :=
  match listener.console.perform operation with
  | .error _ => listener
  | .ok (_, next) =>
    { console := next
      kept := ((listener.console.heard next).getLast?.or listener.kept).map operation.reframe }

/-- A listener that has heard nothing since `start`, or keeps the time of the next interrupt. -/
structure Informed (start : Console) (listener : Listener) : Prop where
  reachable : listener.console.Reachable
  listening : listener.console.board.listening = true
  unheard : listener.kept = none → listener.console.board.notices = start.board.notices
  kept_eq : ∀ irq, listener.kept = some irq → irq = listener.console.board.chip.earliestIrq

variable {start : Console}

/-- What is kept after an operation is what is announced then. -/
theorem kept_of_told {console next : Console} {kept : Option (Option Int)} {operation : Operation}
    {outcome : Outcome} (hperform : console.perform operation = .ok (outcome, next))
    (hkept : ∀ irq, kept = some irq → irq = console.board.chip.earliestIrq) {irq : Option Int}
    (hirq : (console.board.tells operation).toList.getLast?.or kept = some irq) :
    operation.reframe irq = next.board.chip.earliestIrq := by
  rw [(Console.perform_ok hperform).1]
  by_cases hreset : operation = .reset
  · subst hreset
    rw [Board.tells_reset, Chip.told_reset, Option.some_or] at hirq
    simp only [Operation.act, Operation.reframe, Board.session]
    exact (Option.some.inj hirq).symm
  · obtain ⟨_, hcurrent⟩ := operation.told_act console.board.session rfl hreset
    rw [console.board.tells_of_ne_reset hreset] at hirq
    rw [hcurrent, List.getLastD_eq_getLast?]
    cases hlast : (operation.act console.board.session).notices.toList.getLast? with
    | none =>
      rw [hlast] at hirq
      rw [hkept irq hirq]
      rfl
    | some last =>
      rw [hlast] at hirq
      rw [← Option.some.inj hirq]
      rfl

theorem Informed.step {listener : Listener} (h : Informed start listener) {operation : Operation}
    (hlisten : ∀ listening, operation ≠ .listen listening) :
    Informed start (listener.step operation) := by
  unfold Listener.step
  split
  · exact h
  · rename_i outcome next hperform
    obtain ⟨hstill, hnotices, hheard⟩ := Console.heard_eq hperform h.listening hlisten
    rw [hheard]
    refine ⟨h.reachable.perform hperform, hstill, ?_, ?_⟩
    · intro hnone
      obtain ⟨hlast, hkept⟩ := Option.or_eq_none_iff.mp (Option.map_eq_none_iff.mp hnone)
      have hempty := Array.toList_eq_nil_iff.mp (List.getLast?_eq_none_iff.mp hlast)
      show next.board.notices = _
      rw [hnotices, hempty, Array.append_empty]
      exact h.unheard hkept
    · intro irq hirq
      obtain ⟨last, hlast, rfl⟩ := Option.map_eq_some_iff.mp hirq
      exact kept_of_told hperform h.kept_eq hlast

theorem Informed.run {listener : Listener} (h : Informed start listener)
    {operations : List Operation} (hlisten : ∀ listening, .listen listening ∉ operations) :
    Informed start (operations.foldl Listener.step listener) := by
  induction operations generalizing listener with
  | nil => exact h
  | cons operation operations ih =>
    refine ih (h.step ?_) fun listening hmem => hlisten listening (.tail _ hmem)
    intro listening heq
    exact hlisten listening (heq ▸ .head _)

/-- After every history, refused operations and resets in it or not, the time of the next interrupt is
zero while one is raised and else the earliest prediction.  From its first notice on a listener keeps
just this time, and only a reset may tell it what it keeps already. -/
theorem follows_next_interrupt {console : Console} (h : console.Reachable) :
    (∀ operations : List Operation,
      let chip := (console.attemptAll operations).board.chip
      chip.earliestIrq =
        if chip.irqPending then some 0
        else (chip.dmc.nextIrq.toList ++ chip.sequencer.nextIrq.toList).min?) ∧
    (console.board.listening = true → ∀ operations : List Operation,
      (∀ listening, .listen listening ∉ operations) →
      let listener := operations.foldl step { console }
      (listener.kept = none → listener.console.board.notices = console.board.notices) ∧
      (∀ irq, listener.kept = some irq → irq = listener.console.board.chip.earliestIrq) ∧
      ∀ operation outcome next, operation ≠ .reset →
        (∀ listening, operation ≠ .listen listening) →
        listener.console.perform operation = .ok (outcome, next) →
        (listener.kept.toList ++ listener.console.heard next).IsChain (· ≠ ·)) := by
  constructor
  · intro operations chip
    rw [← chip.nextIrq_eq_min]
    exact (h.attemptAll operations).consistent.current
  · intro hlistening operations hlisten listener
    have hstart : Informed console { console } :=
      ⟨h, hlistening, fun _ => rfl, fun _ hirq => by cases hirq⟩
    have hinformed : Informed console listener := hstart.run hlisten
    refine ⟨hinformed.unheard, hinformed.kept_eq, ?_⟩
    intro operation outcome next hreset hother hperform
    obtain ⟨_, _, hheard⟩ := Console.heard_eq hperform hinformed.listening hother
    obtain ⟨hchanged, _⟩ :=
      operation.told_act listener.console.board.session rfl hreset
    rw [hheard, Board.tells_of_ne_reset _ hreset]
    cases hkept : listener.kept with
    | none => exact hchanged.tail
    | some irq =>
      rw [hinformed.kept_eq irq hkept]
      exact hchanged

/-- The interrupt forbidden and allowed again, one raised by a sample and cleared, and four frames. -/
def interruptions : List Operation :=
  [.runFrame 20000 0, .write 100 0x4017 0x40, .write 200 0x4017 0, .write 190 0x4017 0x40,
    .runFrame 10000 100, .readStatus 5, .write 10 0x4010 0x8F, .write 11 0x4015 0x10,
    .runFrame 300 0, .write 5 0x4015 0, .runFrame 100 0]

theorem follows_next_interrupt_of_sample :
    ∃ console, console.Reachable ∧ console.board.listening = true ∧
      (interruptions.foldl step { console }).kept = some (some 19632) ∧
      (interruptions.foldl step { console }).console.board.chip.earliestIrq = some 19632 := by
  obtain ⟨console, hcreate, hkept⟩ := exists_ok
    (Console.create (.unconnected 0) .standard)
    (fun console => (interruptions.foldl step
      { console := { console with board := console.board.listen true } }).kept = some (some 19632))
    (by decide +kernel)
  have hkept := of_decide_eq_true hkept
  have hlisten : console.perform (.listen true) =
      .ok (.done, { console with board := console.board.listen true }) := rfl
  have hreach := (Console.Reachable.create hcreate).perform hlisten
  obtain ⟨_, hinformed, _⟩ := (follows_next_interrupt hreach).2 rfl interruptions
    (by simp [interruptions])
  exact ⟨_, hreach, rfl, hkept, (hinformed _ hkept).symm⟩

end Listener

end Chiptune
