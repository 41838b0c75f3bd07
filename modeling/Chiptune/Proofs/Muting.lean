import Chiptune.Proofs.History

/-! Muting changes the values of samples and nothing else.  A `view` is what a host can see of a
console without hearing it.  Two consoles that are `Alike` differ at most in their switches and in
the contents of their output; they answer every operation alike, and a switch leaves a console as it
was in this sense.  So two histories that differ in switches only cannot be told apart by sight. -/

namespace Chiptune

/-- What a host can see of a console without hearing it. -/
structure View where
  chip : Chip
  fetched : Array UInt16
  notices : Array (Option Int)
  available : Nat
  frameCapacity : Nat
  deriving DecidableEq

/-- The outcome with all its samples at zero, so that only their number is left. -/
def Outcome.hushed : Outcome → Outcome
  | .samples taken => .samples (Array.replicate taken.size 0)
  | outcome => outcome

/-- Whether an operation switches a channel off or on. -/
def Operation.switches : Operation → Bool
  | .setMuted position _ => (Channel.ofIndex? position).isSome
  | _ => false

namespace Console

/-- What a host can see of the console. -/
def view (console : Console) : View :=
  { chip := console.board.chip
    fetched := console.board.bus.fetched
    notices := console.board.notices
    available := console.buffer.available
    frameCapacity := console.buffer.frameCapacity }

/-- What a host sees of a history: the answers to all operations but the switches, without the values
of samples, and the view after each of them. -/
def diary (console : Console) : List Operation → List (Except Fault Outcome × View)
  | [] => []
  | operation :: operations =>
    if operation.switches then (console.attempt operation).2.diary operations
    else
      ((console.attempt operation).1.map Outcome.hushed, (console.attempt operation).2.view) ::
        (console.attempt operation).2.diary operations

/-- Two consoles that differ at most in their switches and in the contents of their output. -/
structure Alike (console console' : Console) : Prop where
  chip : console'.board.chip = console.board.chip
  bus : console'.board.bus = console.board.bus
  mix : console'.board.mix = console.board.mix
  listening : console'.board.listening = console.board.listening
  notices : console'.board.notices = console.board.notices
  configuration : console'.configuration = console.configuration
  buffer : console.buffer.SamePlace console'.buffer

namespace Alike

variable {console console' console'' : Console}

theorem refl (console : Console) : Alike console console :=
  ⟨rfl, rfl, rfl, rfl, rfl, rfl, .refl console.buffer⟩

theorem symm (h : Alike console console') : Alike console' console :=
  ⟨h.chip.symm, h.bus.symm, h.mix.symm, h.listening.symm, h.notices.symm, h.configuration.symm,
    h.buffer.symm⟩

theorem trans (h : Alike console console') (h' : Alike console' console'') :
    Alike console console'' :=
  ⟨h'.chip.trans h.chip, h'.bus.trans h.bus, h'.mix.trans h.mix, h'.listening.trans h.listening,
    h'.notices.trans h.notices, h'.configuration.trans h.configuration, h.buffer.trans h'.buffer⟩

theorem view (h : Alike console console') : console'.view = console.view := by
  have havailable : console'.buffer.available = console.buffer.available := h.buffer.available
  unfold Console.view
  rw [h.chip, h.bus, h.notices, havailable, h.buffer.frameCapacity]

theorem session (h : Alike console console') : console'.board.session = console.board.session := by
  unfold Board.session
  rw [h.chip, h.bus]

theorem checkTime (h : Alike console console') (time : Int) :
    console'.board.checkTime console'.buffer time =
      console.board.checkTime console.buffer time := by
  unfold Board.checkTime
  rw [h.chip, h.buffer.frameCapacity]

theorem absorb (h : Alike console console') (session : Session) :
    Alike (console.absorb session) (console'.absorb session) where
  chip := by rw [absorb_chip, absorb_chip]
  bus := by rw [absorb_bus, absorb_bus]
  mix := by rw [absorb_mix, absorb_mix, h.mix]
  listening := by
    show (Board.hear _ _).listening = (Board.hear _ _).listening
    rw [Board.hear_listening, Board.hear_listening]
    exact h.listening
  notices := by
    show (Board.hear _ _).notices = (Board.hear _ _).notices
    rw [Board.hear_notices, Board.hear_notices]
    show (if console'.board.listening then console'.board.notices ++ session.notices
      else console'.board.notices) = _
    rw [h.listening, h.notices]
  configuration := h.configuration
  buffer :=
    ((console.absorb_samePlace session).symm.trans h.buffer).trans
      (console'.absorb_samePlace session)

theorem ended (h : Alike console console') (time : Int) :
    Alike (console.ended time) (console'.ended time) := by
  have hran := h.absorb (console.board.session.endFrame time)
  unfold Console.ended
  rw [h.session]
  exact ⟨hran.chip, hran.bus, hran.mix, hran.listening, hran.notices, hran.configuration,
    hran.buffer.endFrame time⟩

theorem read (h : Alike console console') (count : Nat) :
    (console'.read count).1.size = (console.read count).1.size ∧
      Alike (console.read count).2 (console'.read count).2 := by
  obtain ⟨hsize, hbuffer⟩ := h.buffer.read count
  exact ⟨hsize, h.chip, h.bus, h.mix, h.listening, h.notices, h.configuration, hbuffer⟩

theorem reset (h : Alike console console') : Alike console.reset console'.reset where
  chip := by
    show console'.board.reset.chip = console.board.reset.chip
    rw [Board.reset_chip, Board.reset_chip, h.chip]
  bus := by
    show console'.board.reset.bus = console.board.reset.bus
    rw [Board.reset_bus, Board.reset_bus, h.bus]
  mix := by
    show (Board.hear _ _).mix = (Board.hear _ _).mix
    rw [Board.hear_mix, Board.hear_mix]
    exact h.mix
  listening := by
    show (Board.hear _ _).listening = (Board.hear _ _).listening
    rw [Board.hear_listening, Board.hear_listening]
    exact h.listening
  notices := by
    show (Board.hear _ _).notices = (Board.hear _ _).notices
    rw [Board.hear_notices, Board.hear_notices, h.chip]
    show (if console'.board.listening then console'.board.notices ++ _
      else console'.board.notices) = _
    rw [h.listening, h.notices]
  configuration := h.configuration
  buffer := h.buffer.clear

end Alike

/-! ### Histories -/

/-- A switch changes neither the chip nor the place of its output. -/
theorem alike_switched (console : Console) (channel : Channel) (muted : Bool) :
    Alike console (console.switched channel muted) :=
  ⟨rfl, rfl, rfl, rfl, rfl, rfl,
    console.switched_invariant (fun out time delta h => h.trans (.put out time delta))
      (.refl console.buffer) channel muted⟩

theorem alike_attempt_setMuted (console : Console) (position : Nat) (muted : Bool) :
    Alike console (console.attempt (.setMuted position muted)).2 := by
  have hperform := console.perform_setMuted position muted
  cases hchannel : Channel.ofIndex? position with
  | none =>
    rw [hchannel] at hperform
    rw [attempt_of_error hperform]
    exact .refl console
  | some channel =>
    rw [hchannel] at hperform
    rw [attempt_of_ok hperform]
    dsimp only
    split
    · exact .refl console
    · exact console.alike_switched channel muted

theorem alike_attempt_of_switches (console : Console) {operation : Operation}
    (h : operation.switches = true) : Alike console (console.attempt operation).2 := by
  cases operation with
  | setMuted position muted => exact console.alike_attempt_setMuted position muted
  | _ => cases h

variable {console console' : Console}

/-- Consoles that are alike answer every operation alike, but for the values of samples, and stay
alike. -/
theorem Alike.attempt (h : Alike console console') (operation : Operation) :
    (console'.attempt operation).1.map Outcome.hushed =
        (console.attempt operation).1.map Outcome.hushed ∧
      Alike (console.attempt operation).2 (console'.attempt operation).2 := by
  cases operation with
  | write time address value =>
    refine attempt_of_checks (h.checkTime time) (console.perform_write ..)
      (console'.perform_write ..) h rfl ?_
    rw [h.session]
    exact h.absorb _
  | readStatus time =>
    refine attempt_of_checks (h.checkTime time) (console.perform_readStatus ..)
      (console'.perform_readStatus ..) h ?_ ?_
    · rw [h.session]
    · rw [h.session]
      exact h.absorb _
  | runFrame time count =>
    obtain ⟨hsize, hnext⟩ :=
      (h.ended time).read (min count console.configuration.blockSize)
    have hperform' := console'.perform_runFrame time count
    rw [h.configuration] at hperform'
    refine attempt_of_checks (h.checkTime time) (console.perform_runFrame ..) hperform' h ?_ hnext
    rw [Outcome.hushed, Outcome.hushed, hsize]
  | read count =>
    obtain ⟨hsize, hnext⟩ := h.read count
    refine ⟨congrArg Except.ok ?_, hnext⟩
    show Outcome.hushed (.samples (console'.read count).1) =
      Outcome.hushed (.samples (console.read count).1)
    rw [Outcome.hushed, Outcome.hushed, hsize]
  | setMuted position muted =>
    have hnext := console.alike_attempt_setMuted position muted
    have hnext' := console'.alike_attempt_setMuted position muted
    refine ⟨?_, (hnext.symm.trans h).trans hnext'⟩
    have hperform := console.perform_setMuted position muted
    have hperform' := console'.perform_setMuted position muted
    cases hchannel : Channel.ofIndex? position with
    | none =>
      rw [hchannel] at hperform hperform'
      rw [attempt_of_error hperform, attempt_of_error hperform']
    | some channel =>
      rw [hchannel] at hperform hperform'
      rw [attempt_of_ok hperform, attempt_of_ok hperform']
  | setVolume volume =>
    exact ⟨rfl, h.chip, h.bus, rfl, h.listening, h.notices, h.configuration, h.buffer⟩
  | listen listening =>
    exact ⟨rfl, h.chip, h.bus, h.mix, rfl, h.notices, h.configuration, h.buffer⟩
  | takeStall =>
    have hstall : console'.board.chip.dmc.takeStall = console.board.chip.dmc.takeStall := by
      rw [h.chip]
    refine ⟨?_, ?_, h.bus, h.mix, h.listening, h.notices, h.configuration, h.buffer⟩
    · exact congrArg (fun stall => Except.ok (Outcome.stall stall.1)) hstall
    · show { console'.board.chip with dmc := console'.board.chip.dmc.takeStall.2 } =
        { console.board.chip with dmc := console.board.chip.dmc.takeStall.2 }
      rw [h.chip]
  | reset => exact ⟨rfl, h.reset⟩

/-- A history is seen as the same history without its switches. -/
theorem Alike.attemptAll_filter (h : Alike console console') (run : List Operation) :
    console.diary run = console'.diary (run.filter (!·.switches)) ∧
      Alike (console.attemptAll run) (console'.attemptAll (run.filter (!·.switches))) := by
  induction run generalizing console console' with
  | nil => exact ⟨rfl, h⟩
  | cons operation run ih =>
    cases hswitches : operation.switches with
    | true =>
      have hnext := (console.alike_attempt_of_switches hswitches).symm.trans h
      obtain ⟨hdiary, hlast⟩ := ih hnext
      rw [List.filter_cons_of_neg (by simp [hswitches]), attemptAll_cons]
      refine ⟨?_, hlast⟩
      rw [diary, hswitches]
      exact hdiary
    | false =>
      obtain ⟨hanswer, hnext⟩ := h.attempt operation
      obtain ⟨hdiary, hlast⟩ := ih hnext
      rw [List.filter_cons_of_pos (by simp [hswitches]), attemptAll_cons, attemptAll_cons]
      refine ⟨?_, hlast⟩
      rw [diary, diary, hswitches, hanswer, hnext.view, hdiary]

/-- Two histories of a console that differ in switches only are seen alike at every point: so are the
answers, faults included, the chip with all its channels and times of interrupts, the fetches, the
notices, the samples that wait and the horizon.  Only the values of samples may differ. -/
theorem muting_unseen (console : Console) {run run' : List Operation}
    (hsame : run.filter (!·.switches) = run'.filter (!·.switches)) :
    console.diary run = console.diary run' ∧
      (console.attemptAll run).view = (console.attemptAll run').view := by
  obtain ⟨hdiary, hlast⟩ := (Alike.refl console).attemptAll_filter run
  obtain ⟨hdiary', hlast'⟩ := (Alike.refl console).attemptAll_filter run'
  rw [hdiary, hdiary', ← hlast.view, ← hlast'.view, hsame]
  exact ⟨rfl, rfl⟩

/-- The operations of a note. -/
def note : List Operation :=
  [.write 0 0x4015 1, .write 0 0x4000 0xBF, .write 20 0x4003 1, .runFrame 3000 100]

/-- The operations of a note with its channel switched off while it sounds and another channel
switched off and on again. -/
def mutedNote : List Operation :=
  [.write 0 0x4015 1, .setMuted 2 true, .write 0 0x4000 0xBF, .write 20 0x4003 1,
    .setMuted 0 true, .setMuted 2 false, .runFrame 3000 100]

/-- A note that is switched off while it sounds has other samples, but nothing else can be seen of
the switches. -/
theorem muting_unseen_of_note :
    ∃ console outcomes last outcomes' last',
      Console.create (.unconnected 0) .standard = .ok console ∧
      console.performAll note = .ok (outcomes, last) ∧
      console.performAll mutedNote = .ok (outcomes', last') ∧
      outcomes.flatMap Outcome.taken ≠ outcomes'.flatMap Outcome.taken ∧
      console.diary note = console.diary mutedNote ∧
      (console.attemptAll note).view = (console.attemptAll mutedNote).view := by
  obtain ⟨console, hcreate, hfacts⟩ := exists_ok
    (Console.create (.unconnected 0) .standard)
    (fun console => (console.performAll note).toOption.any fun result =>
      (console.performAll mutedNote).toOption.any fun result' =>
        result.1.flatMap Outcome.taken ≠ result'.1.flatMap Outcome.taken)
    (by decide +kernel)
  obtain ⟨⟨outcomes, last⟩, hrun, hfacts⟩ := exists_ok _ _ hfacts
  obtain ⟨⟨outcomes', last'⟩, hrun', hdiffer⟩ := exists_ok _ _ hfacts
  have hsame : note.filter (!·.switches) = mutedNote.filter (!·.switches) := rfl
  obtain ⟨hdiary, hview⟩ := console.muting_unseen hsame
  exact ⟨console, outcomes, last, outcomes', last', hcreate, hrun, hrun', of_decide_eq_true hdiffer,
    hdiary, hview⟩

end Console

end Chiptune
