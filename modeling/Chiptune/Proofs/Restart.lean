import Chiptune.Proofs.History
import Chiptune.Proofs.PowerOn

/-! A reset erases history.  No operation changes what a reset leaves, since that is the wiring of the
chip and the make of the output (`SameMake`).  From then on the past shows nowhere: a bus whose
answers depend only on the address gives the same bytes after other fetches (`Bus.Resumed`), so two
consoles that a reset made equal answer every later history alike (`Console.Resumed`). -/

namespace Chiptune

/-! ### A bus with another past -/

/-- Two buses of the same memory.  Since the one had fetched `past` and the other `past'`, both have
made the same fetches. -/
structure Bus.Resumed (memory : UInt16 → UInt8) (past past' : Array UInt16) (bus bus' : Bus) :
    Prop where
  respond : bus.respond = fun _ => memory
  respond' : bus'.respond = fun _ => memory
  fetched : ∃ since, bus.fetched = past ++ since ∧ bus'.fetched = past' ++ since

section Resumed

variable {memory : UInt16 → UInt8} {past past' : Array UInt16} {bus bus' : Bus}

theorem Bus.Resumed.read (h : Bus.Resumed memory past past' bus bus') (address : UInt16) :
    (bus'.read address).1 = (bus.read address).1 ∧
      Bus.Resumed memory past past' (bus.read address).2 (bus'.read address).2 := by
  obtain ⟨since, hfetched, hfetched'⟩ := h.fetched
  refine ⟨?_, h.respond, h.respond', since.push address, ?_, ?_⟩
  · show bus'.respond bus'.fetched address = bus.respond bus.fetched address
    rw [h.respond, h.respond']
  · show bus.fetched.push address = past ++ since.push address
    rw [hfetched, Array.push_append]
  · show bus'.fetched.push address = past' ++ since.push address
    rw [hfetched', Array.push_append]

namespace Dmc

/-- The same channel before two buses of the same memory. -/
def Resumed (memory : UInt16 → UInt8) (past past' : Array UInt16) (s s' : Dmc × Bus) : Prop :=
  s'.1 = s.1 ∧ Bus.Resumed memory past past' s.2 s'.2

theorem resumed_fill (dmc : Dmc) (h : Bus.Resumed memory past past' bus bus') :
    Resumed memory past past' (dmc.fill bus) (dmc.fill bus') := by
  obtain ⟨hbyte, hbus⟩ := h.read dmc.fetchAddress
  rw [fill_eq, fill_eq, hbyte]
  split
  · exact ⟨rfl, h⟩
  · exact ⟨rfl, hbus⟩

theorem resumed_nextByte (dmc : Dmc) (h : Bus.Resumed memory past past' bus bus') :
    Resumed memory past past' (dmc.nextByte bus) (dmc.nextByte bus') := by
  cases hbuffer : dmc.buffer with
  | none =>
    rw [nextByte_of_none hbuffer, nextByte_of_none hbuffer]
    exact ⟨rfl, h⟩
  | some byte =>
    rw [nextByte_of_some hbuffer, nextByte_of_some hbuffer]
    exact resumed_fill _ h

theorem resumed_event (s s' : Dmc × Bus) (h : Resumed memory past past' s s') :
    Resumed memory past past' (event s) (event s') := by
  obtain ⟨dmc, bus⟩ := s
  obtain ⟨dmc', bus'⟩ := s'
  obtain ⟨hdmc, hbus⟩ := h
  obtain rfl : dmc' = dmc := hdmc
  unfold event tick
  dsimp only at hbus ⊢
  split
  · exact resumed_nextByte _ hbus
  · exact ⟨rfl, hbus⟩

theorem resumed_run (dmc : Dmc) (time stop : Int) (h : Bus.Resumed memory past past' bus bus')
    (all : Array Step) :
    (dmc.run time stop bus' all).1 = (dmc.run time stop bus all).1 ∧
      (dmc.run time stop bus' all).2.2 = (dmc.run time stop bus all).2.2 ∧
      Bus.Resumed memory past past' (dmc.run time stop bus all).2.1
        (dmc.run time stop bus' all).2.1 := by
  have hstart : Resumed memory past past' (dmc, bus) (dmc, bus') := ⟨rfl, h⟩
  obtain ⟨hdmc, hbus⟩ : Resumed memory past past' (dmc.eventsAfter time stop bus)
    (dmc.eventsAfter time stop bus') := Timer.skip_related resumed_event _ hstart
  have hlevel (s s' : Dmc × Bus) (hs : Resumed memory past past' s s') : output s' = output s := by
    unfold output
    rw [hs.1]
  have hsteps : dmc.steps time stop bus' = dmc.steps time stop bus :=
    Timer.sound_related resumed_event hlevel _ _ _ _ hstart
  obtain ⟨hfst, hsnd⟩ := Prod.mk.inj (dmc.run_eq time stop bus all)
  obtain ⟨hfst', hsnd'⟩ := Prod.mk.inj (dmc.run_eq time stop bus' all)
  refine ⟨?_, ?_, ?_⟩
  · rw [hfst, hfst']
    unfold output
    rw [hdmc]
  · refine Array.toList_inj.mp ?_
    rw [toList_run, toList_run, hsteps]
  · rw [hsnd, hsnd']
    exact hbus

theorem resumed_setEnabled (dmc : Dmc) (enabled : Bool)
    (h : Bus.Resumed memory past past' bus bus') (now : Int) :
    Resumed memory past past' (dmc.setEnabled enabled bus now)
      (dmc.setEnabled enabled bus' now) := by
  cases enabled with
  | false => exact ⟨rfl, h⟩
  | true =>
    cases henabled : dmc.enabled
    · obtain ⟨hdmc, hbus⟩ := resumed_fill dmc.restarted h
      rw [setEnabled_of_idle henabled, setEnabled_of_idle henabled]
      exact ⟨congrArg (predictIrq · now) hdmc, hbus⟩
    · rw [setEnabled_of_enabled henabled, setEnabled_of_enabled henabled]
      exact ⟨rfl, h⟩

end Dmc

namespace Session

/-- The same chip at work before two buses of the same memory. -/
structure Resumed (memory : UInt16 → UInt8) (past past' : Array UInt16)
    (session session' : Session) : Prop where
  chip : session'.chip = session.chip
  bus : Bus.Resumed memory past past' session.bus session'.bus
  steps : session'.steps = session.steps
  notices : session'.notices = session.notices

namespace Resumed

variable {session session' : Session}

theorem announce (h : Resumed memory past past' session session') :
    Resumed memory past past' session.announce session'.announce := by
  unfold Session.announce
  dsimp only
  rw [h.chip]
  split
  · exact h
  · exact ⟨rfl, h.bus, h.steps, congrArg (·.push session.chip.nextIrq) h.notices⟩

theorem runTo (h : Resumed memory past past' session session') (stop : Int) :
    Resumed memory past past' (session.runTo stop) (session'.runTo stop) := by
  obtain ⟨hdmc, hsteps, hbus⟩ := session.chip.dmc.resumed_run session.chip.time stop h.bus #[]
  unfold Session.runTo
  dsimp only
  rw [h.chip, h.steps, hdmc, hsteps]
  split
  · exact h
  · exact announce ⟨rfl, hbus, rfl, h.notices⟩

theorem applyWrite (h : Resumed memory past past' session session') (time : Int)
    (location : Location) (value : UInt8) :
    Resumed memory past past' (session.applyWrite time location value)
      (session'.applyWrite time location value) := by
  obtain ⟨chip, bus, steps, notices⟩ := session
  obtain ⟨chip', bus', steps', notices'⟩ := session'
  obtain ⟨hchip, hbus, hsteps, hnotices⟩ := h
  obtain rfl : chip' = chip := hchip
  cases location with
  | voice channel slot => cases channel <;> exact ⟨rfl, hbus, hsteps, hnotices⟩
  | status =>
    obtain ⟨hdmc, hbus⟩ :=
      chip'.dmc.clearIrq.resumed_setEnabled (Status.enables value).dmc hbus chip'.time
    refine ⟨?_, hbus, hsteps, hnotices⟩
    unfold Session.applyWrite
    dsimp only
    rw [hdmc]
  | _ => exact ⟨rfl, hbus, hsteps, hnotices⟩

theorem write (h : Resumed memory past past' session session') (time : Int) (address : UInt16)
    (value : UInt8) :
    Resumed memory past past' (session.write time address value)
      (session'.write time address value) := by
  cases hlocation : Location.ofAddress? address with
  | none => rwa [write_of_none hlocation, write_of_none hlocation]
  | some location =>
    rw [write_of_some hlocation, write_of_some hlocation]
    exact ((h.runTo time).applyWrite time location value).announce

theorem readStatus (h : Resumed memory past past' session session') (time : Int) :
    (session'.readStatus time).1 = (session.readStatus time).1 ∧
      Resumed memory past past' (session.readStatus time).2 (session'.readStatus time).2 := by
  have hbefore := h.runTo (max (time - 1) session.chip.time)
  have hnow := hbefore.runTo time
  unfold Session.readStatus
  dsimp only
  rw [h.chip, hbefore.chip, hnow.chip]
  split
  · exact ⟨rfl, announce ⟨rfl, hnow.bus, hnow.steps, hnow.notices⟩⟩
  · exact ⟨rfl, hnow⟩

theorem endFrame (h : Resumed memory past past' session session') (time : Int) :
    Resumed memory past past' (session.endFrame time) (session'.endFrame time) := by
  have hran := h.runTo time
  exact ⟨congrArg (·.rebase time) hran.chip, hran.bus, hran.steps, hran.notices⟩

end Resumed

end Session

end Resumed

/-! ### What a reset leaves -/

namespace Console

/-- Two consoles that are built alike: with the same wiring, the same make of output and the same
settings. -/
structure SameMake (console console' : Console) : Prop where
  wiring : console'.board.chip.wiring = console.board.chip.wiring
  cleared : console'.buffer.clear = console.buffer.clear
  configuration : console'.configuration = console.configuration

/-- Two consoles that hold the same chip and the same output, and that mute and scale it alike. -/
structure SameState (console console' : Console) : Prop where
  chip : console'.board.chip = console.board.chip
  buffer : console'.buffer = console.buffer
  muted : console'.board.muted = console.board.muted
  mix : console'.board.mix = console.board.mix
  configuration : console'.configuration = console.configuration

section Make

variable {console console' console'' : Console}

theorem SameMake.symm (h : SameMake console console') : SameMake console' console :=
  ⟨h.wiring.symm, h.cleared.symm, h.configuration.symm⟩

theorem SameMake.trans (h : SameMake console console') (h' : SameMake console' console'') :
    SameMake console console'' :=
  ⟨h'.wiring.trans h.wiring, h'.cleared.trans h.cleared, h'.configuration.trans h.configuration⟩

theorem clear_put (buffer : StepBuffer) (time delta : Int) :
    (buffer.put time delta).clear = buffer.clear := by
  unfold StepBuffer.put StepBuffer.clear Resampler.add Resampler.clear
  dsimp only

theorem clear_absorb (console : Console) (session : Session) :
    (console.absorb session).buffer.clear = console.buffer.clear :=
  console.board.conclude_invariant (P := fun out => out.clear = console.buffer.clear)
    (fun out time delta h => (clear_put out time delta).trans h) rfl session

theorem clear_read (buffer : StepBuffer) (count : Nat) :
    (buffer.read count).2.clear = buffer.clear := by
  obtain ⟨hfactor, _⟩ := buffer.resampler.read_snd count
  show ({ buffer with resampler := (buffer.resampler.read count).2.clear } : StepBuffer) = _
  unfold StepBuffer.clear Resampler.clear
  rw [hfactor]

theorem clear_switched (console : Console) (channel : Channel) (muted : Bool) :
    (console.switched channel muted).buffer.clear = console.buffer.clear :=
  console.switched_invariant (P := fun out => out.clear = console.buffer.clear)
    (fun out time delta h => (clear_put out time delta).trans h) rfl channel muted

theorem sameMake_perform {operation : Operation} {outcome : Outcome}
    (h : console.perform operation = .ok (outcome, console')) : SameMake console console' := by
  have hwiring : console'.board.chip.wiring = console.board.chip.wiring := by
    rw [(perform_ok h).1]
    exact operation.wiring_act console.board.session
  obtain rfl := console.perform_accepting h
  cases operation with
  | write time address value => exact ⟨hwiring, console.clear_absorb _, rfl⟩
  | readStatus time => exact ⟨hwiring, console.clear_absorb _, rfl⟩
  | runFrame time count =>
    exact ⟨hwiring, (clear_read _ _).trans (console.clear_absorb _), rfl⟩
  | read count => exact ⟨hwiring, clear_read _ _, rfl⟩
  | setMuted position muted =>
    rw [accepting_setMuted]
    cases Channel.ofIndex? position with
    | none => exact ⟨rfl, rfl, rfl⟩
    | some channel =>
      dsimp only
      split
      · exact ⟨rfl, rfl, rfl⟩
      · exact ⟨rfl, console.clear_switched _ _, rfl⟩
  | _ => exact ⟨hwiring, rfl, rfl⟩

theorem sameMake_attemptAll (console : Console) (operations : List Operation) :
    SameMake console (console.attemptAll operations) :=
  attemptAll_invariant (fun h hperform => h.trans (sameMake_perform hperform)) ⟨rfl, rfl, rfl⟩
    operations

/-- Consoles that are built alike are in the same state after a reset. -/
theorem SameMake.reset (h : SameMake console console')
    (hmuted : console'.board.muted = console.board.muted)
    (hmix : console'.board.mix = console.board.mix) : SameState console.reset console'.reset where
  chip := by rw [reset_chip, reset_chip, h.wiring]
  buffer := h.cleared
  muted := by rw [reset_muted, reset_muted, hmuted]
  mix := by rw [reset_mix, reset_mix, hmix]
  configuration := h.configuration

/-- A second reset changes nothing. -/
theorem sameState_reset_reset (console : Console) : SameState console.reset console.reset.reset where
  chip := by rw [reset_chip, reset_chip, Chip.wiring_restarted]
  buffer := rfl
  muted := reset_muted _
  mix := reset_mix _
  configuration := rfl

/-- A console that was just created is as a reset leaves it, unmuted and at the volume of its
settings. -/
theorem create_facts {bus : Bus} {configuration : Configuration}
    (h : Console.create bus configuration = .ok console) :
    SameState console console.reset ∧ console.board.muted = .fill false ∧
      console.board.mix = .ofVolume configuration.volume ∧
      console.board.chip.wiring = .standard configuration.region ∧
      console.board.bus = bus := by
  have hmuted := create_unmuted h
  obtain ⟨buffer, _, rfl⟩ := create_ok h
  refine ⟨sameState_reset_reset _, hmuted, ?_, ?_, ?_⟩
  · rw [reset_mix]
    rfl
  · rw [reset_chip, Chip.wiring_restarted]
    show (Chip.powerOn configuration.region).wiring = _
    rw [Chip.powerOn_eq_restarted, Chip.wiring_restarted]
  · rw [reset_bus]
    rfl

theorem sameMake_create {bus bus' : Bus} {configuration : Configuration}
    (h : Console.create bus configuration = .ok console)
    (h' : Console.create bus' configuration = .ok console') : SameMake console console' := by
  obtain ⟨_, _, _, hwiring, _⟩ := create_facts h
  obtain ⟨_, _, _, hwiring', _⟩ := create_facts h'
  obtain ⟨buffer, hbuffer, rfl⟩ := create_ok h
  obtain ⟨buffer', hbuffer', rfl⟩ := create_ok h'
  rw [hbuffer] at hbuffer'
  cases hbuffer'
  exact ⟨hwiring'.trans hwiring.symm, rfl, rfl⟩

end Make

/-! ### After a reset -/

/-- Unless their listeners differ, two boards have heard the same since the one had heard what
`before` had and the other what `before'` had. -/
def HeardSince (before before' board board' : Board) : Prop :=
  before'.listening = before.listening →
    board'.listening = board.listening ∧
      ∃ heard, board.notices = before.notices ++ heard ∧ board'.notices = before'.notices ++ heard

theorem HeardSince.hear {before before' board board' : Board}
    (h : HeardSince before before' board board') (chip chip' : Chip) (bus bus' : Bus)
    (notices : Array (Option Int)) :
    HeardSince before before' ({ board with chip, bus }.hear notices)
      ({ board' with chip := chip', bus := bus' }.hear notices) := by
  intro hsame
  obtain ⟨hlistening, heard, hnotices, hnotices'⟩ := h hsame
  rw [Board.hear_listening, Board.hear_listening, Board.hear_notices, Board.hear_notices]
  dsimp only
  rw [hlistening, hnotices, hnotices']
  refine ⟨rfl, if board.listening then heard ++ notices else heard, ?_, ?_⟩
  · split
    · rw [Array.append_assoc]
    · rfl
  · split
    · rw [Array.append_assoc]
    · rfl

/-- Two consoles in the same state before the same memory, of which the one was `before` and the other
`before'`: since then they have made the same fetches and given the same notices. -/
structure Resumed (memory : UInt16 → UInt8) (before before' console console' : Console) : Prop
    extends SameState console console' where
  bus : Bus.Resumed memory before.board.bus.fetched before'.board.bus.fetched console.board.bus
    console'.board.bus
  heard : HeardSince before.board before'.board console.board console'.board

namespace Resumed

variable {memory : UInt16 → UInt8} {before before' console console' : Console}

theorem session (h : Resumed memory before before' console console') :
    Session.Resumed memory before.board.bus.fetched before'.board.bus.fetched
      console.board.session console'.board.session :=
  ⟨h.chip, h.bus, rfl, rfl⟩

theorem checkTime (h : Resumed memory before before' console console') (time : Int) :
    console'.board.checkTime console'.buffer time =
      console.board.checkTime console.buffer time := by
  unfold Board.checkTime
  rw [h.chip, h.buffer]

theorem deliver (h : Resumed memory before before' console console') (out : StepBuffer) :
    console'.board.deliver out = console.board.deliver out := by
  funext channel time delta
  unfold Board.deliver
  rw [h.mix]

theorem absorb (h : Resumed memory before before' console console') {session session' : Session}
    (hsession : Session.Resumed memory before.board.bus.fetched before'.board.bus.fetched
      session session') :
    Resumed memory before before' (console.absorb session) (console'.absorb session') where
  chip := by rw [absorb_chip, absorb_chip, hsession.chip]
  buffer := by
    show (Board.conclude _ _ _).2 = (Board.conclude _ _ _).2
    unfold Board.conclude
    simp only [h.deliver, h.buffer, h.muted, hsession.steps]
  muted := by rw [absorb_muted, absorb_muted, h.muted]
  mix := by rw [absorb_mix, absorb_mix, h.mix]
  configuration := h.configuration
  bus := by
    rw [absorb_bus, absorb_bus]
    exact hsession.bus
  heard := by
    unfold Console.absorb Board.conclude
    rw [hsession.notices]
    exact h.heard.hear session.chip session'.chip session.bus session'.bus session.notices

theorem ended (h : Resumed memory before before' console console') (time : Int) :
    Resumed memory before before' (console.ended time) (console'.ended time) := by
  have hran := h.absorb (h.session.endFrame time)
  unfold Console.ended
  exact ⟨⟨hran.chip, congrArg (·.endFrame time) hran.buffer, hran.muted, hran.mix,
    hran.configuration⟩, hran.bus, hran.heard⟩

theorem read (h : Resumed memory before before' console console') (count : Nat) :
    (console'.read count).1 = (console.read count).1 ∧
      Resumed memory before before' (console.read count).2 (console'.read count).2 := by
  unfold Console.read
  rw [h.buffer]
  exact ⟨rfl, ⟨h.chip, rfl, h.muted, h.mix, h.configuration⟩, h.bus, h.heard⟩

theorem switched (h : Resumed memory before before' console console') (channel : Channel)
    (muted : Bool) :
    Resumed memory before before' (console.switched channel muted)
      (console'.switched channel muted) := by
  unfold Console.switched
  rw [h.deliver, h.chip, h.buffer, h.muted]
  exact ⟨⟨h.chip, rfl, rfl, h.mix, h.configuration⟩, h.bus, h.heard⟩

theorem reset (h : Resumed memory before before' console console') :
    Resumed memory before before' console.reset console'.reset := by
  have hmake : SameMake console console' :=
    ⟨congrArg Chip.wiring h.chip, congrArg StepBuffer.clear h.buffer, h.configuration⟩
  refine ⟨hmake.reset h.muted h.mix, ?_, ?_⟩
  · show Bus.Resumed memory _ _ console.board.reset.bus console'.board.reset.bus
    rw [Board.reset_bus, Board.reset_bus]
    exact h.bus
  · unfold Console.reset Board.reset
    rw [h.chip]
    exact h.heard.hear _ _ console.board.bus console'.board.bus _

/-- Such consoles answer every operation alike and stay such consoles. -/
theorem attempt (h : Resumed memory before before' console console') (operation : Operation) :
    (console'.attempt operation).1 = (console.attempt operation).1 ∧
      Resumed memory before before' (console.attempt operation).2
        (console'.attempt operation).2 := by
  cases operation with
  | write time address value =>
    have hnext := attempt_of_checks (f := id) (h.checkTime time) (console.perform_write ..)
      (console'.perform_write ..) h rfl (h.absorb (h.session.write time address value))
    rwa [Except.map_id] at hnext
  | readStatus time =>
    obtain ⟨hstatus, hsession⟩ := h.session.readStatus time
    have hnext := attempt_of_checks (f := id) (h.checkTime time) (console.perform_readStatus ..)
      (console'.perform_readStatus ..) h (congrArg Outcome.status hstatus) (h.absorb hsession)
    rwa [Except.map_id] at hnext
  | runFrame time count =>
    have hperform' := console'.perform_runFrame time count
    rw [h.configuration] at hperform'
    obtain ⟨hsamples, hread⟩ := (h.ended time).read (min count console.configuration.blockSize)
    have hnext := attempt_of_checks (f := id) (h.checkTime time) (console.perform_runFrame ..)
      hperform' h (congrArg Outcome.samples hsamples) hread
    rwa [Except.map_id] at hnext
  | read count =>
    obtain ⟨hsamples, hread⟩ := h.read count
    exact ⟨congrArg (fun samples => Except.ok (Outcome.samples samples)) hsamples, hread⟩
  | setMuted position muted =>
    have hperform := console.perform_setMuted position muted
    have hperform' := console'.perform_setMuted position muted
    cases hchannel : Channel.ofIndex? position with
    | none =>
      rw [hchannel] at hperform hperform'
      rw [attempt_of_error hperform, attempt_of_error hperform']
      exact ⟨rfl, h⟩
    | some channel =>
      rw [hchannel] at hperform hperform'
      rw [attempt_of_ok hperform, attempt_of_ok hperform', h.muted]
      refine ⟨rfl, ?_⟩
      dsimp only
      split
      · exact h
      · exact h.switched channel muted
  | setVolume volume => exact ⟨rfl, ⟨h.chip, h.buffer, h.muted, rfl, h.configuration⟩, h.bus, h.heard⟩
  | listen listening =>
    refine ⟨rfl, ⟨h.chip, h.buffer, h.muted, h.mix, h.configuration⟩, h.bus, ?_⟩
    intro hsame
    obtain ⟨_, heard, hnotices, hnotices'⟩ := h.heard hsame
    exact ⟨rfl, heard, hnotices, hnotices'⟩
  | takeStall =>
    have hstall : console'.board.chip.dmc.takeStall = console.board.chip.dmc.takeStall := by
      rw [h.chip]
    refine ⟨congrArg (fun stall : UInt32 × Dmc => Except.ok (Outcome.stall stall.1)) hstall,
      ⟨?_, h.buffer, h.muted, h.mix, h.configuration⟩, h.bus, h.heard⟩
    show { console'.board.chip with dmc := console'.board.chip.dmc.takeStall.2 } =
      { console.board.chip with dmc := console.board.chip.dmc.takeStall.2 }
    rw [h.chip]
  | reset => exact ⟨rfl, h.reset⟩

/-- Such consoles answer every history alike. -/
theorem attemptAll (h : Resumed memory before before' console console')
    (operations : List Operation) :
    console'.answers operations = console.answers operations ∧
      Resumed memory before before' (console.attemptAll operations)
        (console'.attemptAll operations) := by
  induction operations generalizing console console' with
  | nil => exact ⟨rfl, h⟩
  | cons operation operations ih =>
    obtain ⟨hanswer, hnext⟩ := h.attempt operation
    obtain ⟨hanswers, hlast⟩ := ih hnext
    rw [answers, answers, hanswer, hanswers]
    exact ⟨rfl, hlast⟩

theorem of_sameState {memory : UInt16 → UInt8} {console console' : Console}
    (h : SameState console console') (hbus : console.board.bus.respond = fun _ => memory)
    (hbus' : console'.board.bus.respond = fun _ => memory) :
    Resumed memory console console' console console' :=
  ⟨h, ⟨hbus, hbus', #[], rfl, rfl⟩, fun hsame => ⟨hsame, #[], rfl, rfl⟩⟩

end Resumed

theorem respond_attemptAll {memory : UInt16 → UInt8} {console : Console}
    (h : console.board.bus.respond = fun _ => memory) (operations : List Operation) :
    (console.attemptAll operations).board.bus.respond = fun _ => memory := by
  have hsame : SameState console console := ⟨rfl, rfl, rfl, rfl, rfl⟩
  exact ((Resumed.of_sameState hsame h h).attemptAll operations).2.bus.respond

/-- After a reset the history of a console shows nowhere.  Two consoles with the same settings that
mute and scale alike are in the same state after a reset, whatever they were asked for before; with
nothing muted and the volume of the settings that is the state of a console that was just created;
and if the bytes of the memory depend only on the address, all later operations have the same answers,
fetches and notices.  A second reset changes nothing. -/
theorem reset_erases_history {bus bus' : Bus} {configuration : Configuration}
    {console console' : Console} (hcreate : Console.create bus configuration = .ok console)
    (hcreate' : Console.create bus' configuration = .ok console') (run run' : List Operation) :
    let last := console.attemptAll run
    let last' := console'.attemptAll run'
    (last'.board.muted = last.board.muted → last'.board.mix = last.board.mix →
      SameState last.reset last'.reset ∧
      ∀ memory, (bus.respond = fun _ => memory) → (bus'.respond = fun _ => memory) → ∀ later,
        last'.reset.answers later = last.reset.answers later ∧
        Resumed memory last.reset last'.reset (last.reset.attemptAll later)
          (last'.reset.attemptAll later)) ∧
    (last.board.muted = .fill false → last.board.mix = .ofVolume configuration.volume →
      SameState console last.reset ∧
      ∀ memory, (bus.respond = fun _ => memory) → ∀ later,
        last.reset.answers later = console.answers later ∧
        Resumed memory console last.reset (console.attemptAll later)
          (last.reset.attemptAll later)) ∧
    SameState last.reset last.reset.reset := by
  intro last last'
  obtain ⟨hfresh, hmuted, hmix, _, hbus⟩ := create_facts hcreate
  obtain ⟨_, _, _, _, hbus'⟩ := create_facts hcreate'
  have hmake : SameMake console last := sameMake_attemptAll console run
  have hmake' : SameMake console' last' := sameMake_attemptAll console' run'
  have hrespond {memory : UInt16 → UInt8} (h : bus.respond = fun _ => memory) :
      last.reset.board.bus.respond = fun _ => memory := by
    rw [reset_bus]
    exact respond_attemptAll (hbus ▸ h) run
  have hrespond' {memory : UInt16 → UInt8} (h : bus'.respond = fun _ => memory) :
      last'.reset.board.bus.respond = fun _ => memory := by
    rw [reset_bus]
    exact respond_attemptAll (hbus' ▸ h) run'
  refine ⟨?_, ?_, sameState_reset_reset last⟩
  · intro hsameMuted hsameMix
    have hsame : SameMake last last' :=
      (hmake.symm.trans (sameMake_create hcreate hcreate')).trans hmake'
    have hstate := hsame.reset hsameMuted hsameMix
    exact ⟨hstate, fun memory h h' later =>
      (Resumed.of_sameState hstate (hrespond h) (hrespond' h')).attemptAll later⟩
  · intro hunmuted hvolume
    have hreset := hmake.reset (hunmuted.trans hmuted.symm) (hvolume.trans hmix.symm)
    have hstate : SameState console last.reset :=
      ⟨hreset.chip.trans hfresh.chip, hreset.buffer.trans hfresh.buffer,
        hreset.muted.trans hfresh.muted, hreset.mix.trans hfresh.mix,
        hreset.configuration.trans hfresh.configuration⟩
    exact ⟨hstate, fun memory h later =>
      (Resumed.of_sameState hstate (hbus ▸ h) (hrespond h)).attemptAll later⟩

/-- Operations that play a sample with a change of mode, a switch and a change of volume, leave
samples unread and a stall uncollected, and of which two are refused. -/
def playedSample : List Operation :=
  [.write 0 0x4010 0x4F, .write 0 0x4013 2, .write 3 0x4015 0x1F, .write 40 0x4017 0x80,
    .write 10 0x4000 0xBF, .runFrame 5000 10, .setMuted 7 true, .setMuted 2 true, .setVolume 0.25,
    .runFrame 3000 5, .setMuted 2 false, .setVolume 1.0]

/-- After a sample was played, and equally after a switch alone, a reset puts a console in the state in
which it was created, and it sounds the same from there on. -/
theorem reset_erases_history_of_sample :
    ∃ console, Console.create (.unconnected 0xAA) .standard = .ok console ∧
      (console.attemptAll playedSample).board.chip ≠ console.board.chip ∧
      (console.attemptAll playedSample).board.bus.fetched.size = 19 ∧
      SameState console (console.attemptAll playedSample).reset ∧
      (console.attemptAll playedSample).reset.answers playedSample =
        console.answers playedSample ∧
      SameState (console.attemptAll playedSample).reset
        (console.attemptAll [.setMuted 2 true, .setMuted 2 false]).reset := by
  obtain ⟨console, hcreate, hfacts⟩ := exists_ok
    (Console.create (.unconnected 0xAA) .standard)
    (fun console =>
      let last := console.attemptAll playedSample
      let last' := console.attemptAll [.setMuted 2 true, .setMuted 2 false]
      last.board.chip ≠ console.board.chip && last.board.bus.fetched.size = 19 &&
        last.board.muted = .fill false && last.board.mix = .ofVolume 1.0 &&
        last'.board.muted = last.board.muted && last'.board.mix = last.board.mix)
    (by decide +kernel)
  simp only [Bool.and_eq_true, decide_eq_true_eq] at hfacts
  obtain ⟨⟨⟨⟨⟨hchip, hfetched⟩, hmuted⟩, hmix⟩, hmuted'⟩, hmix'⟩ := hfacts
  obtain ⟨hruns, hfresh, _⟩ := reset_erases_history hcreate hcreate playedSample
    [.setMuted 2 true, .setMuted 2 false]
  obtain ⟨hstate, hlater⟩ := hfresh hmuted hmix
  exact ⟨console, hcreate, hchip, hfetched, hstate, (hlater _ rfl playedSample).1,
    (hruns hmuted' hmix').1⟩

end Console

end Chiptune
