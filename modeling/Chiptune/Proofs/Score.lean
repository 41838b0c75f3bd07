import Chiptune.Proofs.Likeness

/-! Two runs of a console side by side.  A `Score` is a console together with all that it has put out:
the steps of each channel and of the sequencer at their times from the start, and what it answered.
One run `Trails` another one if it makes up for all that it lacks by running its chip to the clock of
the other one.  An operation that both make keeps this so (`Trails.play`), and so does one that only
the leading run makes if nothing within the scope can tell it (`Trails.erase`). -/

namespace Chiptune

/-! ### Scores -/

/-- What a status read told, and the clock from the start at which it saw the channels. -/
structure Reading where
  status : Status
  seen : Int

/-- A console with all that it put out and answered.  `origin` is the time of the frame's start. -/
structure Score where
  console : Console
  origin : Int := 0
  steps : Channel → List Step := fun _ => []
  beats : List (Int × Beat) := []
  samples : List (Array Int16) := []
  stalls : List UInt32 := []
  readings : List Reading := []
  refused : List Fault := []

namespace Operation

/-- The clock at which an operation is made: its own time, or else that to which the chip has run. -/
def clock (now : Int) (operation : Operation) : Int := operation.time?.getD now

/-- The clocks by which an operation moves the start of the frame of a chip that has come to `now`. -/
def span (now : Int) : Operation → Int
  | .runFrame time _ => time
  | .reset => now
  | _ => 0

theorem span_eq_of_le {now now' : Int} {operation : Operation} (hle : now ≤ now')
    (hstop : now' ≤ operation.stop now) : operation.span now' = operation.span now := by
  cases operation with
  | reset => exact Int.le_antisymm hstop hle
  | _ => rfl

/-- A write that touches nothing within the scope, or a status read if the frame interrupt is left
out of it. -/
inductive Unseen (scope : Scope) : Operation → Prop
  | write {time : Int} {address : UInt16} {value : UInt8} :
    (∀ session : Session,
      session.Resembles scope ((Operation.write time address value).touch session)) →
    Unseen scope (.write time address value)
  | readStatus {time : Int} : scope.frameIrq = false → Unseen scope (.readStatus time)

end Operation

namespace Outcome

/-- The samples that an operation handed out, if it handed out any. -/
def handed : Outcome → List (Array Int16)
  | .samples taken => [taken]
  | _ => []

/-- The stall that an operation collected. -/
def collected : Outcome → List UInt32
  | .stall cycles => [cycles]
  | _ => []

/-- The status that an operation told. -/
def told : Outcome → List Status
  | .status shown => [shown]
  | _ => []

/-- The reading of a status read by a chip that had come to `now` in a frame from `origin` on. -/
def readings (outcome : Outcome) (origin now : Int) (operation : Operation) : List Reading :=
  match operation, outcome with
  | .readStatus time, .status shown => [⟨shown, origin + max (time - 1) now⟩]
  | _, _ => []

theorem map_status_readings {console next : Console} {operation : Operation} {outcome : Outcome}
    (h : console.perform operation = .ok (outcome, next)) (origin now : Int) :
    (outcome.readings origin now operation).map Reading.status = outcome.told := by
  cases operation with
  | read count | setVolume volume | listen listening | takeStall | reset =>
    cases h
    rfl
  | _ =>
    obtain ⟨_, _, houtcome⟩ := map_eq_ok h
    cases houtcome
    rfl

end Outcome

namespace Score

/-- The clock within the frame to which the chip has run. -/
def now (score : Score) : Int := score.console.board.chip.time

/-- Writes down steps and beats of the current frame, on the clock of the whole run. -/
def record (score : Score) (steps : Channel → List Step) (beats : List (Int × Beat)) : Score :=
  { score with
    steps := fun channel =>
      score.steps channel ++ (steps channel).map (Step.rebase (-score.origin))
    beats := score.beats ++ beats.map fun beat => (beat.1 + score.origin, beat.2) }

/-- Runs the chip to `stop` and does nothing else. -/
def advance (score : Score) (stop : Int) : Score :=
  let session := score.console.board.session
  { score.record (fun channel => ChannelStep.track channel (session.runTo stop).steps)
      (session.fires stop) with
    console := score.console.advanced stop }

/-- Records an operation that was accepted. -/
def accept (score : Score) (operation : Operation) (outcome : Outcome) (next : Console) : Score :=
  let session := score.console.board.session
  { score.record (fun channel => ChannelStep.track channel (operation.act session).steps)
      (session.fires (operation.stop score.now)) with
    console := next
    origin := score.origin + operation.span score.now
    samples := score.samples ++ outcome.handed
    stalls := score.stalls ++ outcome.collected
    readings := score.readings ++ outcome.readings score.origin score.now operation }

/-- Makes an operation.  One that is refused is noted and changes nothing else. -/
def play (score : Score) (operation : Operation) : Score :=
  match score.console.perform operation with
  | .error fault => { score with refused := score.refused ++ [fault] }
  | .ok (outcome, next) => score.accept operation outcome next

theorem play_of_error {score : Score} {operation : Operation} {fault : Fault}
    (h : score.console.perform operation = .error fault) :
    score.play operation = { score with refused := score.refused ++ [fault] } := by
  unfold play
  rw [h]

theorem play_of_ok {score : Score} {operation : Operation} {outcome : Outcome} {next : Console}
    (h : score.console.perform operation = .ok (outcome, next)) :
    score.play operation = score.accept operation outcome next := by
  unfold play
  rw [h]

/-- A write outside the chip's range changes nothing. -/
theorem play_of_none {score : Score} {time : Int} {address : UInt16} {value : UInt8}
    (h : Location.ofAddress? address = none)
    (hperform : score.console.perform (.write time address value) =
      .ok (.done, score.console.absorb
        (score.console.board.session.write time address value))) :
    score.play (.write time address value) = score := by
  have hnone : score.console.board.session.fires score.now = [] := if_pos (Int.le_refl _)
  have hsilent (channel : Channel) :
      ChannelStep.track channel score.console.board.session.steps = [] := rfl
  have hspan : (Operation.write time address value).span score.now = 0 := rfl
  rw [play_of_ok hperform, Session.write_of_none h, Console.absorb_session]
  unfold accept record
  simp only [Operation.act_of_none _ _ h, Operation.stop_of_none _ _ h, hnone, hsilent, hspan,
    Outcome.handed, Outcome.collected, Outcome.readings, List.map_nil, List.append_nil,
    Int.add_zero]

/-- Scores that are the same within a scope. -/
structure Resembles (scope : Scope) (score score' : Score) : Prop where
  console : score.console.Resembles scope score'.console
  origin : score'.origin = score.origin
  steps : ∀ channel, scope.hears channel = true → score'.steps channel = score.steps channel
  beats : score'.beats = score.beats
  samples : scope.Whole → score'.samples = score.samples
  stalls : scope.hears .dmc = true → score'.stalls = score.stalls

namespace Resembles

variable {scope : Scope} {score score' : Score}

theorem refl (score : Score) : score.Resembles scope score :=
  ⟨.refl _, rfl, fun _ _ => rfl, rfl, fun _ => rfl, fun _ => rfl⟩

theorem now (h : score.Resembles scope score') : score'.now = score.now := h.console.time

end Resembles

theorem advance_now (score : Score) : score.advance score.now = score := by
  have hnone : score.console.board.session.fires score.now = [] := if_pos (Int.le_refl _)
  have hnow : score.console.board.session.runTo score.now = score.console.board.session :=
    Session.runTo_now _
  have hsilent (channel : Channel) :
      ChannelStep.track channel score.console.board.session.steps = [] := rfl
  have hconsole : score.console.advanced score.now = score.console :=
    Console.advanced_now score.console
  unfold advance record
  simp only [hnone, hnow, hsilent, hconsole, List.map_nil, List.append_nil]

/-- The steps of a channel up to `stop`, those in the current frame being the last. -/
def stepsTo (score : Score) (stop : Int) (channel : Channel) : List Step :=
  score.steps channel ++
    (score.console.board.session.emits stop channel).map (Step.rebase (-score.origin))

/-- The beats up to `stop`, those in the current frame being the last. -/
def beatsTo (score : Score) (stop : Int) : List (Int × Beat) :=
  score.beats ++
    (score.console.board.session.fires stop).map fun beat => (beat.1 + score.origin, beat.2)

theorem steps_advance (score : Score) (stop : Int) (channel : Channel) :
    (score.advance stop).steps channel = score.stepsTo stop channel := by
  have htrack := score.console.board.session.track_runTo stop channel
  unfold advance record
  simp only [htrack]
  rfl

theorem steps_accept (score : Score) (operation : Operation) (outcome : Outcome) (next : Console)
    (channel : Channel) :
    (score.accept operation outcome next).steps channel =
      score.stepsTo (operation.stop score.now) channel := by
  have htrack := score.console.board.session.track_act operation channel
  unfold accept record
  simp only [htrack]
  rfl

theorem now_advance (score : Score) (stop : Int) :
    (score.advance stop).now = max score.now stop := by
  show (score.console.absorb (score.console.board.session.runTo stop)).board.chip.time = _
  rw [Console.absorb_chip, Session.runTo_time]
  rfl

end Score

/-! ### A run that trails another one -/

/-- What two status reads tell in common: the frame interrupt, and all the rest if they saw the
channels at the same clock. -/
def Reading.Agrees (reading reading' : Reading) : Prop :=
  reading'.status.frameIrq = reading.status.frameIrq ∧
    (reading'.seen = reading.seen → reading'.status = reading.status)

namespace Score

/-- The first run has made up for all that it lacks within the scope once its chip has run to the
clock of the second one. -/
structure Trails (scope : Scope) (score score' : Score) : Prop where
  behind : (score.advance score'.now).Resembles scope score'
  refused : score'.refused = score.refused
  readings : scope.Whole → scope.frameIrq = true →
    List.Forall₂ Reading.Agrees score.readings score'.readings

namespace Trails

variable {scope : Scope} {score score' : Score}

theorem refl (score : Score) : Trails scope score score := by
  refine ⟨?_, rfl, fun _ _ => List.forall₂_same.mpr fun _ _ => ⟨rfl, fun _ => rfl⟩⟩
  rw [advance_now]
  exact .refl score

section Lead

variable (h : Trails scope score score')
include h

theorem now_le : score.now ≤ score'.now := by
  have hnow := h.behind.now
  rw [now_advance] at hnow
  omega

theorem level (hnow : score'.now = score.now) : score.Resembles scope score' := by
  have hbehind := h.behind
  rwa [hnow, advance_now] at hbehind

theorem advance : Trails scope (score.advance score'.now) score' := by
  have hnow : score'.now = (score.advance score'.now).now := h.behind.now
  refine ⟨?_, h.refused, h.readings⟩
  have hcaught := advance_now (score.advance score'.now)
  rw [← hnow] at hcaught
  rw [hcaught]
  exact h.behind

theorem session :
    (score.console.board.session.runTo score'.now).Resembles scope
      score'.console.board.session := by
  have hsession := h.behind.console.session
  have habsorbed := Console.session_absorb score.console
    (score.console.board.session.runTo score'.now)
  have hadvanced : (score.advance score'.now).console.board.session =
      { chip := (score.console.board.session.runTo score'.now).chip
        bus := (score.console.board.session.runTo score'.now).bus } := habsorbed
  rw [hadvanced] at hsession
  exact ⟨hsession.tones, hsession.dmc, hsession.bus, hsession.sequencer, hsession.enables,
    hsession.time⟩

theorem checkTime {time : Int} (htime : score'.now ≤ max score.now time) :
    score'.console.board.checkTime score'.console.buffer time =
      score.console.board.checkTime score.console.buffer time := by
  have hle := h.now_le
  have hplace := (score.console.absorb_samePlace _).trans h.behind.console.place
  have hcapacity := hplace.frameCapacity
  unfold now at hle htime
  unfold Board.checkTime
  rw [hcapacity]
  by_cases hearly : time < score.console.board.chip.time
  · have hsame : score'.console.board.chip.time = score.console.board.chip.time := by omega
    rw [hsame]
  · rw [if_neg hearly, if_neg (by omega)]

/-! ### Operations of both runs -/

/-- After a session that both runs take over, the first one in whole, they agree again. -/
theorem absorb {last last' : Session} (hlast : last.Resembles scope last') {stop : Int}
    (hmid : score'.now ≤ max stop score.now)
    (htrack : ∀ channel, ChannelStep.track channel last.steps =
      score.console.board.session.emits stop channel)
    (htrack' : ∀ channel, ChannelStep.track channel last'.steps =
      score'.console.board.session.emits stop channel) :
    (score.console.absorb last).Resembles scope (score'.console.absorb last') := by
  have hconsole : (score.console.absorb
      (score.console.board.session.runTo score'.now)).Resembles scope score'.console :=
    h.behind.console
  refine hconsole.absorb hlast ?_
  intro hwhole channel
  have hemits := h.session.emits stop (hwhole channel)
  rw [htrack, htrack', Session.track_runTo, hemits]
  exact Session.emits_split _ hmid channel

theorem stepsTo {stop : Int} (hmid : score'.now ≤ max stop score.now) {channel : Channel}
    (hears : scope.hears channel = true) :
    score'.stepsTo stop channel = score.stepsTo stop channel := by
  have hsteps := h.behind.steps channel hears
  have hemits := h.session.emits stop hears
  have horigin : score'.origin = score.origin := h.behind.origin
  have hsplit := score.console.board.session.emits_split hmid channel
  rw [steps_advance] at hsteps
  unfold Score.stepsTo at *
  rw [hsteps, hemits, horigin, hsplit, List.map_append, List.append_assoc]

theorem beatsTo {stop : Int} (hmid : score'.now ≤ max stop score.now) :
    score'.beatsTo stop = score.beatsTo stop := by
  have hbeats : score'.beats = score.beatsTo score'.now := h.behind.beats
  have hfires := h.session.fires stop
  have horigin : score'.origin = score.origin := h.behind.origin
  have hsplit := score.console.board.session.fires_split hmid
  unfold Score.beatsTo at *
  rw [hbeats, hfires, horigin, hsplit, List.map_append, List.append_assoc]

variable {operation : Operation}

theorem refuse {fault : Fault} (hperform : score.console.perform operation = .error fault)
    (hperform' : score'.console.perform operation = .error fault) :
    Trails scope (score.play operation) (score'.play operation) := by
  rw [play_of_error hperform, play_of_error hperform']
  exact ⟨⟨h.behind.console, h.behind.origin, h.behind.steps, h.behind.beats, h.behind.samples,
    h.behind.stalls⟩, congrArg (· ++ [fault]) h.refused, h.readings⟩

/-- Both runs make an operation that the leading one has not yet passed. -/
theorem accept (hstop : score'.now ≤ operation.stop score.now) {outcome outcome' : Outcome}
    {next next' : Console}
    (hperform : score.console.perform operation = .ok (outcome, next))
    (hperform' : score'.console.perform operation = .ok (outcome', next'))
    (hnext : next.Resembles scope next')
    (hhanded : scope.Whole → outcome'.handed = outcome.handed)
    (hcollected : scope.hears .dmc = true → outcome'.collected = outcome.collected)
    (hreadings : scope.Whole → scope.frameIrq = true → List.Forall₂ Reading.Agrees
      (outcome.readings score.origin score.now operation)
      (outcome'.readings score'.origin score'.now operation)) :
    Trails scope (score.play operation) (score'.play operation) := by
  have hle := h.now_le
  have hsame := Operation.stop_eq_of_le hle hstop
  have hspan := Operation.span_eq_of_le hle hstop
  have horigin : score'.origin = score.origin := h.behind.origin
  rw [play_of_ok hperform, play_of_ok hperform']
  have hagree : (score.accept operation outcome next).Resembles scope
      (score'.accept operation outcome' next') := by
    refine ⟨hnext, ?_, fun channel hears => ?_, ?_, fun hwhole => ?_, fun hears => ?_⟩
    · show score'.origin + operation.span score'.now = score.origin + operation.span score.now
      rw [horigin, hspan]
    · rw [steps_accept, steps_accept, hsame]
      exact h.stepsTo (by omega) hears
    · show score'.beatsTo (operation.stop score'.now) = score.beatsTo (operation.stop score.now)
      rw [hsame]
      exact h.beatsTo (by omega)
    · show score'.samples ++ outcome'.handed = score.samples ++ outcome.handed
      rw [h.behind.samples hwhole, hhanded hwhole]
      rfl
    · show score'.stalls ++ outcome'.collected = score.stalls ++ outcome.collected
      rw [h.behind.stalls hears, hcollected hears]
      rfl
  refine ⟨?_, h.refused, fun hwhole hflag => ?_⟩
  · rw [hagree.now, advance_now]
    exact hagree
  · exact List.rel_append (h.readings hwhole hflag) (hreadings hwhole hflag)

theorem runTo {stop : Int} (hmid : score'.now ≤ max stop score.now) :
    (score.console.board.session.runTo stop).Resembles scope
      (score'.console.board.session.runTo stop) :=
  (Session.resembles_runTo_runTo scope _ hmid).trans (h.session.runTo stop)

theorem act (hstop : score'.now ≤ operation.stop score.now) :
    (score.console.absorb (operation.act score.console.board.session)).Resembles scope
      (score'.console.absorb (operation.act score'.console.board.session)) := by
  have hsame := Operation.stop_eq_of_le h.now_le hstop
  have hmid : score'.now ≤ max (operation.stop score.now) score.now := by omega
  refine h.absorb (Session.act_of_lead h.session hstop).1 hmid
    (fun channel => score.console.board.session.track_act operation channel) ?_
  intro channel
  rw [← hsame]
  exact score'.console.board.session.track_act operation channel

/-- An operation that has a time is refused by both runs, or by none once neither has passed it. -/
theorem timed {time : Int} (hop : score'.now ≤ max score.now time) {outcome outcome' : Outcome}
    {next next' : Console}
    (hperform : score.console.perform operation =
      (score.console.board.checkTime score.console.buffer time).map fun _ => (outcome, next))
    (hperform' : score'.console.perform operation =
      (score'.console.board.checkTime score'.console.buffer time).map fun _ => (outcome', next'))
    (haccept : score'.now ≤ time → score.console.perform operation = .ok (outcome, next) →
      score'.console.perform operation = .ok (outcome', next') →
      Trails scope (score.play operation) (score'.play operation)) :
    Trails scope (score.play operation) (score'.play operation) := by
  have hcheck := h.checkTime hop
  rw [hcheck] at hperform'
  cases hresult : score.console.board.checkTime score.console.buffer time with
  | error fault =>
    rw [hresult] at hperform hperform'
    exact h.refuse hperform hperform'
  | ok =>
    obtain ⟨htime, _⟩ := Board.checkTime_ok (hcheck.trans hresult)
    rw [hresult] at hperform hperform'
    exact haccept htime hperform hperform'

theorem write {time : Int} (hop : score'.now ≤ max score.now time) (address : UInt16)
    (value : UInt8) :
    Trails scope (score.play (.write time address value))
      (score'.play (.write time address value)) := by
  refine h.timed hop (score.console.perform_write time address value)
    (score'.console.perform_write time address value) ?_
  intro htime hperform hperform'
  cases hlocation : Location.ofAddress? address with
  | none =>
    rw [play_of_none hlocation hperform, play_of_none hlocation hperform']
    exact h
  | some location =>
    have hstop : score'.now ≤ (Operation.write time address value).stop score.now := by
      rw [Operation.stop_of_some _ _ hlocation]
      exact htime
    exact h.accept hstop hperform hperform' (h.act hstop) (fun _ => rfl) (fun _ => rfl)
      (fun _ _ => .nil)

theorem reading {time : Int} (htime : score'.now ≤ time) (hwhole : scope.Whole)
    (hflag : scope.frameIrq = true) :
    Reading.Agrees
      ⟨(score.console.board.session.readStatus time).1, score.origin + max (time - 1) score.now⟩
      ⟨(score'.console.board.session.readStatus time).1,
        score'.origin + max (time - 1) score'.now⟩ := by
  have hmid : score'.now ≤ max time score.now := by omega
  have hframe := (h.runTo hmid).sequencer.irqFlag hflag
  have horigin : score'.origin = score.origin := h.behind.origin
  unfold Reading.Agrees
  rw [Session.readStatus_fst, Session.readStatus_fst, hframe]
  refine ⟨rfl, fun hseen => ?_⟩
  have hclock : max (time - 1) score'.now = max (time - 1) score.now := by
    dsimp only at hseen
    omega
  have hglance : (score.console.board.session.glance time).Resembles scope
      (score'.console.board.session.glance time) := by
    have hmid : score'.now ≤ max (max (time - 1) score.now) score.now := by omega
    have hran := h.runTo hmid
    have hlooked : score'.console.board.session.glance time =
        score'.console.board.session.runTo (max (time - 1) score.now) :=
      congrArg score'.console.board.session.runTo hclock
    rwa [hlooked]
  rw [hglance.active hwhole, hglance.dmc (hwhole .dmc)]

theorem readStatus {time : Int} (hop : score'.now ≤ max score.now time) :
    Trails scope (score.play (.readStatus time)) (score'.play (.readStatus time)) := by
  refine h.timed hop (score.console.perform_readStatus time)
    (score'.console.perform_readStatus time) ?_
  intro htime hperform hperform'
  have hstop : score'.now ≤ (Operation.readStatus time).stop score.now := htime
  exact h.accept hstop hperform hperform' (h.act hstop) (fun _ => rfl) (fun _ => rfl)
    (fun hwhole hflag => .cons (h.reading htime hwhole hflag) .nil)

theorem runFrame {time : Int} (hop : score'.now ≤ max score.now time) (count : Nat) :
    Trails scope (score.play (.runFrame time count)) (score'.play (.runFrame time count)) := by
  have hconfiguration : score'.console.configuration = score.console.configuration :=
    h.behind.console.configuration
  have hperform' := score'.console.perform_runFrame time count
  rw [hconfiguration] at hperform'
  refine h.timed hop (score.console.perform_runFrame time count) hperform' ?_
  intro htime hperform hperform'
  have hstop : score'.now ≤ (Operation.runFrame time count).stop score.now := htime
  have hended : (score.console.ended time).Resembles scope (score'.console.ended time) :=
    (h.act hstop).endFrame time
  obtain ⟨hnext, hsamples⟩ := hended.read (min count score.console.configuration.blockSize)
  exact h.accept hstop hperform hperform' hnext
    (fun hwhole => congrArg (fun samples => [samples]) (hsamples hwhole))
    (fun _ => (rfl : ([] : List UInt32) = [])) (fun _ _ => .nil)

theorem setMuted (hnow : score'.now = score.now) (position : Nat) (muted : Bool) :
    Trails scope (score.play (.setMuted position muted))
      (score'.play (.setMuted position muted)) := by
  have hnext := (h.level hnow).console.setMuted position muted
  have hperform := score.console.perform_setMuted position muted
  have hperform' := score'.console.perform_setMuted position muted
  rw [Console.accepting_setMuted, Console.accepting_setMuted] at hnext
  cases hchannel : Channel.ofIndex? position with
  | none =>
    rw [hchannel] at hperform hperform'
    exact h.refuse hperform hperform'
  | some channel =>
    rw [hchannel] at hperform hperform' hnext
    exact h.accept (Int.le_of_eq hnow) hperform hperform' hnext (fun _ => rfl) (fun _ => rfl)
      (fun _ _ => .nil)

/-- Both runs make an operation at a clock to which both have come, or at one that neither has
passed. -/
theorem play (hop : score'.now ≤ max score.now (operation.clock score.now)) :
    Trails scope (score.play operation) (score'.play operation) := by
  have hle := h.now_le
  have hlevel (huntimed : operation.clock score.now = score.now) : score'.now = score.now := by
    omega
  cases operation with
  | write time address value => exact h.write hop address value
  | readStatus time => exact h.readStatus hop
  | runFrame time count => exact h.runFrame hop count
  | read count =>
    have hnow := hlevel rfl
    obtain ⟨hnext, hsamples⟩ := (h.level hnow).console.read count
    exact h.accept (Int.le_of_eq hnow) rfl rfl hnext
      (fun hwhole => congrArg (fun samples => [samples]) (hsamples hwhole)) (fun _ => rfl)
      (fun _ _ => .nil)
  | setMuted position muted => exact h.setMuted (hlevel rfl) position muted
  | setVolume volume =>
    have hnow := hlevel rfl
    exact h.accept (Int.le_of_eq hnow) rfl rfl ((h.level hnow).console.setVolume volume)
      (fun _ => rfl) (fun _ => rfl) (fun _ _ => .nil)
  | listen listening =>
    have hnow := hlevel rfl
    exact h.accept (Int.le_of_eq hnow) rfl rfl ((h.level hnow).console.listen listening)
      (fun _ => rfl) (fun _ => rfl) (fun _ _ => .nil)
  | takeStall =>
    have hnow := hlevel rfl
    exact h.accept (Int.le_of_eq hnow) rfl rfl (h.level hnow).console.takeStall (fun _ => rfl)
      (fun hears => congrArg (fun dmc : Dmc => [dmc.stall]) ((h.level hnow).console.session.dmc hears))
      (fun _ _ => .nil)
  | reset =>
    have hnow := hlevel rfl
    exact h.accept (Int.le_of_eq hnow) rfl rfl (h.level hnow).console.reset (fun _ => rfl)
      (fun _ => rfl) (fun _ _ => .nil)

/-! ### Operations of the leading run alone -/

/-- The leading run makes an operation that touches nothing within the scope. -/
theorem lead {stop : Int} (htime : score'.now ≤ stop) (hstop : operation.stop score'.now = stop)
    (hspan : operation.span score'.now = 0) {outcome : Outcome}
    (hperform : score'.console.perform operation =
      .ok (outcome, score'.console.absorb (operation.act score'.console.board.session)))
    (hunseen : (score'.console.board.session.runTo stop).Resembles scope
      (operation.act score'.console.board.session))
    (hhanded : outcome.handed = []) (hcollected : outcome.collected = [])
    (hreadings : scope.frameIrq = true →
      outcome.readings score'.origin score'.now operation = []) :
    Trails scope score (score'.play operation) := by
  have hmid : score'.now ≤ max stop score.now := by omega
  have horigin : score'.origin = score.origin := h.behind.origin
  have htracks' (channel : Channel) :
      ChannelStep.track channel (operation.act score'.console.board.session).steps =
        score'.console.board.session.emits stop channel := by
    rw [← hstop]
    exact score'.console.board.session.track_act operation channel
  have hconsole := h.absorb ((h.runTo hmid).trans hunseen) hmid
    (fun channel => score.console.board.session.track_runTo stop channel) htracks'
  have hnow : (score'.play operation).now = stop := by
    have hreached := hunseen.time
    rw [Session.runTo_time] at hreached
    rw [play_of_ok hperform]
    show (score'.console.absorb (operation.act score'.console.board.session)).board.chip.time = stop
    rw [Console.absorb_chip, hreached]
    exact Int.max_eq_right htime
  have hagree : (score.advance stop).Resembles scope (score'.play operation) := by
    rw [play_of_ok hperform]
    refine ⟨hconsole, ?_, fun channel hears => ?_, ?_, fun hwhole => ?_, fun hears => ?_⟩
    · show score'.origin + operation.span score'.now = score.origin
      rw [hspan, horigin, Int.add_zero]
    · rw [steps_accept, steps_advance, hstop]
      exact h.stepsTo hmid hears
    · show score'.beatsTo (operation.stop score'.now) = score.beatsTo stop
      rw [hstop]
      exact h.beatsTo hmid
    · show score'.samples ++ outcome.handed = score.samples
      rw [hhanded, List.append_nil]
      exact h.behind.samples hwhole
    · show score'.stalls ++ outcome.collected = score.stalls
      rw [hcollected, List.append_nil]
      exact h.behind.stalls hears
  refine ⟨?_, ?_, fun hwhole hflag => ?_⟩
  · rw [hnow]
    exact hagree
  · rw [play_of_ok hperform]
    exact h.refused
  · rw [play_of_ok hperform]
    show List.Forall₂ _ score.readings
      (score'.readings ++ outcome.readings score'.origin score'.now operation)
    rw [hreadings hflag, List.append_nil]
    exact h.readings hwhole hflag

/-- The leading run makes a write or a status read that cannot be told within the scope. -/
theorem erase (hunseen : operation.Unseen scope) {outcome : Outcome} {next : Console}
    (hperform : score'.console.perform operation = .ok (outcome, next)) :
    Trails scope score (score'.play operation) := by
  cases hunseen with
  | @write time address value htouch =>
    have haccepted := hperform
    rw [Console.perform_write] at haccepted
    obtain ⟨_, hcheck, haccepted⟩ := map_eq_ok haccepted
    rw [← haccepted] at hperform
    obtain ⟨htime, _⟩ := Board.checkTime_ok hcheck
    cases hlocation : Location.ofAddress? address with
    | none =>
      rw [play_of_none hlocation hperform]
      exact h
    | some location =>
      have hstop := Operation.stop_of_some time value hlocation score'.now
      have hact := Session.resembles_act scope score'.console.board.session
        (.write time address value)
      rw [Operation.stop_of_some _ _ hlocation] at hact
      exact h.lead htime hstop rfl hperform ((htouch _).trans hact) rfl rfl (fun _ => rfl)
  | @readStatus time hflag =>
    have haccepted := hperform
    rw [Console.perform_readStatus] at haccepted
    obtain ⟨_, hcheck, haccepted⟩ := map_eq_ok haccepted
    rw [← haccepted] at hperform
    obtain ⟨htime, _⟩ := Board.checkTime_ok hcheck
    have hclear := (score'.console.board.session.runTo time).resembles_clearIrq hflag
    have hact := Session.resembles_act scope score'.console.board.session (.readStatus time)
    exact h.lead htime rfl rfl hperform (hclear.trans hact) rfl rfl
      (fun hflag' => absurd hflag' (by simp [hflag]))

end Lead

end Trails

end Score

end Chiptune
