import Chiptune.Proofs.Erasure

/-! A status read clears the frame interrupt and disturbs nothing else.  It stops the chip twice, one
clock before its time and at its time, and no stop changes what the chip does.  So status reads may
be put into a run without any other trace, as long as they take the chip no further than the next
operation of the run would. -/

namespace Chiptune

/-- The chip after its frame interrupt was cleared and the next interrupt announced. -/
def Chip.acknowledged (chip : Chip) : Chip :=
  ({ chip with sequencer := chip.sequencer.clearIrq } : Chip).announced

theorem Chip.acknowledged_eq {chip : Chip} (h : chip.Consistent)
    (hflag : chip.sequencer.irqFlag = false) : chip.acknowledged = chip := by
  have hclear : chip.sequencer.clearIrq = chip.sequencer := Sequencer.eq_of_clearIrq rfl hflag.symm
  unfold acknowledged
  rw [hclear]
  exact h.announced_eq

/-- All there is but the frame interrupt. -/
def Scope.unflagged : Scope := ⟨fun _ => true, false, true⟩

theorem Session.Resembles.acknowledged {session session' : Session}
    (h : session.Resembles .unflagged session') :
    session'.chip.acknowledged = session.chip.acknowledged := by
  have htones : session'.chip.tones = session.chip.tones :=
    Tones.mk.injEq .. ▸
      ⟨h.tones.pulse1 rfl, h.tones.pulse2 rfl, h.tones.triangle rfl, h.tones.noise rfl⟩
  have hdmc : session'.chip.dmc = session.chip.dmc := h.dmc rfl
  unfold Chip.acknowledged
  rw [htones, hdmc, h.sequencer.rest, h.enables, h.time]
  rfl

namespace Console

/-- Consoles that differ in the frame interrupt, the announced interrupt and the notices, and in
nothing else. -/
structure SameButIrq (console console' : Console) : Prop where
  chip : console'.board.chip.acknowledged = console.board.chip.acknowledged
  bus : console'.board.bus = console.board.bus
  mix : console'.board.mix = console.board.mix
  muted : console'.board.muted = console.board.muted
  listening : console'.board.listening = console.board.listening
  buffer : console'.buffer = console.buffer
  configuration : console'.configuration = console.configuration

theorem Resembles.sameButIrq {console console' : Console}
    (h : console.Resembles .unflagged console') : console.SameButIrq console' :=
  ⟨h.session.acknowledged, h.session.bus rfl, h.mix, h.muted, h.listening, h.buffer fun _ => rfl,
    h.configuration⟩

end Console

/-- A chip that has not passed the clock of an operation has not passed its stop either, unless the
operation is a write that does nothing at all. -/
theorem Operation.stop_or_stays {now now' : Int} {operation : Operation}
    (htime : ∀ time, operation.time? = some time → now ≤ time)
    (hop : now' ≤ max now (operation.clock now)) :
    now' ≤ operation.stop now ∨ ∃ time address value,
      operation = .write time address value ∧ Location.ofAddress? address = none := by
  cases operation with
  | write time address value =>
    have hle := htime time rfl
    cases hlocation : Location.ofAddress? address with
    | none => exact .inr ⟨time, address, value, rfl, hlocation⟩
    | some location =>
      rw [stop_of_some _ _ hlocation]
      exact .inl (Int.le_trans hop (Int.max_le.mpr ⟨hle, Int.le_refl time⟩))
  | readStatus time | runFrame time count =>
    have hle := htime time rfl
    exact .inl (Int.le_trans hop (Int.max_le.mpr ⟨hle, Int.le_refl time⟩))
  | _ => exact .inl (Int.le_trans hop (Int.max_le.mpr ⟨Int.le_refl now, Int.le_refl now⟩))

namespace Score

/-! ### Runs into which status reads are put

An entry of such a run is an operation of its own, on the left, or on the right the time of a read. -/

/-- Puts in a status read.  One that would be refused is not put in. -/
def putRead (score : Score) (time : Int) : Score :=
  match score.console.perform (.readStatus time) with
  | .error _ => score
  | .ok (outcome, next) => score.accept (.readStatus time) outcome next

/-- An operation of the run, or a status read put into it. -/
def visit (score : Score) : Operation ⊕ Int → Score
  | .inl operation => score.play operation
  | .inr time => score.putRead time

/-- Whether an operation is accepted and starts a new frame. -/
def endsFrame (score : Score) : Operation → Bool
  | .runFrame time count => (score.console.perform (.runFrame time count)).toOption.isSome
  | .reset => true
  | _ => false

/-- The time is no later than any operation of the run that follows in the frame.  One that has no
time of its own is made at the clock to which the chip has come without the reads, and one that comes
too early counts as made then. -/
def Precedes (time : Int) : Score → List (Operation ⊕ Int) → Prop
  | _, [] => True
  | score, .inr _ :: rest => Precedes time score rest
  | score, .inl operation :: rest =>
    time ≤ max score.now (operation.clock score.now) ∧
      (score.endsFrame operation = true ∨ Precedes time (score.play operation) rest)

/-- No read comes later than any operation of the run that follows in the frame. -/
def InOrder : Score → List (Operation ⊕ Int) → Prop
  | _, [] => True
  | score, .inr time :: rest => Precedes time score rest ∧ InOrder score rest
  | score, .inl operation :: rest => InOrder (score.play operation) rest

theorem putRead_of_error {score : Score} {time : Int} {fault : Fault}
    (h : score.console.perform (.readStatus time) = .error fault) : score.putRead time = score := by
  unfold putRead
  rw [h]

theorem putRead_of_ok {score : Score} {time : Int} {result : Outcome × Console}
    (h : score.console.perform (.readStatus time) = .ok result) :
    score.putRead time = score.play (.readStatus time) := by
  rw [play_of_ok h]
  unfold putRead
  rw [h]

theorem endsFrame_of_error {score : Score} {operation : Operation} {fault : Fault}
    (h : score.console.perform operation = .error fault) : score.endsFrame operation = false := by
  cases operation with
  | runFrame time count =>
    show (score.console.perform (.runFrame time count)).toOption.isSome = false
    rw [h]
    rfl
  | reset => cases h
  | _ => rfl

theorem now_play_of_ok {score : Score} {operation : Operation} {outcome : Outcome} {next : Console}
    (h : score.console.perform operation = .ok (outcome, next)) :
    (score.play operation).now = operation.stop score.now - operation.span score.now := by
  obtain ⟨hchip, _, htime⟩ := Console.perform_ok h
  rw [play_of_ok h]
  show next.board.chip.time = _
  rw [hchip]
  cases operation with
  | write time address value =>
    show (score.console.board.session.write time address value).chip.time = _ - 0
    cases hlocation : Location.ofAddress? address with
    | none =>
      rw [Session.write_of_none hlocation, Operation.stop_of_none _ _ hlocation, Int.sub_zero]
      rfl
    | some location =>
      rw [Session.write_time hlocation, Operation.stop_of_some _ _ hlocation, Int.sub_zero]
      exact Int.max_eq_right (htime time rfl).1
  | readStatus time =>
    show (score.console.board.session.readStatus time).2.chip.time = time - 0
    rw [Session.readStatus_time, Int.sub_zero]
    exact Int.max_eq_right (htime time rfl).1
  | runFrame time count =>
    show (score.console.board.session.endFrame time).chip.time = time - time
    rw [Session.endFrame_time (htime time rfl).1, Int.sub_self]
  | reset =>
    have hreset := (Chip.consistent_reset score.console.board.session.chip).2
    simp only [Operation.act, Operation.stop, Operation.span, hreset, Int.sub_self]
  | _ =>
    show score.now = score.now - 0
    rw [Int.sub_zero]

namespace Trails

variable {scope : Scope} {bare full : Score} {operation : Operation}

theorem accepts_iff (h : Trails scope bare full)
    (hplay : Trails scope (bare.play operation) (full.play operation)) :
    (∃ result, full.console.perform operation = .ok result) ↔
      ∃ result, bare.console.perform operation = .ok result := by
  have hrefused := hplay.refused
  have hbefore := h.refused
  cases hbare : bare.console.perform operation with
  | error fault =>
    cases hfull : full.console.perform operation with
    | error fault' => simp
    | ok result =>
      rw [play_of_error hbare, play_of_ok hfull] at hrefused
      have hsame : full.refused = bare.refused ++ [fault] := hrefused
      rw [hbefore] at hsame
      simp at hsame
  | ok result =>
    cases hfull : full.console.perform operation with
    | error fault =>
      rw [play_of_ok hbare, play_of_error hfull] at hrefused
      have hsame : full.refused ++ [fault] = bare.refused := hrefused
      rw [hbefore] at hsame
      simp at hsame
    | ok result' => simp

/-- After an operation both runs have come to the same clock, or it has left both where they were. -/
theorem now_play (h : Trails scope bare full)
    (hop : full.now ≤ max bare.now (operation.clock bare.now)) :
    (full.play operation).now = (bare.play operation).now ∨
      ((full.play operation).now = full.now ∧ (bare.play operation).now = bare.now ∧
        bare.endsFrame operation = false) := by
  have haccepts := h.accepts_iff (h.play hop)
  cases hbare : bare.console.perform operation with
  | error fault =>
    cases hfull : full.console.perform operation with
    | error fault' =>
      rw [play_of_error hbare, play_of_error hfull]
      exact .inr ⟨rfl, rfl, endsFrame_of_error hbare⟩
    | ok result => simp [hbare, hfull] at haccepts
  | ok result =>
    cases hfull : full.console.perform operation with
    | error fault => simp [hbare, hfull] at haccepts
    | ok result' =>
      have htime := (Console.perform_ok hbare).2.2
      rw [now_play_of_ok hbare, now_play_of_ok hfull]
      rcases Operation.stop_or_stays (fun time hsome => (htime time hsome).1) hop with
        hstop | ⟨time, address, value, rfl, hnone⟩
      · rw [Operation.stop_eq_of_le h.now_le hstop, Operation.span_eq_of_le h.now_le hstop]
        exact .inl rfl
      · rw [Operation.stop_of_none _ _ hnone, Operation.stop_of_none _ _ hnone]
        exact .inr ⟨Int.sub_zero _, Int.sub_zero _, rfl⟩

theorem visitAll {entries : List (Operation ⊕ Int)} (h : Trails .unflagged bare full)
    (hnow : full.now = bare.now ∨ Precedes full.now bare entries) (horder : InOrder bare entries) :
    Trails .unflagged (bare.playAll (entries.filterMap Sum.getLeft?)) (entries.foldl visit full) := by
  -- The run with the reads is never ahead of the other one by more than the next operation allows.
  induction entries generalizing bare full with
  | nil => exact h
  | cons entry entries ih =>
    cases entry with
    | inl operation =>
      have hop : full.now ≤ max bare.now (operation.clock bare.now) := by
        rcases hnow with hsame | hprecedes
        · omega
        · exact hprecedes.1
      rw [List.foldl_cons]
      refine @ih (bare.play operation) (full.play operation) (h.play hop) ?_ horder
      rcases h.now_play hop with hlevel | ⟨hfull, hbare, hframe⟩
      · exact .inl hlevel
      · rcases hnow with hsame | ⟨_, hends | hlater⟩
        · exact .inl (by rw [hfull, hbare, hsame])
        · rw [hframe] at hends
          cases hends
        · rw [hfull]
          exact .inr hlater
    | inr time =>
      obtain ⟨hprecedes, horder⟩ := horder
      rw [List.foldl_cons]
      show Trails .unflagged _ (entries.foldl visit (full.putRead time))
      cases hread : full.console.perform (.readStatus time) with
      | error fault =>
        rw [putRead_of_error hread]
        exact ih h hnow horder
      | ok result =>
        have hreached : (full.play (.readStatus time)).now = time :=
          (now_play_of_ok hread).trans (Int.sub_zero time)
        rw [putRead_of_ok hread]
        refine ih (h.erase (.readStatus rfl) hread) (.inr ?_) horder
        rwa [hreached]

end Trails

end Score

namespace Console

section Read

variable {console next : Console} {time : Int} {status : Status}

theorem perform_of_readStatus (h : console.readStatus time = .ok (status, next)) :
    console.perform (.readStatus time) = .ok (.status status, next) := by
  show (console.readStatus time).map _ = _
  rw [h]
  rfl

theorem status_of_readStatus (h : console.readStatus time = .ok (status, next)) :
    status = (console.board.session.readStatus time).1 := by
  have hperform := perform_of_readStatus h
  rw [perform_readStatus] at hperform
  obtain ⟨_, _, houtcome⟩ := map_eq_ok hperform
  cases houtcome
  rfl

theorem sameButIrq_readStatus (h : console.readStatus time = .ok (status, next)) :
    (console.advanced time).SameButIrq next := by
  have hperform := perform_of_readStatus h
  have hunseen : (Operation.readStatus time).Unseen .unflagged := .readStatus rfl
  have htrails := (Score.Trails.refl { console }).erase hunseen hperform
  have hconsole := htrails.behind.console
  have hnow : (({ console } : Score).play (.readStatus time)).now = time :=
    (Score.now_play_of_ok hperform).trans (Int.sub_zero time)
  have hplay : ({ console } : Score).play (.readStatus time) =
      ({ console } : Score).accept (.readStatus time) (.status status) next :=
    Score.play_of_ok hperform
  rw [hnow, hplay] at hconsole
  exact hconsole.sameButIrq

/-- After a status read the frame interrupt is clear, and so it is in a second read at that time. -/
theorem readStatus_readStatus (h : console.readStatus time = .ok (status, next)) :
    next.board.chip.sequencer.irqFlag = false ∧
      ∃ status' next', next.readStatus time = .ok (status', next') ∧ status'.frameIrq = false := by
  obtain ⟨⟨hearly, hlate⟩, hnext⟩ := readStatus_ok h
  have htouched := Session.resembles_readStatus .full console.board.session time
  have hclear : next.board.chip.sequencer.irqFlag = false := by
    rw [hnext, absorb_chip]
    exact htouched.sequencer.irqFlag rfl
  have hreached : next.board.chip.time = time := by
    rw [hnext, absorb_chip, Session.readStatus_time]
    exact Int.max_eq_right hearly
  have hcapacity : next.buffer.frameCapacity = console.buffer.frameCapacity := by
    rw [hnext]
    exact (console.absorb_samePlace _).frameCapacity
  have hcheck : next.board.checkTime next.buffer time = .ok () := by
    unfold Board.checkTime
    rw [hreached, hcapacity, if_neg (Int.lt_irrefl time), if_neg (Int.not_lt.mpr hlate)]
  refine ⟨hclear, (next.board.session.readStatus time).1,
    next.absorb (next.board.session.readStatus time).2, ?_, ?_⟩
  · show (Except.map _ (Except.map _ _)) = _
    rw [hcheck]
    rfl
  · have hstays : next.board.session.runTo time = next.board.session :=
      Session.runTo_of_le (Int.le_of_eq hreached.symm)
    rw [Session.readStatus_fst, hstays]
    exact hclear

end Read

/-- A status read leaves the chip as it would be if it had just run to the time of the read, but for
the frame interrupt, which is cleared, and the announced interrupt, which follows from it.  The status
shows the frame interrupt of the chip at that time, and the channels and the sample interrupt of the
chip one clock before, or where it was if it had already come to that time.  So a second read at the
time finds the frame interrupt clear; and status reads that are put into a run, none later than an
operation that follows in the frame, change nothing but the frame interrupt, the announced interrupt
and its notices. -/
theorem readStatus_clears_flag_only {console : Console} (hreach : Reachable console) :
    (∀ time status next, console.readStatus time = .ok (status, next) →
      let advanced := console.advanced time
      let before := console.advanced (max (time - 1) console.board.chip.time)
      (next.board.chip = advanced.board.chip.acknowledged ∧ advanced.SameButIrq next ∧
        ∀ channel, ChannelStep.track channel (console.board.session.readStatus time).2.steps =
          ChannelStep.track channel (console.board.session.runTo time).steps) ∧
      (status.frameIrq = advanced.board.chip.sequencer.irqFlag ∧
        status.channels = before.board.chip.active ∧
        status.dmcIrq = before.board.chip.dmc.irqFlag) ∧
      ∃ status' next', next.readStatus time = .ok (status', next') ∧ status'.frameIrq = false) ∧
    ∀ entries, Score.InOrder { console } entries →
      let start : Score := { console }
      let bare := start.playAll (entries.filterMap Sum.getLeft?)
      let full := entries.foldl Score.visit start
      let level := bare.advance full.now
      full.samples = bare.samples ∧ full.stalls = bare.stalls ∧ full.refused = bare.refused ∧
        full.origin = bare.origin ∧ level.console.SameButIrq full.console ∧
        full.beats = level.beats ∧
        ∀ channel, full.steps channel = level.steps channel ∧
          full.console.board.chip.level channel = level.console.board.chip.level channel := by
  refine ⟨fun time status next hread => ?_, fun entries horder => ?_⟩
  · obtain ⟨_, hnext⟩ := readStatus_ok hread
    have hsame := sameButIrq_readStatus hread
    obtain ⟨hclear, hagain⟩ := readStatus_readStatus hread
    have hstatus := status_of_readStatus hread
    rw [Session.readStatus_fst] at hstatus
    have hconsistent : next.board.chip.Consistent := by
      rw [hnext, absorb_chip]
      exact Session.consistent_readStatus hreach.consistent time
    have hadvanced (stop : Int) :
        (console.advanced stop).board.chip = (console.board.session.runTo stop).chip :=
      absorb_chip ..
    refine ⟨⟨?_, hsame, fun channel => ?_⟩, ⟨?_, ?_, ?_⟩, hagain⟩
    · rw [← Chip.acknowledged_eq hconsistent hclear]
      exact hsame.chip
    · rw [Session.track_readStatus, Session.track_runTo]
    · rw [hstatus, hadvanced]
    · rw [hstatus, hadvanced]
      rfl
    · rw [hstatus, hadvanced]
      rfl
  · intro start bare full level
    have htrails : Score.Trails .unflagged bare full :=
      (Score.Trails.refl start).visitAll (.inl rfl) horder
    have hsame : level.Resembles .unflagged full := htrails.behind
    exact ⟨hsame.samples fun _ => rfl, hsame.stalls rfl, htrails.refused, hsame.origin,
      hsame.console.sameButIrq, hsame.beats,
      fun channel => ⟨hsame.steps channel rfl, hsame.console.session.level rfl⟩⟩

/-- The first frame interrupt after power-on is told once, and a status read between a load of the
sample channel and the end of the frame leaves the samples as they are. -/
theorem readStatus_clears_flag_only_of_first_sequence :
    let entries : List (Operation ⊕ Int) :=
      [.inl (.write 10 0x4011 0x40), .inr 20, .inl (.runFrame 900 50)]
    ∃ console status next, Console.create (.unconnected 0) .standard = .ok console ∧
      console.readStatus 29840 = .ok (status, next) ∧ status.frameIrq = true ∧
      (∃ status' next', next.readStatus 29840 = .ok (status', next') ∧ status'.frameIrq = false) ∧
      (entries.foldl Score.visit { console }).samples =
        (({ console } : Score).playAll [.write 10 0x4011 0x40, .runFrame 900 50]).samples ∧
      (entries.foldl Score.visit { console }).samples ≠ [#[]] := by
  intro entries
  obtain ⟨console, hcreate, hfacts⟩ := exists_ok (Console.create (.unconnected 0) .standard)
    (fun console =>
      (console.readStatus 29840).toOption.any (fun result : Status × Console => result.1.frameIrq) &&
      decide ((entries.foldl Score.visit { console }).samples ≠ [#[]]))
    (by decide +kernel)
  obtain ⟨hread, hsamples⟩ := Bool.and_eq_true_iff.mp hfacts
  obtain ⟨⟨status, next⟩, hread, hflag⟩ := exists_ok _ _ hread
  have horder : Score.InOrder { console } entries := by
    refine ⟨⟨?_, .inr trivial⟩, trivial⟩
    exact Int.le_trans (by decide : (20 : Int) ≤ 900) (Int.le_max_right _ _)
  obtain ⟨hone, hrun⟩ := readStatus_clears_flag_only (.create hcreate)
  exact ⟨console, status, next, hcreate, hread, hflag, (hone 29840 status next hread).2.2,
    (hrun entries horder).1, of_decide_eq_true hsamples⟩

end Console

end Chiptune
