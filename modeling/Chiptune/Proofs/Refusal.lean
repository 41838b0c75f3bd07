import Chiptune.Proofs.Ledger
import Chiptune.Proofs.TimeOrder

/-! A refused call leaves no trace.  `Operation.inPlace` makes an operation as a host sees it, on a
desk that is changed step by step: what was changed before a fault stays changed, and every step and
every end of a frame that the output does not take as it is raises a fault.  On each console that can
be reached this gives what `perform` gives, so all faults come from the checks at the very start. -/

namespace Chiptune

/-- A console, and the slice that the host gave for samples. -/
structure Desk where
  console : Console
  slice : Array Int16

/-- A procedure that changes a desk in place and may stop at a fault. -/
abbrev Procedure (α : Type) := EStateM Fault Desk α

theorem Procedure.run_bind_of_ok {α β : Type} {x : Procedure α} {desk desk' : Desk} {a : α}
    (h : x.run desk = .ok a desk') (f : α → Procedure β) :
    (x >>= f).run desk = (f a).run desk' := by
  rw [EStateM.run_bind, h]

theorem Procedure.run_bind_of_error {α β : Type} {x : Procedure α} {desk desk' : Desk}
    {fault : Fault} (h : x.run desk = .error fault desk') (f : α → Procedure β) :
    (x >>= f).run desk = .error fault desk' := by
  rw [EStateM.run_bind, h]

/-- The slice after samples were copied to its front. -/
def Outcome.fill (slice : Array Int16) : Outcome → Array Int16
  | .samples front => front ++ slice.extract front.size slice.size
  | _ => slice

namespace Desk

/-- Refuses a time that the board refuses. -/
def check (time : Int) : Procedure Unit := do
  let desk ← get
  match desk.console.board.checkTime desk.console.buffer time with
  | .error fault => throw fault
  | .ok () => pure ()

/-- Adds a step to the output.  A step that the output refuses, and would drop, is a fault. -/
def offer (channel : Channel) (time delta : Int) : Procedure Unit := do
  let { console, slice } ← get
  match console.buffer.add time ((console.board.mix.scale channel).apply delta) with
  | .error fault => throw fault
  | .ok buffer => set ({ console := { console with buffer }, slice } : Desk)

/-- Adds the steps of the channels that are not muted. -/
def offerAll : List ChannelStep → Procedure Unit
  | [] => pure ()
  | { channel, step } :: steps => do
    let desk ← get
    unless desk.console.board.muted.get channel do offer channel step.time step.delta
    offerAll steps

/-- Sets the chip to work: it changes, fetches and gives notice, and then its steps are added. -/
def work (operation : Operation) : Procedure Unit := do
  let { console, slice } ← get
  let session := operation.act console.board.session
  let board := { console.board with chip := session.chip, bus := session.bus }
  set ({ console := { console with board := board.hear session.notices }, slice } : Desk)
  offerAll session.steps.toList

/-- Ends the frame of the output.  A time at which the output would not end it is a fault. -/
def endOutput (time : Int) : Procedure Unit := do
  let { console, slice } ← get
  if console.buffer.accepts time then
    set ({ console := { console with buffer := console.buffer.endFrame time }, slice } : Desk)
  else throw (.frameOverflow time console.buffer.frameCapacity)

/-- Reads samples into the slice. -/
def take (count : Nat) : Procedure Outcome := do
  let { console, slice } ← get
  let (samples, console) := console.read count
  let outcome := Outcome.samples samples
  set ({ console, slice := outcome.fill slice } : Desk)
  return outcome

/-- Switches a channel off or on, and then takes its level from the output or gives it back. -/
def switch (channel : Channel) (muted : Bool) : Procedure Unit := do
  let { console, slice } ← get
  unless console.board.muted.get channel = muted do
    let board := { console.board with muted := console.board.muted.set channel muted }
    set ({ console := { console with board }, slice } : Desk)
    let level := board.chip.level channel
    let delta := if muted then -level else level
    unless delta = 0 do offer channel board.chip.time delta

end Desk

/-- Makes an operation in place. -/
def Operation.inPlace (operation : Operation) : Procedure Outcome := do
  match operation with
  | .write time _ _ =>
    Desk.check time
    Desk.work operation
    return .done
  | .readStatus time =>
    Desk.check time
    let { console, .. } ← get
    Desk.work operation
    return .status (console.board.session.readStatus time).1
  | .runFrame time count =>
    Desk.check time
    Desk.work operation
    Desk.endOutput time
    let { console, .. } ← get
    Desk.take (min count console.configuration.blockSize)
  | .read count => Desk.take count
  | .setMuted position muted =>
    match Channel.ofIndex? position with
    | none =>
      throw (.invalidConfiguration
        s!"channel index {position} out of range (0-{Channel.count - 1})")
    | some channel =>
      Desk.switch channel muted
      return .done
  | .setVolume volume =>
    modify fun desk => { desk with console.board := desk.console.board.setVolume volume }
    return .done
  | .listen listening =>
    modify fun desk => { desk with console.board := desk.console.board.listen listening }
    return .done
  | .takeStall =>
    let { console, slice } ← get
    let (cycles, console) := console.takeStall
    set ({ console, slice } : Desk)
    return .stall cycles
  | .reset =>
    modify fun desk => { desk with console := desk.console.reset }
    return .done

namespace Desk

variable {console : Console} {slice : Array Int16}

theorem run_check (time : Int) :
    (check time).run ⟨console, slice⟩ =
      match console.board.checkTime console.buffer time with
      | .error fault => .error fault ⟨console, slice⟩
      | .ok () => .ok () ⟨console, slice⟩ := by
  unfold check
  rw [Procedure.run_bind_of_ok (EStateM.run_get _)]
  cases console.board.checkTime console.buffer time <;> rfl

theorem run_offer {channel : Channel} {time delta : Int}
    (h : console.buffer.accepts time = true) :
    (offer channel time delta).run ⟨console, slice⟩ =
      .ok () ⟨{ console with
        buffer := console.buffer.put time ((console.board.mix.scale channel).apply delta) }, slice⟩ := by
  have hadd (delta : Int) : console.buffer.add time delta = .ok (console.buffer.put time delta) :=
    if_pos h
  unfold offer
  rw [Procedure.run_bind_of_ok (EStateM.run_get _)]
  dsimp only
  rw [hadd]
  rfl

/-- If the output takes each step, all that they put out is added. -/
theorem run_offerAll {board board' : Board} {out : StepBuffer} {configuration : Configuration}
    {steps : List ChannelStep} (hmix : board'.mix = board.mix) (hmuted : board'.muted = board.muted)
    (h : board.Admits out steps) :
    (offerAll steps).run ⟨⟨board', out, configuration⟩, slice⟩ =
      .ok () ⟨⟨board', out.putAll (board.delivered out steps), configuration⟩, slice⟩ := by
  induction steps generalizing out with
  | nil => rfl
  | cons entry steps ih =>
    unfold Board.Admits at h
    unfold offerAll Board.delivered
    rw [Procedure.run_bind_of_ok (EStateM.run_get _)]
    dsimp only
    rw [hmuted]
    split at h
    · rename_i hoff
      rw [if_pos hoff, if_pos hoff]
      exact ih h
    · rename_i hon
      obtain ⟨haccepts, hrest⟩ := h
      have hdeliver : board.deliver out entry.channel entry.step.time entry.step.delta =
          out.put entry.step.time ((board.mix.scale entry.channel).apply entry.step.delta) :=
        if_pos haccepts
      have hoffer := @run_offer ⟨board', out, configuration⟩ slice entry.channel entry.step.time
        entry.step.delta haccepts
      rw [if_neg hon, if_neg hon, Procedure.run_bind_of_ok hoffer, StepBuffer.putAll_append,
        ← Board.deliver_eq_putAll]
      dsimp only
      rw [hmix, ← hdeliver]
      exact ih hrest

theorem run_work {operation : Operation} (h : console.Admits operation) :
    (work operation).run ⟨console, slice⟩ =
      .ok () ⟨console.absorb (operation.act console.board.session), slice⟩ := by
  unfold work
  rw [Procedure.run_bind_of_ok (EStateM.run_get _)]
  dsimp only
  rw [Procedure.run_bind_of_ok (EStateM.run_set _ _)]
  refine (run_offerAll ?_ ?_ h.1).trans ?_
  · exact Board.hear_mix ..
  · exact Board.hear_muted ..
  · unfold Console.absorb
    rw [Board.conclude_eq_putAll]
    rfl

theorem run_endOutput {time : Int} (h : 0 ≤ time ∧ time ≤ console.buffer.frameCapacity) :
    (endOutput time).run ⟨console, slice⟩ =
      .ok () ⟨{ console with buffer := console.buffer.endFrame time }, slice⟩ := by
  unfold endOutput
  rw [Procedure.run_bind_of_ok (EStateM.run_get _)]
  dsimp only
  rw [if_pos ((Board.accepts_iff _ _).mpr h)]
  rfl

theorem run_switch {channel : Channel} {muted : Bool}
    (h : console.buffer.accepts console.board.chip.time = true) :
    (switch channel muted).run ⟨console, slice⟩ =
      .ok () ⟨if console.board.muted.get channel = muted then console
        else console.switched channel muted, slice⟩ := by
  unfold switch
  rw [Procedure.run_bind_of_ok (EStateM.run_get _)]
  dsimp only
  split
  · rfl
  · rw [Procedure.run_bind_of_ok (EStateM.run_set _ _)]
    unfold Console.switched Board.deliver
    dsimp only
    rw [if_pos h]
    generalize (if muted then -console.board.chip.level channel
      else console.board.chip.level channel) = delta
    split
    · rfl
    · exact run_offer h

/-- What an operation with a time does after its check is all that its outcome depends on. -/
theorem run_checked {operation : Operation} {time : Int} {result : Outcome × Console}
    {rest : Procedure Outcome}
    (hperform : console.perform operation =
      (console.board.checkTime console.buffer time).map fun _ => result)
    (hrest : console.perform operation = .ok result →
      rest.run ⟨console, slice⟩ = .ok result.1 ⟨result.2, result.1.fill slice⟩) :
    (do check time; rest).run ⟨console, slice⟩ =
      match console.perform operation with
      | .error fault => .error fault ⟨console, slice⟩
      | .ok (outcome, next) => .ok outcome ⟨next, outcome.fill slice⟩ := by
  have hcheck := @run_check console slice time
  cases hresult : console.board.checkTime console.buffer time with
  | error fault =>
    rw [hresult] at hcheck hperform
    rw [Procedure.run_bind_of_error hcheck, hperform]
    rfl
  | ok =>
    rw [hresult] at hcheck hperform
    rw [Procedure.run_bind_of_ok hcheck, hrest hperform, hperform]
    rfl

/-- Made in place, an operation does what `perform` says, and if that is refused the desk is as it
was. -/
theorem run_inPlace (hchip : console.board.chip.Consistent)
    (hnow : console.board.chip.time ≤ console.buffer.frameCapacity) (operation : Operation) :
    operation.inPlace.run ⟨console, slice⟩ =
      match console.perform operation with
      | .error fault => .error fault ⟨console, slice⟩
      | .ok (outcome, next) => .ok outcome ⟨next, outcome.fill slice⟩ := by
  cases operation with
  | write time address value =>
    refine run_checked (console.perform_write time address value) fun hperform => ?_
    rw [Procedure.run_bind_of_ok (run_work (console.admits_of_perform hchip hnow hperform))]
    rfl
  | readStatus time =>
    refine run_checked (console.perform_readStatus time) fun hperform => ?_
    rw [Procedure.run_bind_of_ok (EStateM.run_get _)]
    dsimp only
    rw [Procedure.run_bind_of_ok (run_work (console.admits_of_perform hchip hnow hperform))]
    rfl
  | runFrame time count =>
    refine run_checked (console.perform_runFrame time count) fun hperform => ?_
    have hadmits := console.admits_of_perform hchip hnow hperform
    have hend := @run_endOutput
      (console.absorb ((Operation.runFrame time count).act console.board.session)) slice time
      hadmits.2
    rw [Procedure.run_bind_of_ok (run_work hadmits), Procedure.run_bind_of_ok hend]
    rfl
  | setMuted position muted =>
    rw [console.perform_setMuted]
    unfold Operation.inPlace
    dsimp only
    cases Channel.ofIndex? position with
    | none => rfl
    | some channel =>
      have haccepts := (Board.accepts_iff console.buffer _).mpr ⟨hchip.time_nonneg, hnow⟩
      dsimp only
      rw [Procedure.run_bind_of_ok (run_switch haccepts)]
      rfl
  | _ => rfl

end Desk

/-! ### Refused calls in a history -/

namespace Console

/-- The second history is the first with calls put in that are refused where they stand. -/
inductive Padded : Console → List Operation → List Operation → Prop
  | nil (console : Console) : Padded console [] []
  | made {console : Console} (operation : Operation) {operations padded : List Operation}
      (h : Padded (console.attempt operation).2 operations padded) :
      Padded console (operation :: operations) (operation :: padded)
  | refused {console : Console} {operation : Operation} {fault : Fault}
      {operations padded : List Operation} (hfault : console.perform operation = .error fault)
      (h : Padded console operations padded) : Padded console operations (operation :: padded)

theorem Padded.same {console : Console} {operations padded : List Operation}
    (h : Padded console operations padded) :
    console.attemptAll padded = console.attemptAll operations ∧
      (operations.zip (console.answers operations)).Sublist
        (padded.zip (console.answers padded)) := by
  induction h with
  | nil => exact ⟨rfl, .slnil⟩
  | made operation h ih => exact ⟨ih.1, ih.2.cons_cons _⟩
  | @refused console operation fault operations padded hfault h ih =>
    have hanswers : console.answers (operation :: padded) =
        .error fault :: console.answers padded := by
      rw [answers, attempt_of_error hfault]
    rw [attemptAll_cons, attempt_of_error hfault, hanswers, List.zip_cons_cons]
    exact ⟨ih.1, ih.2.cons _⟩

/-- An operation comes before the clock to which the chip has run, or past the horizon, or names a
channel that there is not; `fault` says which. -/
def Refuses (console : Console) (operation : Operation) (fault : Fault) : Prop :=
  (∃ time, operation.time? = some time ∧ time < console.board.chip.time ∧
      fault = .timeRegression time console.board.chip.time) ∨
    (∃ time, operation.time? = some time ∧ console.board.chip.time ≤ time ∧
      console.buffer.frameCapacity < time ∧
      fault = .frameOverflow time console.buffer.frameCapacity) ∨
    ∃ position muted, operation = .setMuted position muted ∧ Channel.count ≤ position ∧
      fault = .invalidConfiguration
        s!"channel index {position} out of range (0-{Channel.count - 1})"

theorem refuses_of_perform {console : Console} {operation : Operation} {fault : Fault}
    (h : console.perform operation = .error fault) : console.Refuses operation fault := by
  cases htime : operation.time? with
  | some time =>
    obtain ⟨result, hperform⟩ := console.exists_perform_eq htime
    rw [hperform] at h
    by_cases hearly : time < console.board.chip.time
    · rw [Board.checkTime_of_early hearly] at h
      cases h
      exact .inl ⟨time, htime, hearly, rfl⟩
    · by_cases hlate : console.buffer.frameCapacity < time
      · rw [Board.checkTime_of_late (Int.not_lt.mp hearly) hlate] at h
        cases h
        exact .inr (.inl ⟨time, htime, Int.not_lt.mp hearly, hlate, rfl⟩)
      · rw [Board.checkTime_of_within (Int.not_lt.mp hearly) (Int.not_lt.mp hlate)] at h
        cases h
  | none =>
    cases operation with
    | setMuted position muted =>
      rw [perform_setMuted] at h
      cases hchannel : Channel.ofIndex? position with
      | none =>
        rw [hchannel] at h
        cases h
        exact .inr (.inr ⟨position, muted, rfl, List.getElem?_eq_none_iff.mp hchannel, rfl⟩)
      | some channel =>
        rw [hchannel] at h
        cases h
    | write time address value => cases htime
    | readStatus time => cases htime
    | runFrame time count => cases htime
    | _ => cases h

theorem perform_error_iff {console : Console} {operation : Operation} {fault : Fault} :
    console.perform operation = .error fault ↔ console.Refuses operation fault := by
  refine ⟨refuses_of_perform, ?_⟩
  rintro (⟨time, htime, hearly, rfl⟩ | ⟨time, htime, hnow, hlate, rfl⟩ |
    ⟨position, muted, rfl, hposition, rfl⟩)
  · obtain ⟨result, hperform⟩ := console.exists_perform_eq htime
    rw [hperform, Board.checkTime_of_early hearly]
    rfl
  · obtain ⟨result, hperform⟩ := console.exists_perform_eq htime
    rw [hperform, Board.checkTime_of_late hnow hlate]
    rfl
  · have hchannel : Channel.ofIndex? position = none := List.getElem?_eq_none_iff.mpr hposition
    rw [perform_setMuted, hchannel]

/-- The frame of the chip and that of the output end at the same clock. -/
theorem frames_end_together {console next : Console} (h : Reachable console) {time : Int}
    {count : Nat} {outcome : Outcome}
    (hperform : console.perform (.runFrame time count) = .ok (outcome, next)) :
    next.board.chip.time = 0 ∧
      outcome.taken.length * Resampler.unit + next.buffer.resampler.elapsed =
        console.buffer.resampler.elapsed + time.toNat * console.buffer.resampler.factor := by
  obtain ⟨factor, clocks, handed, _, hbalanced⟩ := h.balanced
  rw [perform_runFrame] at hperform
  obtain ⟨_, hcheck, hnext⟩ := map_eq_ok hperform
  obtain ⟨hnow, hcapacity⟩ := Board.checkTime_ok hcheck
  cases hnext
  constructor
  · show (console.ended time).board.chip.time = 0
    exact (congrArg Chip.time (console.absorb_chip _)).trans (Session.endFrame_time hnow)
  · have hzero := h.consistent.time_nonneg
    have hclocks : 0 ≤ clocks := hbalanced.clocks_nonneg
    have hfactor : console.buffer.resampler.factor = factor := hbalanced.factor_eq
    have hbefore : handed * Resampler.unit + console.buffer.resampler.elapsed =
        clocks.toNat * factor + factor / 2 := hbalanced.position
    have hafter : handed * Resampler.unit + (console.ended time).buffer.resampler.elapsed =
        (clocks + time).toNat * factor + factor / 2 := (hbalanced.ended hnow hcapacity).position
    have hsum : (clocks + time).toNat = clocks.toNat + time.toNat := by omega
    rw [hsum, Nat.add_mul] at hafter
    have hread := (console.ended time).buffer.resampler.elapsed_read
      (min count console.configuration.blockSize)
    rw [hfactor]
    show (((console.ended time).buffer.resampler.read _).1.size) * Resampler.unit +
      ((console.ended time).buffer.resampler.read _).2.elapsed = _
    omega

/-- A call is refused just for its time or its channel, and a refused call leaves everything as it was,
the slice of the host too.  An accepted frame ends as a whole, for the chip and for the output, and no
step of it is dropped.  With or without refused calls a history goes the same way. -/
theorem refusals_leave_no_trace {console : Console} (h : Reachable console) :
    (∀ (operation : Operation) (slice : Array Int16),
      operation.inPlace.run ⟨console, slice⟩ =
        match console.perform operation with
        | .error fault => .error fault ⟨console, slice⟩
        | .ok (outcome, next) => .ok outcome ⟨next, outcome.fill slice⟩) ∧
    (∀ operation fault,
      console.perform operation = .error fault ↔ console.Refuses operation fault) ∧
    (∀ time count outcome next,
      console.perform (.runFrame time count) = .ok (outcome, next) →
      next.board.chip.time = 0 ∧
        outcome.taken.length * Resampler.unit + next.buffer.resampler.elapsed =
          console.buffer.resampler.elapsed + time.toNat * console.buffer.resampler.factor) ∧
    ∀ operations padded, Padded console operations padded →
      console.attemptAll padded = console.attemptAll operations ∧
        (operations.zip (console.answers operations)).Sublist
          (padded.zip (console.answers padded)) := by
  refine ⟨?_, ?_, ?_, ?_⟩
  · intro operation slice
    exact Desk.run_inPlace h.consistent h.inTime operation
  · intro operation fault
    exact perform_error_iff
  · intro time count outcome next hperform
    exact frames_end_together h hperform
  · intro operations padded hpadded
    exact hpadded.same

/-- A write that comes too early and a switch of no channel change nothing. -/
theorem refusals_leave_no_trace_of_early_write :
    ∃ console, Console.create (.unconnected 0) .standard = .ok console ∧
      console.attemptAll
          [.write 100 0x4015 1, .write 50 0x4000 3, .setMuted 7 true, .runFrame 1000 5] =
        console.attemptAll [.write 100 0x4015 1, .runFrame 1000 5] := by
  obtain ⟨console, hcreate, hearly⟩ := exists_ok
    (Console.create (.unconnected 0) .standard)
    (fun console =>
      ((console.attempt (.write 100 0x4015 1)).2.perform (.write 50 0x4000 3)).toOption.isNone)
    (by decide +kernel)
  have hrefused : ∃ fault,
      (console.attempt (.write 100 0x4015 1)).2.perform (.write 50 0x4000 3) = .error fault := by
    cases hresult : (console.attempt (.write 100 0x4015 1)).2.perform (.write 50 0x4000 3) with
    | error fault => exact ⟨fault, rfl⟩
    | ok result =>
      rw [hresult] at hearly
      cases hearly
  obtain ⟨fault, hfault⟩ := hrefused
  have hswitch : ∃ fault,
      (console.attempt (.write 100 0x4015 1)).2.perform (.setMuted 7 true) = .error fault :=
    ⟨_, rfl⟩
  obtain ⟨fault', hfault'⟩ := hswitch
  have hpadded : Padded console [.write 100 0x4015 1, .runFrame 1000 5]
      [.write 100 0x4015 1, .write 50 0x4000 3, .setMuted 7 true, .runFrame 1000 5] :=
    .made _ (.refused hfault (.refused hfault' (.made _ (.nil _))))
  obtain ⟨_, _, _, hsame⟩ := refusals_leave_no_trace (.create hcreate)
  exact ⟨console, hcreate, (hsame _ _ hpadded).1⟩

end Console

end Chiptune
