import Chiptune.Proofs.Resemblance

/-! Every operation runs the chip to its clock and then touches it.  So a chip that has already run
ahead, but not past the clock of the next operation, is in step again with one that has not after
that operation (`act_of_lead`), and between them the two put out the same. -/

namespace Chiptune

namespace Operation

/-- The clock to which an operation runs a chip that has come to `now`. -/
def stop (now : Int) : Operation → Int
  | .write time address _ => if (Location.ofAddress? address).isSome then time else now
  | .readStatus time | .runFrame time _ => time
  | _ => now

/-- What an operation does to a chip that has run to its clock. -/
def touch (session : Session) : Operation → Session
  | .write time address value =>
    match Location.ofAddress? address with
    | some location => session.applyWrite time location value
    | none => session
  | .readStatus _ =>
    { session with chip := { session.chip with sequencer := session.chip.sequencer.clearIrq } }
  | .runFrame time _ => { session with chip := session.chip.rebase time }
  | operation => operation.act session

section Write

variable {address : UInt16} (time : Int) (value : UInt8)

theorem stop_of_some {location : Location} (h : Location.ofAddress? address = some location)
    (now : Int) : (Operation.write time address value).stop now = time := by
  simp [stop, h]

theorem stop_of_none (h : Location.ofAddress? address = none) (now : Int) :
    (Operation.write time address value).stop now = now := by
  simp [stop, h]

theorem touch_of_some {location : Location} (h : Location.ofAddress? address = some location)
    (session : Session) :
    (Operation.write time address value).touch session =
      session.applyWrite time location value := by
  simp [touch, h]

theorem touch_of_none (h : Location.ofAddress? address = none) (session : Session) :
    (Operation.write time address value).touch session = session := by
  simp [touch, h]

theorem act_of_some {location : Location} (h : Location.ofAddress? address = some location)
    (session : Session) :
    (Operation.write time address value).act session =
      ((session.runTo time).applyWrite time location value).announce :=
  Session.write_of_some h session time value

theorem act_of_none (h : Location.ofAddress? address = none) (session : Session) :
    (Operation.write time address value).act session = session :=
  Session.write_of_none h session time value

end Write

theorem stop_eq_of_le {now now' : Int} {operation : Operation} (hle : now ≤ now')
    (hstop : now' ≤ operation.stop now) : operation.stop now' = operation.stop now := by
  unfold stop at *
  cases operation with
  | write time address value =>
    dsimp only at *
    split
    · rfl
    · rename_i hnone
      rw [if_neg hnone] at hstop
      omega
  | readStatus time => rfl
  | runFrame time count => rfl
  | _ => exact Int.le_antisymm hstop hle

end Operation

namespace Session

variable {scope : Scope} {session session' : Session}

theorem Resembles.touch (h : session.Resembles scope session') (operation : Operation) :
    (operation.touch session).Resembles scope (operation.touch session') := by
  cases operation with
  | write time address value =>
    unfold Operation.touch
    dsimp only
    split
    · exact h.applyWrite ..
    · exact h
  | readStatus time => exact h.clearIrq
  | runFrame time count => exact h.rebase time
  | takeStall => exact h.takeStall
  | reset => exact h.reset
  | _ => exact h

theorem runTo_now (session : Session) : session.runTo session.chip.time = session :=
  runTo_of_le (Int.le_refl _)

/-- A run may stop on its way, and a stop that has already been passed is none. -/
theorem resembles_runTo_runTo (scope : Scope) (session : Session) {mid stop : Int}
    (h : mid ≤ max stop session.chip.time) :
    (session.runTo stop).Resembles scope ((session.runTo mid).runTo stop) := by
  by_cases hmid : mid ≤ stop
  · obtain ⟨hchip, hbus, _⟩ := session.runTo_runTo hmid
    exact .of_eq hchip hbus
  · have hpast : mid ≤ session.chip.time := by omega
    rw [runTo_of_le hpast]
    exact .refl _

theorem emits_split (session : Session) {mid stop : Int} (h : mid ≤ max stop session.chip.time)
    (channel : Channel) :
    session.emits stop channel =
      session.emits mid channel ++ (session.runTo mid).emits stop channel := by
  by_cases hmid : mid ≤ stop
  · exact (session.runTo_runTo hmid).2.2 channel
  · have hpast : mid ≤ session.chip.time := by omega
    have hnone : session.emits mid channel = [] := if_pos hpast
    rw [hnone, runTo_of_le hpast, List.nil_append]

theorem fires_split (session : Session) {mid stop : Int} (h : mid ≤ max stop session.chip.time) :
    session.fires stop = session.fires mid ++ (session.runTo mid).fires stop := by
  by_cases hpast : mid ≤ session.chip.time
  · have hnone : session.fires mid = [] := if_pos hpast
    rw [hnone, runTo_of_le hpast, List.nil_append]
  · have hstop : mid ≤ stop := by omega
    have hran := runTo_chip (Int.not_le.mp hpast)
    have hsequencer : (session.runTo mid).chip.sequencer =
        session.chip.sequencer.after session.chip.time mid := by rw [hran]; rfl
    have htime : (session.runTo mid).chip.time = mid := by rw [hran]; rfl
    have hbeats := (session.chip.sequencer.run_split session.chip.time hstop).1
    have hlater : (session.runTo mid).fires stop =
        (session.chip.sequencer.after session.chip.time mid).beats mid stop := by
      unfold fires
      rw [hsequencer, htime]
      split
      · have hdelay := session.chip.sequencer.delay_after_nonneg session.chip.time mid
        rw [Sequencer.beats_of_not_due (by omega)]
      · rfl
    have hlong : session.fires stop = session.chip.sequencer.beats session.chip.time stop :=
      if_neg (by omega)
    have hshort : session.fires mid = session.chip.sequencer.beats session.chip.time mid :=
      if_neg hpast
    rw [hlong, hshort, hlater, hbeats]

end Session

/-- A run does not take the frame interrupt back. -/
theorem Sequencer.irqFlag_after_of_raised {sequencer : Sequencer} (now stop : Int)
    (h : sequencer.irqFlag = true) : (sequencer.after now stop).irqFlag = true := by
  induction sequencer, now using due_induction stop with
  | due sequencer now hdue ih =>
    rw [after_of_due hdue]
    refine ih ?_
    by_cases hraises : sequencer.next = 0 ∧ raises sequencer.mode = true
    · exact (fire_of_raises hraises.1 hraises.2 _).1
    · rw [(fire_of_not_raises hraises _).1, h]
  | last sequencer now hdue =>
    rw [after_of_not_due hdue]
    exact h

namespace Session

variable {scope : Scope} {session session' : Session}

theorem irqFlag_runTo {stop : Int} (h : session.chip.sequencer.irqFlag = true) :
    (session.runTo stop).chip.sequencer.irqFlag = true := by
  by_cases hstop : stop ≤ session.chip.time
  · rwa [runTo_of_le hstop]
  · rw [runTo_chip (Int.not_le.mp hstop)]
    exact Sequencer.irqFlag_after_of_raised _ _ h

/-! ### Status reads -/

/-- The session one clock before a status read. -/
def glance (session : Session) (time : Int) : Session :=
  session.runTo (max (time - 1) session.chip.time)

theorem resembles_glance (scope : Scope) (session : Session) (time : Int) :
    (session.runTo time).Resembles scope ((session.glance time).runTo time) :=
  resembles_runTo_runTo scope session (by omega)

/-- A status read shows the frame interrupt of the chip at its time, and the channels and the sample
interrupt of one clock before. -/
theorem readStatus_fst (session : Session) (time : Int) :
    (session.readStatus time).1 =
      { channels := (session.glance time).chip.active
        frameIrq := (session.runTo time).chip.sequencer.irqFlag
        dmcIrq := (session.glance time).chip.dmc.irqFlag } := by
  have hflag : ((session.glance time).runTo time).chip.sequencer.irqFlag =
      (session.runTo time).chip.sequencer.irqFlag :=
    (resembles_glance .full session time).sequencer.irqFlag rfl
  have hkeep : (session.glance time).chip.sequencer.irqFlag = true →
      ((session.glance time).runTo time).chip.sequencer.irqFlag = true := irqFlag_runTo
  have hshown : ((session.glance time).chip.sequencer.irqFlag ||
      ((session.glance time).runTo time).chip.sequencer.irqFlag) =
      (session.runTo time).chip.sequencer.irqFlag := by
    rw [hflag] at *
    grind
  rw [← hshown]
  unfold readStatus
  dsimp only
  split <;> rfl

theorem readStatus_snd (session : Session) (time : Int) :
    (session.readStatus time).2 =
      if ((session.glance time).runTo time).chip.sequencer.irqFlag then
        (Operation.touch ((session.glance time).runTo time) (.readStatus time)).announce
      else (session.glance time).runTo time := by
  have hran : (session.runTo (max (time - 1) session.chip.time)).runTo time =
      (session.glance time).runTo time := rfl
  unfold readStatus
  dsimp only
  rw [hran]
  generalize (session.glance time).runTo time = ran
  split <;> rfl

/-- A status read clears the flag and does nothing else. -/
theorem resembles_readStatus (scope : Scope) (session : Session) (time : Int) :
    (Operation.touch (session.runTo time) (.readStatus time)).Resembles scope
      (session.readStatus time).2 := by
  have hclear := (resembles_glance scope session time).clearIrq
  rw [readStatus_snd]
  generalize (session.glance time).runTo time = ran at *
  refine hclear.trans ?_
  split
  · exact .announce _
  · rename_i hflag
    have hquiet : ran.chip.sequencer.irqFlag = false := eq_false_of_ne_true hflag
    have hsame : ran.chip.sequencer.clearIrq = ran.chip.sequencer :=
      Sequencer.eq_of_clearIrq rfl hquiet.symm
    rw [hsame]
    exact .refl _

theorem resembles_clearIrq (session : Session) (h : scope.frameIrq = false) :
    session.Resembles scope
      { session with chip := { session.chip with sequencer := session.chip.sequencer.clearIrq } } :=
  ⟨.refl _, fun _ => rfl, fun _ => rfl, ⟨rfl, fun hflag => absurd hflag (by simp [h])⟩, rfl, rfl⟩

theorem track_readStatus (session : Session) (time : Int) (channel : Channel) :
    ChannelStep.track channel (session.readStatus time).2.steps =
      ChannelStep.track channel session.steps ++ session.emits time channel := by
  have hmid : max (time - 1) session.chip.time ≤ max time session.chip.time := by omega
  have hsplit := session.emits_split hmid channel
  have hsteps : (session.readStatus time).2.steps = ((session.glance time).runTo time).steps := by
    rw [readStatus_snd]
    split
    · rw [announce_steps]
      rfl
    · rfl
  rw [hsteps, track_runTo, glance, track_runTo, List.append_assoc, hsplit]

/-! ### Operations -/

/-- Every operation runs the chip to its clock and touches it there. -/
theorem resembles_act (scope : Scope) (session : Session) (operation : Operation) :
    (operation.touch (session.runTo (operation.stop session.chip.time))).Resembles scope
      (operation.act session) := by
  cases operation with
  | write time address value =>
    cases hlocation : Location.ofAddress? address with
    | none =>
      rw [Operation.stop_of_none _ _ hlocation, Operation.touch_of_none _ _ hlocation,
        Operation.act_of_none _ _ hlocation, runTo_now]
      exact .refl _
    | some location =>
      rw [Operation.stop_of_some _ _ hlocation, Operation.touch_of_some _ _ hlocation,
        Operation.act_of_some _ _ hlocation]
      exact .announce _
  | readStatus time => exact resembles_readStatus scope session time
  | runFrame time count => exact .refl _
  | _ =>
    have hnow := session.runTo_now
    exact Resembles.touch (.of_eq (congrArg chip hnow.symm) (congrArg bus hnow.symm)) _

theorem track_act (session : Session) (operation : Operation) (channel : Channel) :
    ChannelStep.track channel (operation.act session).steps =
      ChannelStep.track channel session.steps ++
        session.emits (operation.stop session.chip.time) channel := by
  have hnone : session.emits session.chip.time channel = [] := if_pos (Int.le_refl _)
  cases operation with
  | write time address value =>
    cases hlocation : Location.ofAddress? address with
    | none =>
      rw [Operation.stop_of_none _ _ hlocation, Operation.act_of_none _ _ hlocation, hnone,
        List.append_nil]
    | some location =>
      rw [Operation.stop_of_some _ _ hlocation, Operation.act_of_some _ _ hlocation, announce_steps,
        applyWrite_steps, track_runTo]
  | readStatus time => exact session.track_readStatus time channel
  | runFrame time count => exact session.track_runTo time channel
  | _ =>
    simp only [Operation.stop, Operation.act, hnone, List.append_nil]

/-- The second session has run ahead of the first one, but not past the next operation.  After that
operation they agree again, and both together put out the same. -/
theorem act_of_lead {operation : Operation}
    (h : (session.runTo session'.chip.time).Resembles scope session')
    (hstop : session'.chip.time ≤ operation.stop session.chip.time) :
    (operation.act session).Resembles scope (operation.act session') ∧
      (∀ channel, scope.hears channel = true →
        session.emits (operation.stop session.chip.time) channel =
          session.emits session'.chip.time channel ++
            session'.emits (operation.stop session'.chip.time) channel) ∧
      session.fires (operation.stop session.chip.time) =
        session.fires session'.chip.time ++ session'.fires (operation.stop session'.chip.time) := by
  have htime := h.time
  rw [runTo_time] at htime
  have hsame := Operation.stop_eq_of_le (by omega) hstop
  generalize hclock : operation.stop session.chip.time = clock at *
  rw [hsame]
  have hmid : session'.chip.time ≤ max clock session.chip.time := by omega
  refine ⟨?_, fun channel hears => ?_, ?_⟩
  · have hran := (resembles_runTo_runTo scope session hmid).trans (h.runTo clock)
    have hfirst := resembles_act scope session operation
    have hsecond := resembles_act scope session' operation
    rw [hclock] at hfirst
    rw [hsame] at hsecond
    exact hfirst.symm.trans ((hran.touch operation).trans hsecond)
  · rw [session.emits_split hmid channel, h.emits clock hears]
  · rw [session.fires_split hmid, h.fires clock]

end Session

end Chiptune
