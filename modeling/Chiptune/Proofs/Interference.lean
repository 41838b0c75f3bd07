import Chiptune.Proofs.Erasure

/-! The channels do not interfere with each other.  Every write runs the whole chip to its time, so a
run without the writes to one channel stops elsewhere; but no stop changes what any channel does, and
a write to a channel reaches no other one.  So the others go the same way to the same clock, and with
them the sequencer and, unless the sample channel is the one, its fetches and the interrupts. -/

namespace Chiptune

/-- The whole state of a channel. -/
inductive ChannelState where
  | pulse (pulse : Pulse)
  | triangle (triangle : Triangle)
  | noise (noise : Noise)
  | dmc (dmc : Dmc)
  deriving DecidableEq

/-- The state of a channel of a chip. -/
def Chip.state (chip : Chip) : Channel → ChannelState
  | .pulse1 => .pulse chip.tones.pulse1
  | .pulse2 => .pulse chip.tones.pulse2
  | .triangle => .triangle chip.tones.triangle
  | .noise => .noise chip.tones.noise
  | .dmc => .dmc chip.dmc

/-- Whether an operation is a write to one of the four registers of a channel. -/
def Operation.writesTo (channel : Channel) : Operation → Bool
  | .write _ address _ => address.toNat / 4 = 0x1000 + channel.index
  | _ => false

/-- All of the chip but one channel. -/
def Scope.allBut (channel : Channel) : Scope where
  hears other := other ≠ channel
  frameIrq := true
  unread := true

theorem Scope.hears_allBut {channel other : Channel} (h : other ≠ channel) :
    (Scope.allBut channel).hears other = true :=
  decide_eq_true h

theorem Session.Resembles.state {scope : Scope} {session session' : Session}
    (h : session.Resembles scope session') (hunread : scope.unread = true) {channel : Channel}
    (hears : scope.hears channel = true) :
    session'.chip.state channel = session.chip.state channel := by
  cases channel with
  | pulse1 => exact congrArg ChannelState.pulse (h.tones.pulse1 hears)
  | pulse2 => exact congrArg ChannelState.pulse (h.tones.pulse2 hears)
  | triangle =>
    have hsame := h.tones.triangle hears
    rw [hunread] at hsame
    exact congrArg ChannelState.triangle hsame
  | noise =>
    have hsame := h.tones.noise hears
    rw [hunread] at hsame
    exact congrArg ChannelState.noise hsame
  | dmc => exact congrArg ChannelState.dmc (h.dmc hears)

/-! ### A write to a channel that is not heard -/

namespace Tones

variable {scope : Scope} {channel : Channel} (h : scope.hears channel = false)
include h

theorem resembles_modifyVoice (tones : Tones) (f : Voice → Voice) :
    tones.Resembles scope (tones.modifyVoice channel f) := by
  have hears : scope.hears channel ≠ true := by simp [h]
  cases channel with
  | pulse1 => exact ⟨fun heard => absurd heard hears, fun _ => rfl, fun _ => rfl, fun _ => rfl⟩
  | pulse2 => exact ⟨fun _ => rfl, fun heard => absurd heard hears, fun _ => rfl, fun _ => rfl⟩
  | triangle => exact ⟨fun _ => rfl, fun _ => rfl, fun heard => absurd heard hears, fun _ => rfl⟩
  | noise => exact ⟨fun _ => rfl, fun _ => rfl, fun _ => rfl, fun heard => absurd heard hears⟩
  | dmc => exact .refl tones

theorem resembles_restart (tones : Tones) :
    tones.Resembles scope (tones.restart channel) := by
  have hears : scope.hears channel ≠ true := by simp [h]
  cases channel with
  | pulse1 => exact ⟨fun heard => absurd heard hears, fun _ => rfl, fun _ => rfl, fun _ => rfl⟩
  | pulse2 => exact ⟨fun _ => rfl, fun heard => absurd heard hears, fun _ => rfl, fun _ => rfl⟩
  | _ => exact .refl tones

theorem resembles_write (tones : Tones) (slot : Slot) (value : UInt8) (enabled : Bool) :
    tones.Resembles scope (tones.write channel slot value enabled) := by
  have hwrite := resembles_modifyVoice h tones (·.write slot value)
  unfold write
  dsimp only
  split
  · split
    · exact (hwrite.trans (resembles_modifyVoice h _ _)).trans (resembles_restart h _)
    · exact hwrite.trans (resembles_restart h _)
  · exact hwrite

end Tones

theorem Session.resembles_applyWrite_voice {scope : Scope} {channel : Channel}
    (h : scope.hears channel = false) (session : Session) (time : Int) (slot : Slot)
    (value : UInt8) :
    session.Resembles scope (session.applyWrite time (.voice channel slot) value) := by
  cases channel with
  | dmc =>
    exact ⟨.refl _, fun heard => absurd heard (by simp [h]), fun _ => rfl, .refl _, rfl, rfl⟩
  | _ =>
    exact ⟨Tones.resembles_write h .., fun _ => rfl, fun _ => rfl, .refl _, rfl, rfl⟩

theorem Channel.index_inj {channel channel' : Channel} (h : channel.index = channel'.index) :
    channel = channel' := by
  cases channel <;> cases channel' <;> first | rfl | exact absurd h (by decide)

theorem Channel.index_lt (channel : Channel) : channel.index < 5 := by
  cases channel <;> decide

theorem Operation.unseen_of_writesTo {channel : Channel} {operation : Operation}
    (h : operation.writesTo channel = true) : operation.Unseen (.allBut channel) := by
  cases operation with
  | write time address value =>
    have haddress : address.toNat / 4 = 0x1000 + channel.index := of_decide_eq_true h
    have hindex := channel.index_lt
    refine .write fun session => ?_
    cases hlocation : Location.ofAddress? address with
    | none =>
      rw [touch_of_none _ _ hlocation]
      exact .refl session
    | some location =>
      rw [touch_of_some _ _ hlocation]
      obtain ⟨_, rfl⟩ | ⟨_, rfl⟩ | rfl | ⟨other, rfl, hother⟩ :=
        Location.ofAddress?_cases hlocation
      · have hnumber : (0x4015 : UInt16).toNat / 4 = 0x1005 := rfl
        omega
      · have hnumber : (0x4017 : UInt16).toNat / 4 = 0x1005 := rfl
        omega
      · exact .refl session
      · obtain rfl : other = channel := Channel.index_inj (by omega)
        exact session.resembles_applyWrite_voice (decide_eq_false (fun hne => hne rfl)) ..
  | _ => exact Bool.noConfusion h

namespace Console

/-- The writes to one channel may be left out of a run that is accepted.  Made at the same clocks and
taken to the same one, the rest is accepted too, and it leaves every other channel in the same state
after the same steps, and the sequencer after the same beats.  If the channel is not the sample
channel, the fetches, the cycles that they take and the interrupts are the same as well. -/
theorem channels_do_not_interfere {console last : Console} (hreach : Reachable console)
    (channel : Channel) {operations : List Operation} {outcomes : List Outcome}
    (hrun : console.performAll operations = .ok (outcomes, last)) :
    let start : Score := { console }
    let full := start.playAll operations
    let other := (start.replay (start.kept (!·.writesTo channel) operations)).advance full.now
    full.console = last ∧ other.refused = [] ∧ other.origin = full.origin ∧
      other.now = full.now ∧
      (∀ heard, heard ≠ channel →
        other.console.board.chip.state heard = last.board.chip.state heard ∧
          other.steps heard = full.steps heard) ∧
      other.beats = full.beats ∧
      (channel ≠ .dmc →
        other.console.board.bus = last.board.bus ∧ other.stalls = full.stalls ∧
          other.console.board.chip.dmc.stall = last.board.chip.dmc.stall ∧
          other.console.board.chip.dmc.irqFlag = last.board.chip.dmc.irqFlag ∧
          other.console.board.chip.earliestIrq = last.board.chip.earliestIrq) := by
  intro start full other
  have htrails : Score.Trails (.allBut channel)
      (start.replay (start.kept (!·.writesTo channel) operations)) full := by
    refine (Score.Trails.refl start).replay ?_ hrun
    intro operation _ herased
    exact Operation.unseen_of_writesTo (by simpa using herased)
  have hsame : other.Resembles (.allBut channel) full := htrails.behind
  obtain ⟨hlast, _, _, _, hrefused⟩ := @Score.playAll_of_ok start _ _ _ hrun
  have hlast : full.console = last := hlast
  have hconsistent : other.console.board.chip.Consistent :=
    Score.consistent_advance (Score.consistent_replay hreach.consistent _) _
  have hsession := hsame.console.session
  rw [hlast] at hsession
  refine ⟨hlast, htrails.refused.symm.trans hrefused, hsame.origin.symm, hsame.now.symm,
    fun heard hne => ?_, hsame.beats.symm, fun hdmc => ?_⟩
  · have hears := Scope.hears_allBut hne
    exact ⟨(hsession.state rfl hears).symm, (hsame.steps heard hears).symm⟩
  · have hears : (Scope.allBut channel).hears .dmc = true := Scope.hears_allBut (Ne.symm hdmc)
    have hchip : last.board.chip.dmc = other.console.board.chip.dmc := hsession.dmc hears
    have hsequencer : last.board.chip.sequencer = other.console.board.chip.sequencer :=
      hsession.sequencer.eq rfl
    refine ⟨(hsession.bus hears).symm, (hsame.stalls hears).symm, by rw [hchip], by rw [hchip], ?_⟩
    exact Score.earliestIrq_eq (consistent_performAll hreach.consistent hrun) hconsistent hchip.symm
      hsequencer.symm

/-- Two pulses sound, and the second one takes the same steps without the writes to the first one. -/
theorem channels_do_not_interfere_of_two_pulses :
    let notes : List Operation :=
      [.write 0 0x4015 0x1F, .write 3 0x4000 0xBF, .write 5 0x4002 0x80, .write 7 0x4003 0x08,
        .write 9 0x4004 0xBF, .write 11 0x4006 0x90, .write 13 0x4007 0x08, .takeStall,
        .runFrame 900 50]
    ∃ console outcomes last, Console.create (.unconnected 0) .standard = .ok console ∧
      console.performAll notes = .ok (outcomes, last) ∧
      let start : Score := { console }
      let full := start.playAll notes
      let other := (start.replay (start.kept (!·.writesTo .pulse1) notes)).advance full.now
      full.steps .pulse1 ≠ [] ∧ full.steps .pulse2 ≠ [] ∧
        other.steps .pulse2 = full.steps .pulse2 := by
  intro notes
  obtain ⟨console, hcreate, hfacts⟩ := exists_ok (Console.create (.unconnected 0) .standard)
    (fun console => (console.performAll notes).toOption.isSome &&
      decide ((({ console } : Score).playAll notes).steps .pulse1 ≠ []) &&
      decide ((({ console } : Score).playAll notes).steps .pulse2 ≠ []))
    (by decide +kernel)
  simp only [Bool.and_eq_true, decide_eq_true_eq] at hfacts
  obtain ⟨⟨hrun, hfirst⟩, hsecond⟩ := hfacts
  obtain ⟨⟨outcomes, last⟩, hrun, _⟩ := exists_ok (console.performAll notes) (fun _ => true)
    (by rwa [Option.any_true])
  have hsame := channels_do_not_interfere (.create hcreate) .pulse1 hrun
  obtain ⟨_, _, _, _, hheard, _⟩ := hsame
  exact ⟨console, outcomes, last, hcreate, hrun, hfirst, hsecond, (hheard .pulse2 (by decide)).2⟩

end Console

end Chiptune
