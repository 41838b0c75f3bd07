import Chiptune.Proofs.Erasure

/-! Writes that reach nothing.  Outside the chip's range a write does nothing at all.  Within it the
chip runs to the time of the write, and the second register of the triangle or of the noise channel
may take a value that nothing reads.  Such writes may be left out of a run, with one exception: a
status read shows the channels one clock before its time or, if a write has already taken the chip
to that time, as they are then. -/

namespace Chiptune

/-- Whether an operation is a write to an address that is unused or belongs to other hardware. -/
def Operation.isUnused : Operation → Bool
  | .write _ address _ =>
    address < 0x4000 || 0x4017 < address || [0x4009, 0x400D, 0x4014, 0x4016].contains address
  | _ => false

/-- All there is but the registers that nothing reads. -/
def Scope.used : Scope := ⟨fun _ => true, true, false⟩

theorem Scope.whole_used : Scope.used.Whole := fun _ => rfl

namespace Location

theorem second_of_unused {address : UInt16} {channel : Channel} {slot : Slot}
    (h : ofAddress? address = some (.voice channel slot))
    (hunused : address < 0x4000 ∨ 0x4017 < address ∨
      address ∈ ([0x4009, 0x400D, 0x4014, 0x4016] : List UInt16)) :
    slot = .second ∧ (channel = .triangle ∨ channel = .noise) := by
  obtain ⟨hindex, rfl⟩ := toNat_of_ofAddress?_voice h
  have hlow (n : Nat) (haddress : address.toNat = n) : n / 4 = 0x1000 + channel.index :=
    haddress ▸ hindex
  rcases hunused with hbelow | habove | hlist
  · have hbelow : address.toNat < 0x4000 := hbelow
    omega
  · have habove : 0x4017 < address.toNat := habove
    cases channel <;> simp only [Channel.index] at hindex <;> omega
  · simp only [List.mem_cons, List.not_mem_nil, or_false] at hlist
    rcases hlist with rfl | rfl | rfl | rfl
    · have hchannel := hlow 0x4009 rfl
      refine ⟨rfl, .inl ?_⟩
      cases channel <;> first | rfl | cases hchannel
    · have hchannel := hlow 0x400D rfl
      refine ⟨rfl, .inr ?_⟩
      cases channel <;> first | rfl | cases hchannel
    · have hchannel := hlow 0x4014 rfl
      cases channel <;> cases hchannel
    · have hchannel := hlow 0x4016 rfl
      cases channel <;> cases hchannel

end Location

theorem Session.resembles_applyWrite_second (session : Session) (time : Int) {channel : Channel}
    (h : channel = .triangle ∨ channel = .noise) (value : UInt8) :
    session.Resembles .used (session.applyWrite time (.voice channel .second) value) := by
  rcases h with rfl | rfl
  · exact ⟨⟨fun _ => rfl, fun _ => rfl, fun _ => rfl, fun _ => rfl⟩, fun _ => rfl, fun _ => rfl,
      .refl _, rfl, rfl⟩
  · exact ⟨⟨fun _ => rfl, fun _ => rfl, fun _ => rfl, fun _ => rfl⟩, fun _ => rfl, fun _ => rfl,
      .refl _, rfl, rfl⟩

theorem Operation.unseen_of_isUnused {operation : Operation} (h : operation.isUnused = true) :
    operation.Unseen .used := by
  cases operation with
  | write time address value =>
    have hunused : address < 0x4000 ∨ 0x4017 < address ∨
        address ∈ ([0x4009, 0x400D, 0x4014, 0x4016] : List UInt16) := by
      simpa [isUnused, or_assoc] using h
    refine .write fun session => ?_
    cases hlocation : Location.ofAddress? address with
    | none =>
      rw [touch_of_none _ _ hlocation]
      exact .refl session
    | some location =>
      rw [touch_of_some _ _ hlocation]
      obtain ⟨rfl, rfl⟩ | ⟨rfl, rfl⟩ | rfl | ⟨channel, rfl, -⟩ :=
        Location.ofAddress?_cases hlocation
      · exact absurd hunused (by decide)
      · exact absurd hunused (by decide)
      · exact .refl session
      · obtain ⟨hslot, hchannel⟩ := Location.second_of_unused hlocation hunused
        rw [hslot]
        exact session.resembles_applyWrite_second time hchannel value
  | _ => exact Bool.noConfusion h

namespace Console

/-- Unused writes may be left out of a run that is accepted.  Made at the same clocks and taken to the
same one, the rest is accepted too.  It hands out the same samples and the same cycles, it takes every
channel and the sequencer through the same steps to the same levels, its fetches and its interrupts
are the same, and it shows the same frame interrupt in every status; and the same status, if the chip
had come no further when it was read than it has here. -/
theorem unused_writes_unseen {console last : Console} (hreach : Reachable console)
    {operations : List Operation} {outcomes : List Outcome}
    (hrun : console.performAll operations = .ok (outcomes, last)) :
    let start : Score := { console }
    let full := start.playAll operations
    let other := (start.replay (start.kept (!·.isUnused) operations)).advance full.now
    (full.console = last ∧ full.readings.map Reading.status = outcomes.flatMap Outcome.told) ∧
      (other.refused = [] ∧ other.origin = full.origin ∧ other.now = full.now) ∧
      other.samples = outcomes.flatMap Outcome.handed ∧
      other.stalls = outcomes.flatMap Outcome.collected ∧
      (∀ channel, other.steps channel = full.steps channel ∧
        other.console.board.chip.level channel = last.board.chip.level channel) ∧
      other.beats = full.beats ∧ other.console.buffer = last.buffer ∧
      other.console.board.bus = last.board.bus ∧
      other.console.board.chip.dmc = last.board.chip.dmc ∧
      other.console.board.chip.sequencer = last.board.chip.sequencer ∧
      other.console.board.chip.earliestIrq = last.board.chip.earliestIrq ∧
      List.Forall₂ Reading.Agrees other.readings full.readings := by
  intro start full other
  have htrails : Score.Trails .used (start.replay (start.kept (!·.isUnused) operations)) full := by
    refine (Score.Trails.refl start).replay ?_ hrun
    intro operation _ herased
    exact Operation.unseen_of_isUnused (by simpa using herased)
  have hsame : other.Resembles .used full := htrails.behind
  obtain ⟨hlast, hsamples, hstalls, hreadings, hrefused⟩ := @Score.playAll_of_ok start _ _ _ hrun
  have hlast : full.console = last := hlast
  have hconsistent : other.console.board.chip.Consistent :=
    Score.consistent_advance (Score.consistent_replay hreach.consistent _) _
  have hsession := hsame.console.session
  have hbuffer := hsame.console.buffer Scope.whole_used
  rw [hlast] at hsession hbuffer
  have hdmc : last.board.chip.dmc = other.console.board.chip.dmc := hsession.dmc rfl
  have hsequencer : last.board.chip.sequencer = other.console.board.chip.sequencer :=
    hsession.sequencer.eq rfl
  have hirq : other.console.board.chip.earliestIrq = last.board.chip.earliestIrq :=
    Score.earliestIrq_eq (consistent_performAll hreach.consistent hrun) hconsistent hdmc.symm
      hsequencer.symm
  exact ⟨⟨hlast, hreadings⟩, ⟨htrails.refused.symm.trans hrefused, hsame.origin.symm, hsame.now.symm⟩,
    (hsame.samples Scope.whole_used).symm.trans hsamples, (hsame.stalls rfl).symm.trans hstalls,
    fun channel => ⟨(hsame.steps channel rfl).symm, (hsession.level rfl).symm⟩, hsame.beats.symm,
    hbuffer.symm, (hsession.bus rfl).symm, hdmc.symm, hsequencer.symm, hirq,
    htrails.readings Scope.whole_used rfl⟩

/-- A note and a status read among three unused writes, none of them at the clock of the read. -/
theorem unused_writes_unseen_of_note :
    let notes : List Operation :=
      [.write 0 0x4015 0x1F, .write 4 0x4009 7, .write 6 0x4014 1, .write 8 0x5000 9,
        .write 10 0x4011 0x40, .readStatus 20, .runFrame 900 50]
    ∃ console outcomes last, Console.create (.unconnected 0) .standard = .ok console ∧
      console.performAll notes = .ok (outcomes, last) ∧
      let start : Score := { console }
      let full := start.playAll notes
      let other := (start.replay (start.kept (!·.isUnused) notes)).advance full.now
      (start.kept (!·.isUnused) notes).length = 4 ∧ outcomes.flatMap Outcome.handed ≠ [#[]] ∧
        other.samples = outcomes.flatMap Outcome.handed := by
  intro notes
  obtain ⟨console, hcreate, hfacts⟩ := exists_ok (Console.create (.unconnected 0) .standard)
    (fun console => decide ((({ console } : Score).kept (!·.isUnused) notes).length = 4) &&
      (console.performAll notes).toOption.any fun result : List Outcome × Console =>
        decide (result.1.flatMap Outcome.handed ≠ [#[]]))
    (by decide +kernel)
  simp only [Bool.and_eq_true, decide_eq_true_eq] at hfacts
  obtain ⟨hkept, hrun⟩ := hfacts
  obtain ⟨⟨outcomes, last⟩, hrun, hhanded⟩ := exists_ok _ _ hrun
  have hsame := unused_writes_unseen (.create hcreate) hrun
  exact ⟨console, outcomes, last, hcreate, hrun, hkept, of_decide_eq_true hhanded, hsame.2.2.1⟩

/-- The length of the first pulse is cut at clock 11 by a step of the sequencer.  A status read at
clock 12 shows the pulse as it was before that step, but not after an idle write at clock 12. -/
theorem status_tells_idle_write :
    let notes : List Operation :=
      [.write 0 0x4015 1, .write 0 0x4003 0x18, .write 0 0x4017 0x80, .write 10 0x4017 0x80,
        .write 12 0x4014 0, .readStatus 12]
    ∃ console outcomes last outcomes' last',
      Console.create (.unconnected 0) .standard = .ok console ∧
      console.performAll notes = .ok (outcomes, last) ∧
      console.performAll (notes.filter (!·.isUnused)) = .ok (outcomes', last') ∧
      last'.board.chip.time = last.board.chip.time ∧
      outcomes.flatMap Outcome.told = [{}] ∧
      outcomes'.flatMap Outcome.told = [{ channels := (ByChannel.fill false).set .pulse1 true }] := by
  intro notes
  obtain ⟨console, hcreate, hfacts⟩ := exists_ok (Console.create (.unconnected 0) .standard)
    (fun console =>
      (console.performAll notes).toOption.any (fun result : List Outcome × Console =>
        result.2.board.chip.time = 12 && decide (result.1.flatMap Outcome.told = [{}])) &&
      (console.performAll (notes.filter (!·.isUnused))).toOption.any
        fun result : List Outcome × Console =>
        result.2.board.chip.time = 12 && decide (result.1.flatMap Outcome.told =
          [{ channels := (ByChannel.fill false).set .pulse1 true }]))
    (by decide +kernel)
  obtain ⟨hrun, hrun'⟩ := Bool.and_eq_true_iff.mp hfacts
  obtain ⟨⟨outcomes, last⟩, hrun, htold⟩ := exists_ok _ _ hrun
  obtain ⟨⟨outcomes', last'⟩, hrun', htold'⟩ := exists_ok _ _ hrun'
  simp only [Bool.and_eq_true, decide_eq_true_eq] at htold htold'
  exact ⟨console, outcomes, last, outcomes', last', hcreate, hrun, hrun',
    htold'.1.trans htold.1.symm, htold.2, htold'.2⟩

end Console

end Chiptune
