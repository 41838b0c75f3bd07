import Chiptune.Proofs.Operation

/-! The predicted interrupt is exact.  `RaisedBy` says of a chip that its interrupt is raised or
predicted not to come after a clock.  No run, no end of a frame and no write but those to the three
registers of the interrupts changes that, whatever clock it is asked for. -/

namespace Chiptune

namespace Chip

/-- Whether the interrupt is raised or predicted not to come after `stop`. -/
def RaisedBy (chip : Chip) (stop : Int) : Prop :=
  chip.sequencer.RaisedBy stop ∨ chip.dmc.RaisedBy stop

theorem raisedBy_iff {chip : Chip} (h : chip.irqPending = false) (stop : Int) :
    chip.RaisedBy stop ↔ ∃ t, chip.nextIrq = some t ∧ t ≤ stop := by
  have hflags := Bool.or_eq_false_iff.mp h
  rw [nextIrq_le_iff h, RaisedBy, Sequencer.RaisedBy, Dmc.RaisedBy, hflags.1, hflags.2]
  simp only [Bool.false_eq_true, false_or]
  exact Or.comm

variable {chip : Chip} (h : chip.Steady)
include h

theorem Steady.irqPending_iff : chip.irqPending = true ↔ chip.RaisedBy chip.time := by
  cases hpending : chip.irqPending
  · rw [raisedBy_iff hpending]
    refine ⟨fun hfalse => Bool.noConfusion hfalse, ?_⟩
    rintro ⟨t, ht, hle⟩
    have hlt := h.lt_nextIrq hpending ht
    omega
  · refine ⟨fun _ => ?_, fun _ => rfl⟩
    rcases Bool.or_eq_true_iff.mp hpending with hflag | hflag
    · exact .inl (.inl hflag)
    · exact .inr (.inl hflag)

theorem Steady.raisedBy_after {mid stop : Int} (hmid : mid ≤ stop) (bus : Bus) :
    (chip.after mid bus).1.RaisedBy stop ↔ chip.RaisedBy stop :=
  or_congr (h.sequencer.raisedBy_after hmid) (h.dmc.raisedBy_after hmid bus)

omit h

theorem raisedBy_shift (chip : Chip) (origin stop : Int) :
    (chip.shift origin).RaisedBy (stop - origin) ↔ chip.RaisedBy stop := by
  have hirq (irq : Option Int) :
      (∃ t, irq.map (· - origin) = some t ∧ t ≤ stop - origin) ↔ ∃ t, irq = some t ∧ t ≤ stop := by
    cases irq with
    | none => simp
    | some t =>
      simp only [Option.map_some, Option.some.injEq, exists_eq_left']
      omega
  exact or_congr (or_congr Iff.rfl (hirq _)) (or_congr Iff.rfl (hirq _))

/-- Two predictions that come before the same clocks, both of them past `now`, are the same. -/
theorem eq_shifted_of_forecasts {now clocks : Int} {irq irq' : Option Int}
    (h : ∀ t, now ≤ t → ((∃ a, irq' = some a ∧ a ≤ t - clocks) ↔ ∃ b, irq = some b ∧ b ≤ t))
    (hlater : ∀ a, irq' = some a → now < a + clocks) (hfirst : ∀ b, irq = some b → now < b) :
    irq' = irq.map (· - clocks) := by
  cases irq with
  | none =>
    cases irq' with
    | none => rfl
    | some a =>
      obtain ⟨b, hb, _⟩ := (h (a + clocks) (Int.le_of_lt (hlater a rfl))).mp ⟨a, rfl, by omega⟩
      cases hb
  | some b =>
    obtain ⟨a, rfl, hle⟩ := (h b (Int.le_of_lt (hfirst b rfl))).mpr ⟨b, rfl, Int.le_refl b⟩
    obtain ⟨b', hb', hle'⟩ := (h (a + clocks) (Int.le_of_lt (hlater a rfl))).mp
      ⟨a, rfl, by omega⟩
    cases hb'
    rw [Option.map_some]
    congr 1
    omega

end Chip

namespace Session

theorem raisedBy_runTo {session : Session} (h : session.chip.Consistent) {mid stop : Int}
    (hmid : mid ≤ stop) : (session.runTo mid).chip.RaisedBy stop ↔ session.chip.RaisedBy stop := by
  by_cases hle : mid ≤ session.chip.time
  · rw [runTo_of_le hle]
  · rw [runTo_chip (Int.not_le.mp hle)]
    exact h.toSteady.raisedBy_after hmid session.bus

/-- A write that reaches neither the rate of the sample channel, the status nor the mode. -/
theorem raisedBy_applyWrite (session : Session) (time : Int) {location : Location}
    (hrate : location ≠ .voice .dmc .first) (hstatus : location ≠ .status)
    (hmode : location ≠ .mode) (value : UInt8) (stop : Int) :
    (session.applyWrite time location value).chip.RaisedBy stop ↔
      session.chip.RaisedBy stop := by
  cases location with
  | voice channel slot =>
    cases channel with
    | dmc =>
      cases slot with
      | first => exact absurd rfl hrate
      | _ => exact Iff.rfl
    | _ => exact Iff.rfl
  | status => exact absurd rfl hstatus
  | mode => exact absurd rfl hmode
  | idle => exact Iff.rfl

end Session

/-! ### Operations -/

namespace Operation

/-- Whether an operation leaves the predicted interrupt to its course.  Status reads, resets and
writes to `$4010`, `$4015` and `$4017` do not. -/
def leavesIrq : Operation → Bool
  | .write _ address _ => address ≠ 0x4010 && address ≠ 0x4015 && address ≠ 0x4017
  | .readStatus _ | .reset => false
  | _ => true

theorem raisedBy_act (session : Session) (h : session.chip.Consistent) {operation : Operation}
    (htime : ∀ time, operation.time? = some time → session.chip.time ≤ time)
    (hleaves : operation.leavesIrq = true) {stop : Int}
    (hstop : (operation.act session).chip.time + operation.clocks ≤ stop) :
    (operation.act session).chip.RaisedBy (stop - operation.clocks) ↔
      session.chip.RaisedBy stop := by
  cases operation with
  | write time address value =>
    simp only [leavesIrq, Bool.and_eq_true, decide_eq_true_eq] at hleaves
    obtain ⟨⟨hrate, hstatus⟩, hmode⟩ := hleaves
    show (session.write time address value).chip.RaisedBy (stop - 0) ↔ _
    rw [Int.sub_zero]
    cases hlocation : Location.ofAddress? address with
    | none => rw [Session.write_of_none hlocation]
    | some location =>
      have hreached := Session.write_time hlocation session time value
      have hmid : time ≤ stop := by
        have hstop : (session.write time address value).chip.time + 0 ≤ stop := hstop
        omega
      have hother : location ≠ .voice .dmc .first ∧ location ≠ .status ∧ location ≠ .mode := by
        refine ⟨?_, ?_, ?_⟩
        · rintro rfl
          exact hrate (Location.eq_of_ofAddress?_rate hlocation)
        · rintro rfl
          exact hstatus (Location.eq_of_ofAddress?_status hlocation)
        · rintro rfl
          exact hmode (Location.eq_of_ofAddress?_mode hlocation)
      rw [Session.write_of_some hlocation, Session.announce_chip]
      exact (Session.raisedBy_applyWrite (session.runTo time) time hother.1 hother.2.1 hother.2.2
        value stop).trans (Session.raisedBy_runTo h hmid)
  | runFrame time count =>
    have hle := htime time rfl
    have hmid : time ≤ stop := by
      have hstop : (session.endFrame time).chip.time + time ≤ stop := hstop
      rw [Session.endFrame_time hle] at hstop
      omega
    show (session.endFrame time).chip.RaisedBy (stop - time) ↔ _
    rw [(Session.consistent_endFrame h hle).1, Chip.raisedBy_shift]
    exact Session.raisedBy_runTo h hmid
  | readStatus time => exact Bool.noConfusion hleaves
  | reset => exact Bool.noConfusion hleaves
  | _ =>
    show session.chip.RaisedBy (stop - 0) ↔ _
    rw [Int.sub_zero]

end Operation

namespace Console

variable {console last : Console} {operations : List Operation} {outcomes : List Outcome}

theorem raisedBy_performAll (h : console.board.chip.Consistent)
    (hleaves : ∀ operation ∈ operations, operation.leavesIrq = true)
    (hrun : console.performAll operations = .ok (outcomes, last)) {stop : Int}
    (hstop : last.board.chip.time + Operation.totalClocks operations ≤ stop) :
    last.board.chip.RaisedBy (stop - Operation.totalClocks operations) ↔
      console.board.chip.RaisedBy stop := by
  refine Iff.of_eq (forecast_performAll (fun chip _ stop => chip.RaisedBy stop)
    (rfl : Operation.leavesIrq .reset = false) ?_ h hleaves hrun hstop)
  intro session operation stop hchip htime hallowed hstop
  exact propext (Operation.raisedBy_act session hchip htime hallowed hstop)

/-- However a console is taken to a later clock without touching its interrupts, an interrupt is
then raised exactly if one was predicted not to come after that clock.  Until then the prediction
stays. -/
theorem irqPending_iff_predicted (hreach : Reachable console)
    (hquiet : console.board.chip.irqPending = false)
    (hleaves : ∀ operation ∈ operations, operation.leavesIrq = true)
    (hrun : console.performAll operations = .ok (outcomes, last)) :
    let now := last.board.chip.time + Operation.totalClocks operations
    (last.board.chip.irqPending = true ↔
        ∃ t, console.board.chip.earliestIrq = some t ∧ t ≤ now) ∧
      (last.board.chip.irqPending = false →
        last.board.chip.earliestIrq =
          console.board.chip.earliestIrq.map (· - Operation.totalClocks operations)) := by
  intro now
  have hstart := hreach.consistent
  have hend := consistent_performAll hstart hrun
  have hraised (stop : Int) (hstop : now ≤ stop) :
      last.board.chip.RaisedBy (stop - Operation.totalClocks operations) ↔
        console.board.chip.RaisedBy stop :=
    raisedBy_performAll hstart hleaves hrun hstop
  rw [hstart.current, hend.current]
  have hnow : last.board.chip.irqPending = true ↔
      ∃ t, console.board.chip.nextIrq = some t ∧ t ≤ now := by
    rw [← Chip.raisedBy_iff hquiet, ← hraised now (Int.le_refl now),
      hend.toSteady.irqPending_iff]
    show _ ↔ last.board.chip.RaisedBy (last.board.chip.time + Operation.totalClocks operations -
      Operation.totalClocks operations)
    rw [Int.add_sub_cancel]
  refine ⟨hnow, ?_⟩
  intro hpending
  -- Both predictions lie past the clock, and a time is past one exactly if it is past the other.
  have hpredicted (t : Int) (ht : now ≤ t) :
      (∃ a, last.board.chip.nextIrq = some a ∧ a ≤ t - Operation.totalClocks operations) ↔
        ∃ b, console.board.chip.nextIrq = some b ∧ b ≤ t := by
    rw [← Chip.raisedBy_iff hquiet, ← Chip.raisedBy_iff hpending]
    exact hraised t ht
  have hlast (a : Int) (ha : last.board.chip.nextIrq = some a) :
      now < a + Operation.totalClocks operations := by
    have hlt := hend.lt_nextIrq hpending ha
    omega
  have hfirst (b : Int) (hb : console.board.chip.nextIrq = some b) : now < b := by
    rw [hpending] at hnow
    have hnot := mt hnow.mpr Bool.noConfusion
    rw [← Int.not_le]
    exact fun hle => hnot ⟨b, hb, hle⟩
  exact Chip.eq_shifted_of_forecasts hpredicted hlast hfirst

/-- The first frame interrupt after power-on is predicted for clock 29832, and a console that gets
there by way of the next frame has it raised. -/
theorem irqPending_after_first_sequence :
    ∃ console outcomes last, Console.create (.unconnected 0) .standard = .ok console ∧
      console.board.chip.earliestIrq = some 29832 ∧
      console.performAll [.runFrame 29831 0, .write 1 0x4000 3] = .ok (outcomes, last) ∧
      last.board.chip.irqPending = true := by
  obtain ⟨console, hcreate, hfacts⟩ := exists_ok
    (Console.create (.unconnected 0) .standard)
    (fun console => console.board.chip.irqPending = false &&
      console.board.chip.earliestIrq = some 29832 &&
      (console.performAll [.runFrame 29831 0, .write 1 0x4000 3]).toOption.any fun result =>
        result.2.board.chip.time = 1)
    (by decide +kernel)
  simp only [Bool.and_eq_true, decide_eq_true_eq] at hfacts
  obtain ⟨⟨hquiet, hearliest⟩, hrun⟩ := hfacts
  obtain ⟨⟨outcomes, last⟩, hrun, htime⟩ := exists_ok _ _ hrun
  refine ⟨console, outcomes, last, hcreate, hearliest, hrun, ?_⟩
  refine (irqPending_iff_predicted (.create hcreate) hquiet (by decide) hrun).1.mpr ?_
  have htime : last.board.chip.time = 1 := of_decide_eq_true htime
  exact ⟨29832, hearliest, by rw [htime]; decide⟩

end Console

end Chiptune
