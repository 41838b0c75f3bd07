import Chiptune.Proofs.Erasure
import Chiptune.Proofs.TimeOrder

/-! What a history does to a chip.  An operation is refused and changes nothing, or else it runs the
chip to its clock and touches it there; `Session.sequencer_touch` and `Session.tones_touch` list what
the touch can be.  So what runs and touches preserve holds after every history
(`Console.Reachable.sequencer_invariant`, `Score.playAll_invariant`), and `reached` counts the clocks
of a history through all its frames. -/

namespace Chiptune

/-- Whether an operation leaves a register as it is: it is neither a write to its address nor a
reset. -/
def Operation.leaves (address : UInt16) : Operation → Bool
  | .write _ written _ => written ≠ address
  | .reset => false
  | _ => true

namespace Session

variable (session : Session) (operation : Operation)

/-- A mode byte and a reset start the sequencer anew.  Else only the two interrupt fields change, and
only a status read takes a raised interrupt back. -/
theorem sequencer_touch :
    (∃ time mode, operation = .write time 0x4017 mode ∧
      (operation.touch session).chip.sequencer = session.chip.sequencer.writeMode time mode) ∨
    operation = .reset ∨
    ∃ irqFlag nextIrq,
      (operation.touch session).chip.sequencer =
        { session.chip.sequencer with irqFlag := irqFlag, nextIrq := nextIrq } ∧
      (irqFlag = true ↔ session.chip.sequencer.irqFlag = true ∧
        ∀ time, operation ≠ .readStatus time) := by
  cases operation with
  | write time address value =>
    cases hlocation : Location.ofAddress? address with
    | none =>
      rw [Operation.touch_of_none _ _ hlocation]
      exact .inr (.inr ⟨session.chip.sequencer.irqFlag, _, rfl, by simp⟩)
    | some location =>
      rw [Operation.touch_of_some _ _ hlocation]
      cases location with
      | mode =>
        obtain rfl := Location.eq_of_ofAddress?_mode hlocation
        exact .inl ⟨time, value, rfl, rfl⟩
      | voice channel slot =>
        cases channel <;> exact .inr (.inr ⟨session.chip.sequencer.irqFlag, _, rfl, by simp⟩)
      | _ => exact .inr (.inr ⟨session.chip.sequencer.irqFlag, _, rfl, by simp⟩)
  | readStatus time => exact .inr (.inr ⟨false, _, rfl, by simp⟩)
  | reset => exact .inr (.inl rfl)
  | _ => exact .inr (.inr ⟨session.chip.sequencer.irqFlag, _, rfl, by simp⟩)

/-- Only a write to a tone channel or to the status and a reset touch the tones. -/
theorem tones_touch :
    (∃ time address value channel slot, operation = .write time address value ∧
      Location.ofAddress? address = some (.voice channel slot) ∧
      (operation.touch session).chip.tones =
        session.chip.tones.write channel slot value (session.chip.enables.get channel)) ∨
    (∃ time value, operation = .write time 0x4015 value ∧
      (operation.touch session).chip.tones =
        session.chip.tones.enable (Status.enables value)) ∨
    operation = .reset ∨ (operation.touch session).chip.tones = session.chip.tones := by
  cases operation with
  | write time address value =>
    cases hlocation : Location.ofAddress? address with
    | none =>
      rw [Operation.touch_of_none _ _ hlocation]
      exact .inr (.inr (.inr rfl))
    | some location =>
      rw [Operation.touch_of_some _ _ hlocation]
      cases location with
      | voice channel slot =>
        cases channel with
        | dmc => exact .inr (.inr (.inr rfl))
        | _ => exact .inl ⟨time, address, value, _, slot, rfl, hlocation, rfl⟩
      | status =>
        obtain rfl := Location.eq_of_ofAddress?_status hlocation
        exact .inr (.inl ⟨time, value, rfl, rfl⟩)
      | _ => exact .inr (.inr (.inr rfl))
  | reset => exact .inr (.inr (.inl rfl))
  | _ => exact .inr (.inr (.inr rfl))

end Session

/-- A sequencer only runs, takes a mode byte, and has its interrupt cleared or moved into the next
frame. -/
theorem Console.Reachable.sequencer_invariant {P : Sequencer → Prop}
    (hrun : ∀ sequencer now stop, now < stop → P sequencer → P (sequencer.after now stop))
    (hmode : ∀ sequencer time mode, P (Sequencer.writeMode sequencer time mode))
    (hirq : ∀ sequencer irqFlag nextIrq, P sequencer →
      P { sequencer with irqFlag := irqFlag, nextIrq := nextIrq })
    {console : Console} (h : Reachable console) : P console.board.chip.sequencer := by
  have hrestarted (wiring : Wiring) : P (Chip.restarted wiring).sequencer := hmode _ 0 0
  have htouch (session : Session) (operation : Operation) (hsession : P session.chip.sequencer) :
      P (operation.touch session).chip.sequencer := by
    rcases session.sequencer_touch operation with ⟨time, mode, rfl, hwritten⟩ | rfl |
      ⟨_, _, hsame, _⟩
    · rw [hwritten]
      exact hmode _ _ _
    · show P session.chip.reset.1.sequencer
      rw [Chip.reset_eq_restarted]
      exact hrestarted _
    · rw [hsame]
      exact hirq _ _ _ hsession
  induction h with
  | create hcreate =>
    obtain ⟨buffer, _, rfl⟩ := create_ok hcreate
    rw [reset_chip]
    exact hrestarted _
  | @perform console next operation outcome _ hperform ih =>
    obtain ⟨hchip, _, _⟩ := perform_ok hperform
    rw [hchip, (console.board.session.resembles_act .full operation).chip_eq]
    refine htouch _ operation ?_
    by_cases hstop : operation.stop console.board.session.chip.time ≤
        console.board.session.chip.time
    · rwa [Session.runTo_of_le hstop]
    · have hlt := Int.not_le.mp hstop
      rw [Session.runTo_chip hlt]
      exact hrun _ _ _ hlt ih

namespace Score

variable {score : Score} {operation : Operation} {outcome : Outcome} {next : Console}

/-- The clock to which the chip has run, counted from the start. -/
def reached (score : Score) : Int := score.origin + score.now

theorem reached_accept (h : score.console.perform operation = .ok (outcome, next)) :
    (score.accept operation outcome next).reached =
      score.origin + max score.now (operation.stop score.now) := by
  obtain ⟨hchip, _, htime⟩ := Console.perform_ok h
  have hact := Operation.act_time score.console.board.session fun time ht => (htime time ht).1
  rw [← hchip] at hact
  show score.origin + operation.span score.now + next.board.chip.time = _
  have hnow : score.console.board.session.chip.time = score.now := rfl
  rw [hact, hnow]
  cases operation with
  | write time address value =>
    simp only [Operation.span, Operation.latest, Operation.stop, ← Location.isSome_ofAddress?]
    split <;> omega
  | runFrame time count =>
    have hle : score.now ≤ time := (htime time rfl).1
    simp only [Operation.span, Operation.latest, Operation.stop]
    omega
  | _ =>
    simp only [Operation.span, Operation.latest, Operation.stop]
    omega

/-- An accepted operation runs the chip to its clock and touches it there. -/
theorem touched (h : score.console.perform operation = .ok (outcome, next)) :
    (operation.touch
      (score.console.board.session.runTo (operation.stop score.now))).Resembles .full
      next.board.session := by
  obtain ⟨hchip, hbus, _⟩ := Console.perform_ok h
  exact (Session.resembles_act .full _ operation).trans (.of_eq hchip hbus)

theorem beats_accept (score : Score) (operation : Operation) (outcome : Outcome) (next : Console) :
    (score.accept operation outcome next).beats = score.beatsTo (operation.stop score.now) := rfl

/-- What no refusal and no accepted operation of an allowed kind changes holds after every
history. -/
theorem playAll_invariant {allowed : Operation → Bool} {P : Score → Prop}
    (hrefuse : ∀ (score : Score) (fault : Fault), P score →
      P { score with refused := score.refused ++ [fault] })
    (haccept : ∀ {score : Score} {operation : Operation} {outcome : Outcome} {next : Console},
      allowed operation = true → P score →
      score.console.perform operation = .ok (outcome, next) →
      P (score.accept operation outcome next))
    (h : P score) {operations : List Operation}
    (hallowed : ∀ operation ∈ operations, allowed operation = true) :
    P (score.playAll operations) := by
  induction operations generalizing score with
  | nil => exact h
  | cons operation operations ih =>
    have hlater := fun operation hmem => hallowed operation (.tail _ hmem)
    refine @ih (score.play operation) ?_ hlater
    cases hperform : score.console.perform operation with
    | error fault =>
      rw [play_of_error hperform]
      exact hrefuse score fault h
    | ok result =>
      rw [play_of_ok hperform]
      exact haccept (hallowed operation (.head _)) h hperform

end Score

end Chiptune
