import Chiptune.Proofs.PowerOn
import Chiptune.Proofs.Progress

/-! Odd clocks.  Counted from a reset, every step of the sequencer is due at an odd clock: the first
one is, all gaps are even, and of the delay that it finds a mode byte keeps just what makes the sum
odd again.  Frames shift the clocks of the chip but not those from the reset. -/

namespace Chiptune

/-- The consoles at the moment of a reset.  A new console is one, as it is reset when it is made. -/
inductive Console.Restarted : Console → Prop where
  | create {bus : Bus} {configuration : Configuration} {console : Console} :
      Console.create bus configuration = .ok console → Restarted console
  | reset (console : Console) : Restarted console.reset

theorem Console.Restarted.chip {console : Console} (h : console.Restarted) :
    ∃ wiring, console.board.chip = .restarted wiring := by
  cases h with
  | create hcreate =>
    obtain ⟨buffer, _, rfl⟩ := create_ok hcreate
    exact ⟨_, reset_chip _⟩
  | reset console => exact ⟨_, reset_chip console⟩

/-- Whether an operation goes on from the last reset: it is not one itself. -/
def Operation.goesOn : Operation → Bool
  | .reset => false
  | _ => true

theorem Region.stepPeriod_even (region : Region) : (region.stepPeriod : Int) % 2 = 0 := by
  cases region <;> rfl

namespace Sequencer

theorem gapAfter_even (region : Region) (mode : UInt8) (step : BitVec 2) :
    (gapAfter region mode step : Int) % 2 = 0 := by
  unfold gapAfter
  cases region <;> (dsimp only [Region.stepPeriod, longGapTrim]; split; rfl; split <;> rfl)

/-- At `clock`, counted from a reset, the step that is next is due at an odd clock. -/
def DueOdd (sequencer : Sequencer) (clock : Int) : Prop := (clock + sequencer.delay) % 2 = 1

namespace DueOdd

variable {sequencer : Sequencer} {origin now clock : Int}

theorem fire (h : sequencer.DueOdd (origin + now)) :
    (sequencer.fire (now + sequencer.delay)).DueOdd (origin + (now + sequencer.delay)) := by
  have hgap := gapAfter_even sequencer.region sequencer.mode sequencer.next
  unfold DueOdd at *
  rw [fire_delay]
  omega

/-- In a frame that starts at `origin`, all steps of a run come at odd clocks. -/
theorem run (h : sequencer.DueOdd (origin + now)) (stop : Int) :
    (sequencer.after now stop).DueOdd (origin + stop) ∧
      ∀ beat ∈ sequencer.beats now stop, (beat.1 + origin) % 2 = 1 := by
  induction sequencer, now using due_induction stop with
  | due sequencer now hdue ih =>
    obtain ⟨hafter, hbeats⟩ := ih h.fire
    rw [after_of_due hdue, beats_of_due hdue]
    refine ⟨hafter, fun beat hmem => ?_⟩
    rcases List.mem_cons.mp hmem with rfl | hmem
    · unfold DueOdd at h
      dsimp only
      omega
    · exact hbeats beat hmem
  | last sequencer now hdue =>
    rw [after_of_not_due hdue, beats_of_not_due hdue]
    refine ⟨?_, fun beat hmem => nomatch hmem⟩
    unfold DueOdd at *
    show (origin + stop + (sequencer.delay - (stop - now))) % 2 = 1
    omega

/-- A mode byte adds one clock to its delay at an even clock and none at an odd one. -/
theorem delay_writeMode (h : sequencer.DueOdd clock) (time : Int) (mode : UInt8) :
    (sequencer.writeMode time mode).delay =
      (if mode.toNat.testBit 7 then 0 else sequencer.region.stepPeriod : Nat) +
        if clock % 2 = 0 then 1 else 0 := by
  have hodd : sequencer.delay % 2 = if clock % 2 = 0 then 1 else 0 := by
    unfold DueOdd at h
    split <;> omega
  have hfive : isFiveStep mode = mode.toNat.testBit 7 := rfl
  unfold writeMode
  rw [← hodd, hfive]
  cases mode.toNat.testBit 7 with
  | false => exact Int.add_comm ..
  | true => exact (Int.zero_add _).symm

theorem writeMode (h : sequencer.DueOdd clock) (time : Int) (mode : UInt8) :
    (sequencer.writeMode time mode).DueOdd clock := by
  have hperiod := sequencer.region.stepPeriod_even
  unfold DueOdd
  rw [h.delay_writeMode]
  split <;> split <;> omega

end DueOdd

end Sequencer

namespace Session

variable (session : Session) {origin clock : Int}

theorem dueOdd_runTo (h : session.chip.sequencer.DueOdd (origin + session.chip.time))
    (stop : Int) :
    (session.runTo stop).chip.sequencer.DueOdd (origin + max session.chip.time stop) ∧
      ∀ beat ∈ session.fires stop, (beat.1 + origin) % 2 = 1 := by
  by_cases hstop : stop ≤ session.chip.time
  · rw [runTo_of_le hstop, Int.max_eq_left hstop, fires, if_pos hstop]
    exact ⟨h, fun beat hmem => nomatch hmem⟩
  · have hlt := Int.not_le.mp hstop
    rw [runTo_chip hlt, Int.max_eq_right (Int.le_of_lt hlt), fires, if_neg hstop]
    exact h.run stop

theorem dueOdd_touch (h : session.chip.sequencer.DueOdd clock) {operation : Operation}
    (hgoesOn : operation.goesOn = true) :
    (operation.touch session).chip.sequencer.DueOdd clock := by
  rcases session.sequencer_touch operation with ⟨time, mode, rfl, hwritten⟩ | rfl | ⟨_, _, hsame, _⟩
  · rw [hwritten]
    exact h.writeMode time mode
  · cases hgoesOn
  · rw [hsame]
    exact h

end Session

namespace Score

/-- A history since a reset whose steps all come at odd clocks. -/
structure Odd (score : Score) : Prop where
  next : score.console.board.chip.sequencer.DueOdd score.reached
  beats : ∀ beat ∈ score.beats, beat.1 % 2 = 1

namespace Odd

variable {score : Score} {operation : Operation} {outcome : Outcome} {next : Console}

theorem restarted {console : Console} (h : console.Restarted) : Odd { console } := by
  obtain ⟨wiring, hchip⟩ := h.chip
  have hsequencer : console.board.chip.sequencer =
      (Sequencer.powerOn wiring.sequencer).writeMode 0 0 := by
    rw [hchip]
    rfl
  have hnow : reached { console } = 0 := by
    unfold reached now
    rw [hchip]
    rfl
  have hfirst : (Sequencer.powerOn wiring.sequencer).DueOdd 0 := rfl
  refine ⟨?_, fun beat hmem => nomatch hmem⟩
  rw [hsequencer, hnow]
  exact hfirst.writeMode 0 0

theorem accept (h : Odd score) (hgoesOn : operation.goesOn = true)
    (hperform : score.console.perform operation = .ok (outcome, next)) :
    Odd (score.accept operation outcome next) := by
  obtain ⟨hafter, hfires⟩ := Session.dueOdd_runTo score.console.board.session h.next
    (operation.stop score.now)
  have hsequencer := (touched hperform).sequencer.eq rfl
  refine ⟨?_, ?_⟩
  · rw [reached_accept hperform]
    have htouch := Session.dueOdd_touch _ hafter hgoesOn
    rw [← hsequencer] at htouch
    exact htouch
  · intro beat hmem
    rw [beats_accept] at hmem
    rcases List.mem_append.mp hmem with hmem | hmem
    · exact h.beats beat hmem
    · obtain ⟨fired, hfired, rfl⟩ := List.mem_map.mp hmem
      exact hfires fired hfired

end Odd

/-- From a reset on, and however the time is cut by mode bytes and frames, the clock and the
sequencer's delay make an odd sum.  So every step comes at an odd clock, and a mode byte delays its
first step by a clock just if it is written at an even one. -/
theorem clock_add_delay_odd {console : Console} (h : console.Restarted)
    {operations : List Operation} (hreset : .reset ∉ operations) :
    let score := playAll { console } operations
    (score.reached + score.console.board.chip.sequencer.delay) % 2 = 1 ∧
      (∀ beat ∈ score.beats, beat.1 % 2 = 1) ∧
      ∀ time mode outcome next,
        score.console.perform (.write time 0x4017 mode) = .ok (outcome, next) →
        next.board.chip.sequencer.delay =
          (if mode.toNat.testBit 7 then 0 else next.board.chip.region.stepPeriod : Nat) +
            if (score.origin + time) % 2 = 0 then 1 else 0 := by
  intro score
  have hodd : Odd score := by
    have hgoesOn : ∀ operation ∈ operations, operation.goesOn = true := by
      intro operation hmem
      cases operation with
      | reset => exact absurd hmem hreset
      | _ => rfl
    exact playAll_invariant (fun _ _ hodd => ⟨hodd.next, hodd.beats⟩)
      (fun hgoesOn hodd hperform => hodd.accept hgoesOn hperform) (.restarted h) hgoesOn
  refine ⟨hodd.next, hodd.beats, ?_⟩
  intro time mode outcome next hperform
  have hlocation : Location.ofAddress? 0x4017 = some .mode := by decide
  obtain ⟨hchip, _, htime⟩ := Console.perform_ok hperform
  have hle : score.now ≤ time := (htime time rfl).1
  have hwritten : next.board.chip.sequencer =
      (score.console.board.session.runTo time).chip.sequencer.writeMode time mode := by
    rw [hchip, Operation.act_of_some _ _ hlocation, Session.announce_chip]
    rfl
  have hafter := (Session.dueOdd_runTo score.console.board.session hodd.next time).1
  have hnow : max score.console.board.session.chip.time time = time := Int.max_eq_right hle
  rw [hnow] at hafter
  have hregion : next.board.chip.region =
      (score.console.board.session.runTo time).chip.sequencer.region := by
    unfold Chip.region
    rw [hwritten, Sequencer.region_writeMode]
  rw [hwritten, hregion, hafter.delay_writeMode]

/-- Two frames of odd length, each with a mode byte. -/
def oddFrames : List Operation :=
  [.write 5 0x4017 0x80, .runFrame 7001 0, .write 2 0x4017 0, .runFrame 9001 0]

/-- Sixteen thousand clocks and two after the reset, a mode byte waits a clock before its first
step. -/
theorem clock_add_delay_odd_of_odd_frames :
    ∃ console, Console.create (.unconnected 0) .standard = .ok console ∧ .reset ∉ oddFrames ∧
      let score := playAll { console } oddFrames
      (score.reached + score.console.board.chip.sequencer.delay) % 2 = 1 ∧
        (∀ beat ∈ score.beats, beat.1 % 2 = 1) ∧
        ∃ outcome next, score.console.perform (.write 0 0x4017 0x80) = .ok (outcome, next) ∧
          score.origin = 16002 ∧ next.board.chip.sequencer.delay = 1 := by
  obtain ⟨console, hcreate, hfacts⟩ := exists_ok (Console.create (.unconnected 0) .standard)
    (fun console =>
      let score := playAll { console } oddFrames
      score.origin = 16002 &&
        (score.console.perform (.write 0 0x4017 0x80)).toOption.any fun _ => true)
    (by decide +kernel)
  obtain ⟨horigin, hwrite⟩ := Bool.and_eq_true_iff.mp hfacts
  have horigin := of_decide_eq_true horigin
  obtain ⟨⟨outcome, next⟩, hwrite, _⟩ := exists_ok _ _ hwrite
  have hreset : .reset ∉ oddFrames := by simp [oddFrames]
  obtain ⟨hsum, hbeats, hmode⟩ := clock_add_delay_odd (.create hcreate) hreset
  refine ⟨console, hcreate, hreset, hsum, hbeats, outcome, next, hwrite, horigin, ?_⟩
  rw [hmode 0 0x80 outcome next hwrite, horigin]
  rfl

end Score

end Chiptune
