import Chiptune.Proofs.Gauges
import Chiptune.Proofs.HalfFrames
import Chiptune.Proofs.Interference

/-! How a note ends.  A run moves the gauge of a channel by the half frames that it fires, and of the
operations only a reset and writes to the channel or to the status touch it.  So a history moves it
by the half frames of the schedule, which says at which clock the length runs out. -/

namespace Chiptune

theorem Chip.length_eq_gauge (chip : Chip) {channel : Channel} (h : channel ≠ .dmc) :
    (chip.voice channel).length = (chip.tones.gauge channel).length := by
  cases channel with
  | dmc => exact absurd rfl h
  | _ => rfl

theorem Chip.control_eq_gauge (chip : Chip) {channel : Channel} (h : channel ≠ .dmc) :
    (chip.voice channel).registers.first = (chip.tones.gauge channel).control := by
  cases channel with
  | dmc => exact absurd rfl h
  | _ => rfl

/-! ### Operations -/

/-- Whether an operation leaves the length of a channel to its course.  Resets and writes to its
registers, to `$4015` and to `$4017` do not. -/
def Operation.leavesLength (channel : Channel) (operation : Operation) : Bool :=
  !operation.writesTo channel && operation.leaves 0x4015 && operation.leaves 0x4017

namespace Session

variable (session : Session) (channel : Channel)

theorem gauge_runTo (stop : Int) :
    (session.runTo stop).chip.tones.gauge channel =
      (session.chip.tones.gauge channel).after channel.haltMask
        ((session.fires stop).countP (·.2.half)) := by
  by_cases hstop : stop ≤ session.chip.time
  · rw [runTo_of_le hstop, fires, if_pos hstop]
    exact (Gauge.after_zero ..).symm
  · rw [runTo_chip (Int.not_le.mp hstop), fires, if_neg hstop]
    exact Tones.gauge_play ..

theorem gauge_touch {operation : Operation} (hleaves : operation.leavesLength channel = true) :
    (operation.touch session).chip.tones.gauge channel = session.chip.tones.gauge channel := by
  unfold Operation.leavesLength at hleaves
  simp only [Bool.and_eq_true, Bool.not_eq_true'] at hleaves
  obtain ⟨⟨hwrites, hstatus⟩, _⟩ := hleaves
  rcases session.tones_touch operation with
    ⟨time, address, value, written, slot, rfl, hlocation, hwritten⟩ | ⟨time, value, rfl, _⟩ | rfl |
    hsame
  · have hne : written ≠ channel := by
      rintro rfl
      exact of_decide_eq_false hwrites (Location.toNat_of_ofAddress?_voice hlocation).1
    rw [hwritten]
    exact Tones.gauge_write_of_ne hne ..
  · simp [Operation.leaves] at hstatus
  · exact Bool.noConfusion hstatus
  · rw [hsame]

end Session

/-! ### Histories -/

namespace Score

variable {gauge : Gauge} {channel : Channel} {score : Score}

/-- The half frames of a history have moved a gauge to that of a channel. -/
def Gauged (gauge : Gauge) (channel : Channel) (score : Score) : Prop :=
  score.console.board.chip.tones.gauge channel =
    gauge.after channel.haltMask (score.beats.countP (·.2.half))

namespace Gauged

theorem start (console : Console) (channel : Channel) :
    Gauged (console.board.chip.tones.gauge channel) channel { console } :=
  (Gauge.after_zero ..).symm

theorem runTo (h : Gauged gauge channel score) (stop : Int) :
    (score.console.board.session.runTo stop).chip.tones.gauge channel =
      gauge.after channel.haltMask ((score.beatsTo stop).countP (·.2.half)) := by
  have hsame : score.console.board.session.chip.tones.gauge channel = _ := h
  rw [Session.gauge_runTo, hsame, Gauge.after_after, beatsTo, List.countP_append, List.countP_map]
  rfl

theorem accept (h : Gauged gauge channel score) {operation : Operation} {outcome : Outcome}
    {next : Console} (hleaves : operation.leavesLength channel = true)
    (hperform : score.console.perform operation = .ok (outcome, next)) :
    Gauged gauge channel (score.accept operation outcome next) := by
  have htouched := Session.gauge_touch
    (score.console.board.session.runTo (operation.stop score.now)) channel hleaves
  have hchip := (touched hperform).chip_eq
  unfold Gauged
  rw [beats_accept, ← h.runTo, ← htouched]
  show next.board.session.chip.tones.gauge channel = _
  rw [hchip]

theorem playAll (h : Gauged gauge channel score) {operations : List Operation}
    (hleaves : ∀ operation ∈ operations, operation.leavesLength channel = true) :
    Gauged gauge channel (score.playAll operations) :=
  playAll_invariant (P := Gauged gauge channel) (fun _ _ h => h)
    (fun hleaves h hperform => h.accept hleaves hperform) h hleaves

end Gauged

/-- In every console that a host can bring about, and however the time that follows is cut into runs,
frames and status reads, the length of a tone channel depends on the schedule alone.  It stays where
a bit of the first register halts it; else it is less by the half frames that are due from the start
on and before the present clock, down to zero.  A status read shows the channel while the length is
not zero: up to the clock of the last half frame that the length lasts, and never after it. -/
theorem length_runs_out {console : Console} (hreach : console.Reachable) {channel : Channel}
    (htone : channel ≠ .dmc) {operations : List Operation}
    (hleaves : ∀ operation ∈ operations, operation.leavesLength channel = true) :
    let start := console.board.chip
    let voice := start.voice channel
    let schedule := start.sequencer.schedule start.time
    let halted := voice.registers.first &&& channel.haltMask ≠ 0
    let length (clock : Int) : Nat :=
      if halted then voice.length else voice.length - schedule.halves start.time clock
    let score := playAll { console } operations
    let chip := score.console.board.chip
    (∃ place, (∀ k, k < place ↔ schedule.due k < score.reached) ∧
      schedule.On place chip.sequencer score.reached) ∧
    score.beats.countP (·.2.half) = schedule.halves start.time score.reached ∧
    (chip.voice channel).length = length score.reached ∧
    (∀ time status next, score.console.perform (.readStatus time) = .ok (.status status, next) →
      (status.channels.get channel = true ↔
        length (score.origin + max (time - 1) score.now) ≠ 0)) ∧
    (¬halted → voice.length ≠ 0 → ∃ k, schedule.HalfFrom start.time k ∧
      schedule.halves start.time (schedule.due k) + 1 = voice.length ∧
      ∀ clock, length clock ≠ 0 ↔ clock ≤ schedule.due k) := by
  intro start voice schedule halted length score chip
  have hdelay : 0 ≤ start.sequencer.delay := hreach.consistent.sequencer_delay
  have hbase := Sequencer.lt_place_iff start.time hreach.near hdelay
  obtain ⟨place, hon⟩ : ∃ place, OnSchedule schedule start.sequencer.place score place :=
    (onSchedule_start hreach).playAll fun operation hmem =>
      (Bool.and_eq_true_iff.mp (hleaves operation hmem)).2
  have hgauged : Gauged (start.tones.gauge channel) channel score :=
    (Gauged.start console channel).playAll hleaves
  -- The length that is left after a number of half frames.
  have hlength (halves : Nat) : ((start.tones.gauge channel).after channel.haltMask halves).length =
      if halted then voice.length else voice.length - halves := by
    rw [Gauge.length_after, ← start.length_eq_gauge htone, ← start.control_eq_gauge htone]
  refine ⟨⟨place, hon.fired, hon.on⟩, hon.countP_beats hbase, ?_, ?_, ?_⟩
  · rw [chip.length_eq_gauge htone, hgauged, hlength, hon.countP_beats hbase]
  · intro time status next hperform
    rw [Console.perform_readStatus] at hperform
    obtain ⟨_, _, hanswer⟩ := map_eq_ok hperform
    cases hanswer
    have hclock : max score.now (max (time - 1) score.now) = max (time - 1) score.now := by omega
    have hseen : (score.console.board.session.glance time).chip.tones.gauge channel = _ :=
      hgauged.runTo (max (time - 1) score.now)
    rw [hon.countP_beatsTo hbase, hclock] at hseen
    rw [Session.readStatus_fst, Chip.active, ByChannel.get_ofFn, decide_eq_true_iff,
      Chip.length_eq_gauge _ htone, hseen, hlength]
  · intro hfree hsome
    obtain ⟨k, hhalf, hbefore, hclock⟩ := schedule.exists_half start.time (voice.length - 1)
    refine ⟨k, hhalf, by omega, fun clock => ?_⟩
    have hclock := hclock clock
    have hleft : length clock = voice.length - schedule.halves start.time clock := if_neg hfree
    omega

/-- A short note of the first pulse. -/
def shortNote : List Operation := [.write 0 0x4015 1, .write 0 0x4003 0x18]

/-- Of the two half frames that it lasts, the first is due within a frame and the second later. -/
theorem length_runs_out_of_short_note :
    let frame : List Operation := [.runFrame 29781 0]
    ∃ console, Console.Reachable console ∧
      (console.board.chip.voice .pulse1).length = 2 ∧
      (∀ operation ∈ frame, operation.leavesLength .pulse1 = true) ∧
      let schedule := console.board.chip.sequencer.schedule 0
      let score := playAll { console } frame
      score.reached = 29781 ∧ schedule.halves 0 29781 = 1 ∧
        (score.console.board.chip.voice .pulse1).length = 1 ∧
        ∃ k, schedule.halves 0 (schedule.due k) = 1 ∧ 29781 ≤ schedule.due k := by
  intro frame
  obtain ⟨start, hcreate, hfacts⟩ := exists_ok (Console.create (.unconnected 0) .standard)
    (fun start => (start.performAll shortNote).toOption.any fun result =>
      let console := result.2
      let score := playAll { console } frame
      console.board.chip.time = 0 && (console.board.chip.voice .pulse1).length = 2 &&
        (console.board.chip.voice .pulse1).registers.first = 0x10 && score.reached = 29781 &&
        score.beats.countP (·.2.half) = 1)
    (by decide +kernel)
  obtain ⟨⟨_, console⟩, hrun, hfacts⟩ := exists_ok _ _ hfacts
  simp only [Bool.and_eq_true, decide_eq_true_eq] at hfacts
  obtain ⟨⟨⟨⟨htime, hlength⟩, hcontrol⟩, hreached⟩, hcount⟩ := hfacts
  have hreach := (Console.Reachable.create hcreate).performAll hrun
  have hleaves : ∀ operation ∈ frame, operation.leavesLength .pulse1 = true := by decide
  have hfree : ¬(console.board.chip.voice .pulse1).registers.first &&&
      Channel.haltMask .pulse1 ≠ 0 := by
    rw [hcontrol]
    decide
  obtain ⟨_, hhalves, hleft, _, hlast⟩ := length_runs_out hreach (by decide) hleaves
  beta_reduce at hleft hlast
  rw [htime, hreached, hcount] at hhalves
  rw [if_neg hfree, hlength, htime, hreached, ← hhalves] at hleft
  obtain ⟨k, _, hbefore, hclock⟩ := hlast hfree (by omega)
  rw [htime, hlength] at hbefore
  have hclock := hclock 29781
  rw [if_neg hfree, hlength, htime, ← hhalves] at hclock
  exact ⟨console, hreach, hlength, hleaves, hreached, hhalves.symm, hleft, k,
    Nat.succ.inj hbefore, hclock.mp (by decide)⟩

end Score

end Chiptune
