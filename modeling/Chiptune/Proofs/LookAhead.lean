import Chiptune.Proofs.Operation

/-! The look-ahead of the sample channel is exact.  `fetchesBy` counts the fetches of a chip at
work that were made and those that are still to come before a clock.  No run, no end of a frame, no
status read and no write to a register of another channel changes that sum. -/

namespace Chiptune

namespace Chip

/-- The fetches to come before `stop`. -/
def fetchesBefore (chip : Chip) (stop : Int) : Nat :=
  chip.dmc.fetchesBefore (chip.time + chip.dmc.voice.delay) stop

theorem fetchesBefore_mono (chip : Chip) {stop stop' : Int} (h : stop ≤ stop') :
    chip.fetchesBefore stop ≤ chip.fetchesBefore stop' :=
  Dmc.fetchesBefore_mono h

variable {chip : Chip} {t r : Int} {n : Nat} (hlook : chip.countFetches t = (n, r))
include hlook

theorem fetchesBefore_of_countFetches : chip.fetchesBefore t = n := by
  unfold fetchesBefore
  rw [← Dmc.countFetches_fst]
  exact congrArg Prod.fst hlook

/-- The clock that the look-ahead gives is one past the last fetch. -/
theorem Steady.fetchesBefore_of_last (h : chip.Steady) (hpos : 0 < n) :
    chip.fetchesBefore (r - 1) = n - 1 ∧ chip.fetchesBefore r = n ∧ chip.time < r ∧ r ≤ t := by
  obtain ⟨m, rfl⟩ : ∃ m, n = m + 1 := ⟨n - 1, by omega⟩
  have hn := fetchesBefore_of_countFetches hlook
  have hr : r = _ := (congrArg Prod.snd hlook).symm.trans
    (chip.dmc.countFetches_snd t chip.time (congrArg Prod.fst hlook))
  have hdue := chip.dmc.le_fetchDue (chip.time + chip.dmc.voice.delay)
  have hbytes : 0 ≤ (m : Int) * (chip.dmc.period * 8) :=
    Int.mul_nonneg (Int.natCast_nonneg m) (Int.le_of_lt chip.dmc.bytePeriod_pos)
  have hdelay := h.dmc_delay
  obtain ⟨hbefore, hafter⟩ := Dmc.fetchesBefore_succ hn
  have hlast : chip.fetchesBefore (r - 1) = m := by
    rw [hr, Int.add_sub_cancel]
    exact hbefore
  refine ⟨hlast, by rw [hr]; exact hafter, by omega, ?_⟩
  rw [← Int.not_lt]
  intro hlt
  have hmono := chip.fetchesBefore_mono (by omega : t ≤ r - 1)
  omega

end Chip

namespace Session

/-- The fetches that were made and those to come before `stop`. -/
def fetchesBy (session : Session) (stop : Int) : Nat :=
  Dmc.fetchesBy stop (session.chip.time + session.chip.dmc.voice.delay)
    (session.chip.dmc, session.bus)

variable {session : Session}

theorem fetchesBy_now (session : Session) (h : session.chip.Steady) :
    session.fetchesBy session.chip.time = session.bus.fetched.size := by
  have hdue := session.chip.dmc.le_fetchDue (session.chip.time + session.chip.dmc.voice.delay)
  have hdelay := h.dmc_delay
  have hnone : session.chip.dmc.fetchesBefore (session.chip.time + session.chip.dmc.voice.delay)
      session.chip.time = 0 :=
    Dmc.fetchesBefore_of_le (by omega)
  exact congrArg (session.bus.fetched.size + ·) hnone

theorem fetchesBy_runTo (h : session.chip.Consistent) {mid stop : Int} (hmid : mid ≤ stop) :
    (session.runTo mid).fetchesBy stop = session.fetchesBy stop := by
  by_cases hle : mid ≤ session.chip.time
  · rw [runTo_of_le hle]
  · rw [Int.not_le] at hle
    unfold fetchesBy
    rw [runTo_chip hle, runTo_bus hle]
    exact h.dmc.fetchesBy_after hmid session.bus

theorem fetchesBy_announce (session : Session) (stop : Int) :
    session.announce.fetchesBy stop = session.fetchesBy stop := by
  unfold fetchesBy
  rw [announce_chip, announce_bus]
  rfl

theorem fetchesBy_applyWrite (session : Session) (time : Int) {location : Location}
    (hdmc : ∀ slot, location ≠ .voice .dmc slot) (hstatus : location ≠ .status) (value : UInt8)
    (stop : Int) :
    (session.applyWrite time location value).fetchesBy stop = session.fetchesBy stop := by
  cases location with
  | voice channel slot =>
    cases channel with
    | dmc => exact absurd rfl (hdmc slot)
    | _ => rfl
  | status => exact absurd rfl hstatus
  | mode => rfl
  | idle => rfl

theorem fetchesBy_readStatus (h : session.chip.Consistent) {time stop : Int} (htime : time ≤ stop)
    (hnow : session.chip.time ≤ stop) :
    (session.readStatus time).2.fetchesBy stop = session.fetchesBy stop := by
  have hran : ((session.runTo (max (time - 1) session.chip.time)).runTo time).fetchesBy stop =
      session.fetchesBy stop := by
    rw [fetchesBy_runTo (consistent_runTo h _) htime, fetchesBy_runTo h (by omega)]
  unfold readStatus
  simp only
  split
  · rw [fetchesBy_announce]
    exact hran
  · exact hran

theorem fetchesBy_endFrame (h : session.chip.Consistent) {time stop : Int}
    (hnow : session.chip.time ≤ time) (htime : time ≤ stop) :
    (session.endFrame time).fetchesBy (stop - time) = session.fetchesBy stop := by
  have hdue (chip : Chip) : chip.time - time + chip.dmc.voice.delay =
      chip.time + chip.dmc.voice.delay - time := by
    omega
  have hshift : (session.endFrame time).fetchesBy (stop - time) =
      (session.runTo time).fetchesBy stop := by
    unfold fetchesBy
    rw [(consistent_endFrame h hnow).1]
    show (session.runTo time).bus.fetched.size +
      ((session.runTo time).chip.dmc.rebase time).fetchesBefore
        ((session.runTo time).chip.time - time + (session.runTo time).chip.dmc.voice.delay)
        (stop - time) = _
    rw [hdue, Dmc.fetchesBefore_rebase]
    rfl
  rw [hshift, fetchesBy_runTo h htime]

end Session

namespace Operation

/-- Whether an operation leaves the sample channel to its course.  Resets and writes to its
registers and to `$4015` do not. -/
def leavesSample : Operation → Bool
  | .write _ address _ => !(0x4010 ≤ address && address ≤ 0x4013) && address ≠ 0x4015
  | .reset => false
  | _ => true

theorem fetchesBy_act (session : Session) (h : session.chip.Consistent) {operation : Operation}
    (htime : ∀ time, operation.time? = some time → session.chip.time ≤ time)
    (hleaves : operation.leavesSample = true) {stop : Int}
    (hstop : (operation.act session).chip.time + operation.clocks ≤ stop) :
    (operation.act session).fetchesBy (stop - operation.clocks) = session.fetchesBy stop := by
  cases operation with
  | write time address value =>
    simp only [leavesSample, Bool.and_eq_true, decide_eq_true_eq, Bool.not_eq_true'] at hleaves
    obtain ⟨hsample, hstatus⟩ := hleaves
    show (session.write time address value).fetchesBy (stop - 0) = _
    rw [Int.sub_zero]
    cases hlocation : Location.ofAddress? address with
    | none => rw [Session.write_of_none hlocation]
    | some location =>
      have hreached := Session.write_time hlocation session time value
      have hmid : time ≤ stop := by
        have hstop : (session.write time address value).chip.time + 0 ≤ stop := hstop
        omega
      have hother : (∀ slot, location ≠ .voice .dmc slot) ∧ location ≠ .status := by
        constructor
        · rintro slot rfl
          have hrange := Location.range_of_ofAddress?_dmc hlocation
          simp [hrange] at hsample
        · rintro rfl
          exact hstatus (Location.eq_of_ofAddress?_status hlocation)
      rw [Session.write_of_some hlocation, Session.fetchesBy_announce,
        Session.fetchesBy_applyWrite _ _ hother.1 hother.2, Session.fetchesBy_runTo h hmid]
  | readStatus time =>
    have hreached := Session.readStatus_time session time
    have hmid : (session.readStatus time).2.chip.time + 0 ≤ stop := hstop
    show (session.readStatus time).2.fetchesBy (stop - 0) = _
    rw [Int.sub_zero]
    exact Session.fetchesBy_readStatus h (by omega) (by omega)
  | runFrame time count =>
    have hle := htime time rfl
    have hmid : (session.endFrame time).chip.time + time ≤ stop := hstop
    rw [Session.endFrame_time hle] at hmid
    exact Session.fetchesBy_endFrame h hle (by omega)
  | reset => exact Bool.noConfusion hleaves
  | _ =>
    show Session.fetchesBy _ (stop - 0) = _
    rw [Int.sub_zero]
    rfl

end Operation

namespace Console

variable {console last : Console} {operations : List Operation} {outcomes : List Outcome}

theorem fetchesBy_performAll (h : console.board.chip.Consistent)
    (hleaves : ∀ operation ∈ operations, operation.leavesSample = true)
    (hrun : console.performAll operations = .ok (outcomes, last)) {stop : Int}
    (hstop : last.board.chip.time + Operation.totalClocks operations ≤ stop) :
    last.board.session.fetchesBy (stop - Operation.totalClocks operations) =
      console.board.session.fetchesBy stop := by
  refine forecast_performAll (fun chip bus stop => Session.fetchesBy { chip, bus } stop)
    (rfl : Operation.leavesSample .reset = false) ?_ h hleaves hrun hstop
  intro session operation stop hchip htime hallowed hstop
  exact Operation.fetchesBy_act session hchip htime hallowed hstop

/-- A run makes the fetches before the clock to which it comes. -/
theorem fetched_performAll (h : console.board.chip.Consistent)
    (hleaves : ∀ operation ∈ operations, operation.leavesSample = true)
    (hrun : console.performAll operations = .ok (outcomes, last)) :
    last.board.bus.fetched.size =
      console.board.session.fetchesBy
        (last.board.chip.time + Operation.totalClocks operations) := by
  have hend := (consistent_performAll h hrun).toSteady
  rw [← fetchesBy_performAll h hleaves hrun (Int.le_refl _), Int.add_sub_cancel]
  exact (Session.fetchesBy_now last.board.session hend).symm

theorem runFrame_accepted (console : Console) {time : Int}
    (h : console.board.chip.time ≤ time ∧ time ≤ console.buffer.frameCapacity) (count : Nat) :
    ∃ outcomes last, console.performAll [.runFrame time count] = .ok (outcomes, last) := by
  have hcheck : console.board.checkTime console.buffer time = .ok () := by
    unfold Board.checkTime
    rw [if_neg (Int.not_lt.mpr h.1), if_neg (Int.not_lt.mpr h.2)]
  let read := (console.ended time).read (min count console.configuration.blockSize)
  have hframe : console.runFrame time count = .ok read := by
    unfold Console.runFrame Board.endFrame
    rw [hcheck]
    rfl
  have hperform : console.perform (.runFrame time count) = .ok (.samples read.1, read.2) := by
    unfold perform
    simp only [hframe]
    rfl
  refine ⟨[.samples read.1], read.2, ?_⟩
  rw [performAll, hperform]
  rfl

/-- The look-ahead to `t` gives the number of fetches that any run to `t` makes, whatever stops it
makes, and the least clock by which they have all been made. -/
theorem countFetches_exact (hreach : Reachable console) {t r : Int} {n : Nat}
    (hlook : console.board.chip.countFetches t = (n, r)) :
    (∀ operations outcomes last, (∀ operation ∈ operations, operation.leavesSample = true) →
      console.performAll operations = .ok (outcomes, last) →
      let now := last.board.chip.time + Operation.totalClocks operations
      let made := last.board.bus.fetched.size - console.board.bus.fetched.size
      console.board.bus.fetched.size ≤ last.board.bus.fetched.size ∧
        (now = t → made = n) ∧
        (0 < n → (now = r → made = n) ∧ (now = r - 1 → made = n - 1) ∧ (now < r → made < n))) ∧
    (0 < n → console.board.chip.time < r ∧ r ≤ t) ∧
    ∀ time, console.board.chip.time ≤ time → time ≤ console.buffer.frameCapacity →
      ∃ outcomes last, console.performAll [.runFrame time 0] = .ok (outcomes, last) := by
  have hstart := hreach.consistent
  have hn := Chip.fetchesBefore_of_countFetches hlook
  have hlast := hstart.toSteady.fetchesBefore_of_last hlook
  refine ⟨?_, ?_, fun time hnow hroom => runFrame_accepted console ⟨hnow, hroom⟩ 0⟩
  · intro operations outcomes last hleaves hrun now made
    have hsize : last.board.bus.fetched.size =
        console.board.bus.fetched.size + console.board.chip.fetchesBefore now :=
      fetched_performAll hstart hleaves hrun
    have hmade : made = console.board.chip.fetchesBefore now := by
      show _ - _ = _
      rw [hsize, Nat.add_sub_cancel_left]
    refine ⟨by omega, ?_, ?_⟩
    · intro hnow
      rw [hmade, hnow, hn]
    · intro hpos
      obtain ⟨hbefore, hafter, _, _⟩ := hlast hpos
      refine ⟨?_, ?_, ?_⟩
      · intro hnow
        rw [hmade, hnow, hafter]
      · intro hnow
        rw [hmade, hnow, hbefore]
      · intro hnow
        have hmono := console.board.chip.fetchesBefore_mono (by omega : now ≤ r - 1)
        omega
  · intro hpos
    obtain ⟨_, _, hnow, hroom⟩ := hlast hpos
    exact ⟨hnow, hroom⟩

/-- The operations that start a sample of 33 bytes at the fastest rate. -/
def sampleStart : List Operation :=
  [.write 0 0x4010 0x0F, .write 0 0x4013 2, .write 3 0x4015 0x10]

/-- After the start of a sample four more fetches are predicted before clock 2000, the last of them
at clock 1728, and that is what a run with a stop at that clock makes. -/
theorem countFetches_exact_of_started_sample :
    ∃ console outcomes last, Reachable console ∧
      console.board.chip.countFetches 2000 = (4, 1729) ∧
      console.performAll [.readStatus 1728, .runFrame 2000 0] = .ok (outcomes, last) ∧
      last.board.bus.fetched.size - console.board.bus.fetched.size = 4 := by
  obtain ⟨first, hcreate, hfacts⟩ := exists_ok
    (Console.create (.unconnected 0) .standard)
    (fun first => (first.performAll sampleStart).toOption.any fun started =>
      started.2.board.chip.countFetches 2000 = (4, 1729) &&
      (started.2.performAll [.readStatus 1728, .runFrame 2000 0]).toOption.any fun result =>
        result.2.board.chip.time = 0)
    (by decide +kernel)
  obtain ⟨⟨_, console⟩, hstart, hfacts⟩ := exists_ok _ _ hfacts
  obtain ⟨hlook, hfacts⟩ := Bool.and_eq_true_iff.mp hfacts
  have hlook := of_decide_eq_true hlook
  obtain ⟨⟨outcomes, last⟩, hrun, htime⟩ := exists_ok _ _ hfacts
  have hreach := Reachable.performAll (.create hcreate) hstart
  refine ⟨console, outcomes, last, hreach, hlook, hrun, ?_⟩
  refine ((countFetches_exact hreach hlook).1 _ outcomes last (by decide) hrun).2.1 ?_
  rw [of_decide_eq_true htime]
  rfl

end Console

end Chiptune
