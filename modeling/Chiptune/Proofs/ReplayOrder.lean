import Chiptune.Proofs.Playback
import Chiptune.Proofs.TimeOrder

/-! The order of the times in a recording.  A recording that was checked has its writes in order and
none after the end of its frame, so no write is early when it is made, and playing stops only at the
first time past the horizon of its frame, be it that of a write or the end (`firstPast`). -/

namespace Chiptune

namespace RecordedFrame

/-- The writes of a frame before the first that lies past a horizon. -/
def inTime (frame : RecordedFrame) (capacity : Nat) : List RegisterWrite :=
  frame.writes.takeWhile (·.time.toNat ≤ capacity)

/-- The first write of a frame that lies past a horizon, and those after it. -/
def late (frame : RecordedFrame) (capacity : Nat) : List RegisterWrite :=
  frame.writes.dropWhile (·.time.toNat ≤ capacity)

/-- The first time of a frame that lies past a horizon, if its end does. -/
def firstPast (frame : RecordedFrame) (capacity : Nat) : Nat :=
  match frame.late capacity with
  | write :: _ => write.time.toNat
  | [] => frame.endTime.toNat

theorem inTime_append_late (frame : RecordedFrame) (capacity : Nat) :
    frame.inTime capacity ++ frame.late capacity = frame.writes :=
  List.takeWhile_append_dropWhile

variable {frame : RecordedFrame} {capacity : Nat}

theorem le_of_mem_inTime {write : RegisterWrite} (h : write ∈ frame.inTime capacity) :
    write.time.toNat ≤ capacity :=
  of_decide_eq_true (List.all_eq_true.mp List.all_takeWhile write h)

theorem lt_of_late {write : RegisterWrite} {rest : List RegisterWrite}
    (h : frame.late capacity = write :: rest) : capacity < write.time.toNat := by
  have hhead := List.head?_dropWhile_not
    (fun write : RegisterWrite => decide (write.time.toNat ≤ capacity)) frame.writes
  have hdrop : frame.writes.dropWhile (fun write => decide (write.time.toNat ≤ capacity)) =
      write :: rest := h
  rw [hdrop] at hhead
  exact Nat.not_le.mp (of_decide_eq_false hhead)

theorem lt_firstPast (h : capacity < frame.endTime.toNat) :
    capacity < frame.firstPast capacity := by
  unfold firstPast
  split
  · rename_i hlate
    exact lt_of_late hlate
  · exact h

/-- A frame that was checked has its writes in order. -/
theorem sorted_of_checkWrites {index : Nat} {endTime last : UInt32} {writes : List RegisterWrite}
    (h : checkWrites index endTime last writes = .ok ()) :
    writes.Pairwise (·.time.toNat ≤ ·.time.toNat) ∧
      ∀ write ∈ writes, last.toNat ≤ write.time.toNat ∧ write.time.toNat ≤ endTime.toNat := by
  induction writes generalizing last with
  | nil => exact ⟨.nil, fun _ hmem => nomatch hmem⟩
  | cons write writes ih =>
    unfold checkWrites at h
    split at h
    · cases h
    · rename_i hearly
      split at h
      · cases h
      · rename_i hlate
        have hfirst := UInt32.le_iff_toNat_le.mp (UInt32.not_lt.mp hearly)
        have hend := UInt32.le_iff_toNat_le.mp (UInt32.not_lt.mp hlate)
        obtain ⟨hsorted, hwithin⟩ := ih h
        refine ⟨.cons (fun later hmem => (hwithin later hmem).1) hsorted, ?_⟩
        intro later hmem
        rcases List.mem_cons.mp hmem with rfl | hmem
        · exact ⟨hfirst, hend⟩
        · exact ⟨Nat.le_trans hfirst (hwithin later hmem).1, (hwithin later hmem).2⟩

end RecordedFrame

namespace Recording

variable {console : Console}

/-! ### Writes -/

/-- A write in time runs the chip no further than its time and leaves the horizon as it is. -/
theorem write_within {write : RegisterWrite} (hnow : console.board.chip.time ≤ write.time.toNat)
    (hcapacity : write.time.toNat ≤ console.buffer.frameCapacity) :
    ∃ next, console.write write.time.toNat write.address write.value = .ok next ∧
      next.board.chip.time ≤ write.time.toNat ∧
      next.buffer.frameCapacity = console.buffer.frameCapacity := by
  have hcheck := Board.checkTime_of_within hnow (Int.ofNat_le.mpr hcapacity)
  let session := console.board.session.write write.time.toNat write.address write.value
  refine ⟨console.absorb session, ?_, ?_, (console.absorb_samePlace session).frameCapacity⟩
  · show Except.map _ (Except.map _ (console.board.checkTime _ _)) = _
    rw [hcheck]
    rfl
  · rw [Console.absorb_chip]
    let operation := Operation.write write.time.toNat write.address write.value
    have hstop := operation.act_time_le console.board.session (Int.natCast_nonneg _) hnow
      fun time htime => Option.some.inj htime ▸ ⟨hnow, Int.le_refl _⟩
    exact hstop

theorem write_past {write : RegisterWrite} (hnow : console.board.chip.time ≤ write.time.toNat)
    (hcapacity : console.buffer.frameCapacity < write.time.toNat) :
    console.write write.time.toNat write.address write.value =
      .error (.frameOverflow write.time.toNat console.buffer.frameCapacity) := by
  show Except.map _ (Except.map _ (console.board.checkTime _ _)) = _
  rw [Board.checkTime_of_late hnow (Int.ofNat_lt.mpr hcapacity)]
  rfl

/-- Writes in order are all made if none lies past the horizon. -/
theorem playWrites_of_within {writes : List RegisterWrite} {bound : Nat}
    (hsorted : writes.Pairwise (·.time.toNat ≤ ·.time.toNat))
    (hwithin : ∀ write ∈ writes,
      console.board.chip.time ≤ write.time.toNat ∧ write.time.toNat ≤ bound)
    (hnow : console.board.chip.time ≤ bound) (hbound : bound ≤ console.buffer.frameCapacity) :
    ∃ written, playWrites console writes = (written, .ok ()) ∧ written.board.chip.time ≤ bound ∧
      written.buffer.frameCapacity = console.buffer.frameCapacity := by
  induction writes generalizing console with
  | nil => exact ⟨console, rfl, hnow, rfl⟩
  | cons write writes ih =>
    obtain ⟨hafter, hrest⟩ := List.pairwise_cons.mp hsorted
    obtain ⟨hstart, hle⟩ := hwithin write (.head _)
    obtain ⟨next, hwrite, htime, hsame⟩ := write_within hstart (Nat.le_trans hle hbound)
    have hlater : ∀ later ∈ writes,
        next.board.chip.time ≤ later.time.toNat ∧ later.time.toNat ≤ bound := by
      intro later hmem
      have hle := hafter later hmem
      exact ⟨by omega, (hwithin later (.tail _ hmem)).2⟩
    obtain ⟨written, hplay, hlast, hcapacity⟩ := ih hrest hlater (by omega) (hsame.symm ▸ hbound)
    refine ⟨written, ?_, hlast, hcapacity.trans hsame⟩
    rw [playWrites, hwrite]
    exact hplay

/-! ### Frames -/

section Frame

variable {frame : RecordedFrame} {index : Nat} (hvalid : frame.validate index = .ok ())
  (htime : console.board.chip.time = 0)
include hvalid htime

/-- A frame that ends within its horizon is played. -/
theorem playFrame_of_within (hcapacity : frame.endTime.toNat ≤ console.buffer.frameCapacity)
    (samples : Array Int16) :
    ∃ next all, playFrame console frame samples = (next, .ok all) ∧ next.board.chip.time = 0 := by
  obtain ⟨hsorted, hwithin⟩ := RecordedFrame.sorted_of_checkWrites hvalid
  obtain ⟨written, hplay, hnow, hsame⟩ := playWrites_of_within hsorted
    (fun write hmem => ⟨htime ▸ Int.natCast_nonneg _, (hwithin write hmem).2⟩)
    (htime ▸ Int.natCast_nonneg _) hcapacity
  have hcheck := Board.checkTime_of_within hnow (Int.ofNat_le.mpr (hsame.symm ▸ hcapacity))
  unfold playFrame
  rw [hplay]
  dsimp only
  rw [Console.runFrame_eq, hcheck]
  refine ⟨_, _, rfl, ?_⟩
  rw [Console.drain_board]
  exact (written.absorb_chip _).symm ▸ Session.endFrame_time hnow

/-- A frame that ends past its horizon is played up to the first time past it. -/
theorem playFrame_of_past (hcapacity : console.buffer.frameCapacity < frame.endTime.toNat)
    (samples : Array Int16) :
    let capacity := console.buffer.frameCapacity
    playFrame console frame samples =
      ((playWrites console (frame.inTime capacity)).1,
        .error (.frameOverflow (frame.firstPast capacity) capacity)) := by
  intro capacity
  obtain ⟨hsorted, _⟩ := RecordedFrame.sorted_of_checkWrites hvalid
  have hzero : ∀ time : Nat, console.board.chip.time ≤ time := fun time =>
    htime ▸ Int.natCast_nonneg _
  have hinTime : (frame.inTime capacity).Pairwise (·.time.toNat ≤ ·.time.toNat) :=
    hsorted.sublist (List.takeWhile_sublist _)
  obtain ⟨written, hplay, hnow, hsame⟩ := playWrites_of_within hinTime
    (fun write hmem => ⟨hzero _, RecordedFrame.le_of_mem_inTime hmem⟩) (hzero capacity)
    (Nat.le_refl capacity)
  unfold playFrame RecordedFrame.firstPast
  rw [← frame.inTime_append_late capacity, playWrites_append, hplay]
  cases hlate : frame.late capacity with
  | nil =>
    have hlate : written.buffer.frameCapacity < frame.endTime.toNat := by omega
    have hcheck := Board.checkTime_of_late (Int.le_trans hnow (by omega)) (Int.ofNat_lt.mpr hlate)
    dsimp only [playWrites]
    rw [Console.runFrame_eq, hcheck, hsame]
    rfl
  | cons write rest =>
    have hpast : written.buffer.frameCapacity < write.time.toNat := by
      rw [hsame]
      exact RecordedFrame.lt_of_late hlate
    have hwrite := write_past (by omega) hpast
    dsimp only [playWrites]
    rw [hwrite, hsame]

end Frame

/-! ### Recordings -/

/-- Every frame ends within the horizon that the console has once the frames before are played. -/
def Fits (console : Console) (samples : Array Int16) (frames : List RecordedFrame) : Prop :=
  ∀ n, (hn : n < frames.length) →
    frames[n].endTime.toNat ≤ (playFrames console samples (frames.take n)).1.buffer.frameCapacity

instance (console : Console) (samples : Array Int16) (frames : List RecordedFrame) :
    Decidable (Fits console samples frames) :=
  inferInstanceAs (Decidable (∀ n, (hn : n < frames.length) → _))

theorem fits_cons {frame : RecordedFrame} {frames : List RecordedFrame} {next : Console}
    {samples all : Array Int16} (hplay : playFrame console frame samples = (next, .ok all)) :
    Fits console samples (frame :: frames) ↔
      frame.endTime.toNat ≤ console.buffer.frameCapacity ∧ Fits next all frames := by
  have hlater (n : Nat) : playFrames console samples ((frame :: frames).take (n + 1)) =
      playFrames next all (frames.take n) := by
    rw [List.take_succ_cons, playFrames, hplay]
  constructor
  · intro h
    refine ⟨h 0 (Nat.succ_pos _), fun n hn => ?_⟩
    have hnext := h (n + 1) (Nat.succ_lt_succ hn)
    rwa [hlater] at hnext
  · rintro ⟨hfirst, hrest⟩ n hn
    cases n with
    | zero => exact hfirst
    | succ n =>
      rw [hlater]
      exact hrest n (Nat.lt_of_succ_lt_succ hn)

theorem checkFrames_cons {index : Nat} {frame : RecordedFrame} {frames : List RecordedFrame}
    (h : checkFrames index (frame :: frames) = .ok ()) :
    frame.validate index = .ok () ∧ checkFrames (index + 1) frames = .ok () := by
  unfold checkFrames at h
  split at h
  · rename_i hframe
    exact ⟨hframe, h⟩
  · cases h

/-- Frames in order are all played, or else up to the first time past the horizon of its frame. -/
theorem playFrames_cases {index : Nat} {frames : List RecordedFrame}
    (hvalid : checkFrames index frames = .ok ()) (htime : console.board.chip.time = 0)
    (samples : Array Int16) :
    (Fits console samples frames ∧
      ∃ last all, playFrames console samples frames = (last, .ok all)) ∨
    ∃ n, ∃ hn : n < frames.length, ∃ mid all,
      playFrames console samples (frames.take n) = (mid, .ok all) ∧
      Fits console samples (frames.take n) ∧
      mid.buffer.frameCapacity < frames[n].endTime.toNat ∧
      playFrames console samples frames =
        ((playWrites mid (frames[n].inTime mid.buffer.frameCapacity)).1,
          .error (.frameOverflow (frames[n].firstPast mid.buffer.frameCapacity)
            mid.buffer.frameCapacity)) := by
  induction frames generalizing console index samples with
  | nil => exact .inl ⟨fun n hn => absurd hn (Nat.not_lt_zero n), console, samples, rfl⟩
  | cons frame frames ih =>
    obtain ⟨hframe, hrest⟩ := checkFrames_cons hvalid
    by_cases hcapacity : frame.endTime.toNat ≤ console.buffer.frameCapacity
    · obtain ⟨next, all, hplay, hzero⟩ := playFrame_of_within hframe htime hcapacity samples
      have hcons (rest : List RecordedFrame) :
          playFrames console samples (frame :: rest) = playFrames next all rest := by
        rw [playFrames, hplay]
      rcases ih hrest hzero all with ⟨hfits, last, all', hlast⟩ |
        ⟨n, hn, mid, all', hmid, hfits, hlate, hstop⟩
      · exact .inl ⟨(fits_cons hplay).mpr ⟨hcapacity, hfits⟩, last, all', (hcons _).trans hlast⟩
      · refine .inr ⟨n + 1, Nat.succ_lt_succ hn, mid, all', ?_, ?_, hlate, ?_⟩
        · rw [List.take_succ_cons, hcons, hmid]
        · rw [List.take_succ_cons, fits_cons hplay]
          exact ⟨hcapacity, hfits⟩
        · rw [hcons, hstop]
          rfl
    · have hlate := Nat.not_le.mp hcapacity
      have hstop := playFrame_of_past hframe htime hlate samples
      refine .inr ⟨0, Nat.succ_pos _, console, samples, rfl, ?_, hlate, ?_⟩
      · exact fun n hn => absurd hn (Nat.not_lt_zero n)
      · rw [playFrames, hstop]
        rfl

/-- A recording that was checked is played to its end if all its frames fit.  Otherwise playing stops
in the first that does not, at its first time past the horizon, with all frames before it played.  No
time is ever early. -/
theorem play_stops_only_past_horizon {recording : Recording} (hvalid : recording.validate = .ok ())
    {console : Console} (htime : console.board.chip.time = 0) :
    (Fits console #[] recording.frames →
      ∃ last samples, recording.play console = (last, .ok samples)) ∧
    (¬Fits console #[] recording.frames →
      ∃ n, ∃ hn : n < recording.frames.length, ∃ mid samples,
        let frame := recording.frames[n]
        let capacity := mid.buffer.frameCapacity
        Recording.play { frames := recording.frames.take n } console = (mid, .ok samples) ∧
        Fits console #[] (recording.frames.take n) ∧
        capacity < frame.endTime.toNat ∧ capacity < frame.firstPast capacity ∧
        recording.play console =
          ((playWrites mid (frame.inTime capacity)).1,
            .error (.frameOverflow (frame.firstPast capacity) capacity))) ∧
    ∀ time now, (recording.play console).2 ≠ .error (.timeRegression time now) := by
  rcases playFrames_cases hvalid htime #[] with ⟨hfits, last, samples, hplay⟩ |
    ⟨n, hn, mid, samples, hmid, hfits, hlate, hstop⟩
  · refine ⟨fun _ => ⟨last, samples, hplay⟩, fun hlate => absurd hfits hlate, ?_⟩
    intro time now herror
    rw [play, hplay] at herror
    cases herror
  · refine ⟨?_, ?_, ?_⟩
    · intro hall
      have hle := hall n hn
      rw [hmid] at hle
      exact absurd hle (Nat.not_le.mpr hlate)
    · exact fun _ =>
        ⟨n, hn, mid, samples, hmid, hfits, hlate, RecordedFrame.lt_firstPast hlate, hstop⟩
    · intro time now herror
      rw [play, hstop] at herror
      cases herror

/-- A frame that fits and one with a write past the horizon. -/
def lateWrite : Recording :=
  { frames := [
      { endTime := 1000, writes := [⟨0, 0x4015, 1⟩, ⟨0, 0x4003, 8⟩, ⟨1000, 0x5000, 0⟩] },
      { endTime := 200000, writes := [⟨10, 0x4000, 0x3F⟩, ⟨170000, 0x4015, 0⟩] }] }

/-- The first frame alone is played; then the write at clock 170000 is past the horizon. -/
theorem play_stops_only_past_horizon_of_late_write :
    ∃ console mid samples,
      Console.create (.unconnected 0) .standard = .ok console ∧
      console.board.chip.time = 0 ∧ lateWrite.validate = .ok () ∧
      Recording.play { frames := lateWrite.frames.take 1 } console = (mid, .ok samples) ∧
      (lateWrite.play console).2 = .error (.frameOverflow 170000 mid.buffer.frameCapacity) := by
  obtain ⟨console, hcreate, hfacts⟩ := exists_ok
    (Console.create (.unconnected 0) .standard)
    (fun console => console.board.chip.time = 0 && console.buffer.frameCapacity = 162338 &&
      (playFrames console #[] (lateWrite.frames.take 1)).1.buffer.frameCapacity = 162312)
    (by decide +kernel)
  simp only [Bool.and_eq_true, decide_eq_true_eq] at hfacts
  obtain ⟨⟨htime, hfirst⟩, hsecond⟩ := hfacts
  have hvalid : lateWrite.validate = .ok () := rfl
  have hlong : ¬Fits console #[] lateWrite.frames := by
    intro hfits
    have hle := hfits 1 (by decide)
    rw [hsecond] at hle
    exact absurd hle (by decide)
  obtain ⟨_, hstops, _⟩ := play_stops_only_past_horizon hvalid htime
  obtain ⟨n, hn, mid, samples, hmid, _, hlate, _, hstop⟩ := hstops hlong
  match n, hn with
  | 0, _ =>
    cases hmid
    rw [hfirst] at hlate
    have hlate : 162338 < 1000 := hlate
    omega
  | 1, _ =>
    have hcapacity : mid.buffer.frameCapacity = 162312 :=
      (congrArg (fun played => played.1.buffer.frameCapacity) hmid).symm.trans hsecond
    refine ⟨console, mid, samples, hcreate, htime, hvalid, hmid, ?_⟩
    rw [hstop, hcapacity]
    rfl

end Recording

end Chiptune
