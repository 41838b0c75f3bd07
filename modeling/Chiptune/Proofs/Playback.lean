import Chiptune.Proofs.Extraction
import Chiptune.Recording

/-! Playing a recording into a console.  Blocks read until none is left are one read of all samples
(`drain_eq`), so the size of a block does not matter (`playFrames_eq`), and a console from which frames
are played copies a master that nobody reads: it hands out the samples that waited and all that the
frames make. -/

namespace Chiptune

/-! ### Reading everything -/

namespace Console

theorem read_of_le {console : Console} {count : Nat} (h : console.buffer.available ≤ count) :
    console.read count = console.read console.buffer.available := by
  have hread : console.buffer.resampler.read count =
      console.buffer.resampler.read console.buffer.resampler.available := by
    have hcount : min count console.buffer.resampler.available =
        console.buffer.resampler.available := Nat.min_eq_right h
    unfold Resampler.read
    rw [hcount, Nat.min_self]
  unfold read StepBuffer.read StepBuffer.available
  rw [hread]

theorem read_add (console : Console) (m n : Nat) :
    console.read (m + n) =
      ((console.read m).1 ++ ((console.read m).2.read n).1, ((console.read m).2.read n).2) := by
  unfold read StepBuffer.read
  rw [Resampler.read_add]

theorem read_zero (console : Console) : console.read 0 = (#[], console) := by
  unfold read StepBuffer.read
  rw [Resampler.read_of_zero (Nat.zero_min _)]

theorem available_read (console : Console) (count : Nat) :
    (console.read count).2.buffer.available =
      console.buffer.available - min count console.buffer.available :=
  console.buffer.available_read count

/-- All samples that wait, and the console without them. -/
def emptied (console : Console) : Array Int16 × Console := console.read console.buffer.available

theorem available_emptied (console : Console) : console.emptied.2.buffer.available = 0 := by
  have havailable := console.available_read console.buffer.available
  rw [Nat.min_self, Nat.sub_self] at havailable
  exact havailable

theorem emptied_of_read (console : Console) (count : Nat) :
    console.emptied = ((console.read count).1 ++ (console.read count).2.emptied.1,
      (console.read count).2.emptied.2) := by
  have havailable := console.available_read count
  have hall := console.read_add count (console.read count).2.buffer.available
  rw [read_of_le (by omega)] at hall
  exact hall

/-- Blocks are read until no sample is left. -/
theorem drain_eq (console : Console) (h : 0 < console.configuration.blockSize)
    (samples : Array Int16) :
    console.drain samples = (samples ++ console.emptied.1, console.emptied.2) := by
  induction console, samples using drain.induct with
  | case1 console samples block rest hread hless ih =>
    have hblock := console.emptied_of_read console.configuration.blockSize
    rw [hread] at hblock
    have hrest : 0 < rest.configuration.blockSize := by
      obtain rfl := congrArg Prod.snd hread
      exact h
    rw [drain, hread]
    simp only [hless, if_true]
    rw [ih hrest, hblock, Array.append_assoc]
  | case2 console samples block rest hread hless =>
    have havailable := console.available_read console.configuration.blockSize
    rw [hread] at havailable
    have hnone : console.buffer.available = 0 := by
      have hrest : rest.buffer.available = console.buffer.available -
        min console.configuration.blockSize console.buffer.available := havailable
      omega
    rw [drain, hread]
    simp only [hless, if_false]
    rw [emptied, hnone, read_zero, Array.append_empty]

theorem runFrame_eq (console : Console) (time : Int) (count : Nat) :
    console.runFrame time count =
      (console.board.checkTime console.buffer time).map fun _ =>
        (console.ended time).read (min count console.configuration.blockSize) := by
  show Except.map _ (Except.map _ _) = _
  cases console.board.checkTime console.buffer time <;> rfl

theorem drain_board (console : Console) (samples : Array Int16) :
    (console.drain samples).2.board = console.board := by
  induction console, samples using drain.induct with
  | case1 console samples block rest hread hless ih =>
    obtain rfl := congrArg Prod.snd hread
    rw [drain, hread]
    simp only [hless, if_true]
    exact ih
  | case2 console samples block rest hread hless =>
    rw [drain, hread]
    simp only [hless, if_false]

theorem write_inBlocks (console : Console) (blockSize : Nat) (time : Int) (address : UInt16)
    (value : UInt8) :
    (console.inBlocks blockSize).write time address value =
      (console.write time address value).map (·.inBlocks blockSize) := by
  show Except.map _ (Except.map _ _) = Except.map _ (Except.map _ (Except.map _ _))
  cases hcheck : console.board.checkTime console.buffer time with
  | error fault =>
    have hcheck' : (console.inBlocks blockSize).board.checkTime (console.inBlocks blockSize).buffer
        time = .error fault := hcheck
    rw [hcheck']
    rfl
  | ok =>
    have hcheck' : (console.inBlocks blockSize).board.checkTime (console.inBlocks blockSize).buffer
        time = .ok () := hcheck
    rw [hcheck']
    rfl

end Console

namespace Recording

variable {console last : Console}

/-! ### Frames -/

/-- Plays a frame and reads all its samples at once. -/
def playWhole (console : Console) (frame : RecordedFrame) (samples : Array Int16) :
    Console × Except Fault (Array Int16) :=
  match playWrites console frame.writes with
  | (console, .error fault) => (console, .error fault)
  | (console, .ok _) =>
    match console.board.checkTime console.buffer frame.endTime.toNat with
    | .error fault => (console, .error fault)
    | .ok _ =>
      let all := (console.ended frame.endTime.toNat).emptied
      (all.2, .ok (samples ++ all.1))

theorem playWrites_configuration (console : Console) (writes : List RegisterWrite) :
    (playWrites console writes).1.configuration = console.configuration := by
  induction writes generalizing console with
  | nil => rfl
  | cons write writes ih =>
    unfold playWrites
    split
    · rename_i next hwrite
      obtain ⟨_, rfl⟩ := Console.write_ok hwrite
      exact ih _
    · rfl

theorem playWhole_configuration (console : Console) (frame : RecordedFrame)
    (samples : Array Int16) :
    (playWhole console frame samples).1.configuration = console.configuration := by
  have hwrites := playWrites_configuration console frame.writes
  unfold playWhole
  split
  · rename_i hplay
    rwa [hplay] at hwrites
  · rename_i hplay
    rw [hplay] at hwrites
    split <;> exact hwrites

theorem playFrame_eq (h : 0 < console.configuration.blockSize) (frame : RecordedFrame)
    (samples : Array Int16) :
    playFrame console frame samples = playWhole console frame samples := by
  have hwrites := playWrites_configuration console frame.writes
  unfold playFrame playWhole
  cases hplay : playWrites console frame.writes with
  | mk written result =>
    rw [hplay] at hwrites
    rw [← hwrites] at h
    cases result with
    | error fault => rfl
    | ok =>
      dsimp only
      rw [Console.runFrame_eq]
      cases written.board.checkTime written.buffer frame.endTime.toNat with
      | error fault => rfl
      | ok =>
        let count := min written.configuration.blockSize written.configuration.blockSize
        let first := (written.ended frame.endTime.toNat).read count
        have hall := (written.ended frame.endTime.toNat).emptied_of_read count
        have hdrain := first.2.drain_eq h (samples ++ first.1)
        simp only [Except.map, hall, ← Array.append_assoc]
        exact congrArg (fun drained => (drained.2, Except.ok drained.1)) hdrain

/-- Plays frames, each with all its samples read at once. -/
def playWholes (console : Console) (samples : Array Int16) :
    List RecordedFrame → Console × Except Fault (Array Int16)
  | [] => (console, .ok samples)
  | frame :: rest =>
    match playWhole console frame samples with
    | (console, .ok samples) => playWholes console samples rest
    | (console, .error fault) => (console, .error fault)

theorem playWholes_configuration (console : Console) (samples : Array Int16)
    (frames : List RecordedFrame) :
    (playWholes console samples frames).1.configuration = console.configuration := by
  induction frames generalizing console samples with
  | nil => rfl
  | cons frame frames ih =>
    have hnext := playWhole_configuration console frame samples
    unfold playWholes
    split
    · rename_i next samples hplay
      rw [hplay] at hnext
      exact (ih next samples).trans hnext
    · rename_i hplay
      rwa [hplay] at hnext

/-- Blocks are read until none is left, so each frame is read as a whole. -/
theorem playFrames_eq (h : 0 < console.configuration.blockSize) (samples : Array Int16)
    (frames : List RecordedFrame) :
    playFrames console samples frames = playWholes console samples frames := by
  induction frames generalizing console samples with
  | nil => rfl
  | cons frame frames ih =>
    have hnext := playWhole_configuration console frame samples
    rw [playFrames, playWholes, playFrame_eq h]
    cases hplay : playWhole console frame samples with
    | mk next result =>
      rw [hplay] at hnext
      cases result with
      | error fault => rfl
      | ok samples => exact ih (hnext.symm ▸ h) samples

/-! ### The size of a block -/

theorem playWrites_inBlocks (console : Console) (blockSize : Nat) (writes : List RegisterWrite) :
    playWrites (console.inBlocks blockSize) writes =
      ((playWrites console writes).1.inBlocks blockSize, (playWrites console writes).2) := by
  induction writes generalizing console with
  | nil => rfl
  | cons write writes ih =>
    unfold playWrites
    rw [Console.write_inBlocks]
    cases console.write write.time.toNat write.address write.value with
    | error fault => rfl
    | ok next => exact ih next

theorem playWhole_inBlocks (console : Console) (blockSize : Nat) (frame : RecordedFrame)
    (samples : Array Int16) :
    playWhole (console.inBlocks blockSize) frame samples =
      ((playWhole console frame samples).1.inBlocks blockSize,
        (playWhole console frame samples).2) := by
  unfold playWhole
  rw [playWrites_inBlocks]
  obtain ⟨written, result⟩ := playWrites console frame.writes
  cases result with
  | error fault => rfl
  | ok =>
    -- Neither the check nor the end of the frame looks at the size of a block.
    have hcheck (time : Int) :
        (written.inBlocks blockSize).board.checkTime (written.inBlocks blockSize).buffer time =
          written.board.checkTime written.buffer time := rfl
    dsimp only
    rw [hcheck]
    cases written.board.checkTime written.buffer frame.endTime.toNat <;> rfl

theorem playWholes_inBlocks (console : Console) (blockSize : Nat) (samples : Array Int16)
    (frames : List RecordedFrame) :
    playWholes (console.inBlocks blockSize) samples frames =
      ((playWholes console samples frames).1.inBlocks blockSize,
        (playWholes console samples frames).2) := by
  induction frames generalizing console samples with
  | nil => rfl
  | cons frame frames ih =>
    unfold playWholes
    rw [playWhole_inBlocks]
    obtain ⟨next, result⟩ := playWhole console frame samples
    cases result with
    | error fault => rfl
    | ok samples => exact ih next samples

/-! ### One recording after the other -/

theorem playWrites_append (console : Console) (writes writes' : List RegisterWrite) :
    playWrites console (writes ++ writes') =
      match playWrites console writes with
      | (mid, .ok _) => playWrites mid writes'
      | (mid, .error fault) => (mid, .error fault) := by
  induction writes generalizing console with
  | nil => rfl
  | cons write writes ih =>
    rw [List.cons_append, playWrites, playWrites]
    cases console.write write.time.toNat write.address write.value with
    | error fault => rfl
    | ok next => exact ih next

theorem playWholes_append (console : Console) (samples : Array Int16)
    (frames frames' : List RecordedFrame) :
    playWholes console samples (frames ++ frames') =
      match playWholes console samples frames with
      | (mid, .ok samples) => playWholes mid samples frames'
      | (mid, .error fault) => (mid, .error fault) := by
  induction frames generalizing console samples with
  | nil => rfl
  | cons frame frames ih =>
    rw [List.cons_append, playWholes, playWholes]
    obtain ⟨next, result⟩ := playWhole console frame samples
    cases result with
    | error fault => rfl
    | ok samples => exact ih next samples

theorem playWhole_samples (console : Console) (frame : RecordedFrame)
    (first samples : Array Int16) :
    playWhole console frame (first ++ samples) =
      ((playWhole console frame samples).1,
        (playWhole console frame samples).2.map (first ++ ·)) := by
  unfold playWhole
  split
  · rfl
  · split
    · rfl
    · simp only [Except.map, Array.append_assoc]

/-- What was played before is handed out first and changes nothing else. -/
theorem playWholes_samples (console : Console) (first samples : Array Int16)
    (frames : List RecordedFrame) :
    playWholes console (first ++ samples) frames =
      ((playWholes console samples frames).1,
        (playWholes console samples frames).2.map (first ++ ·)) := by
  induction frames generalizing console samples with
  | nil => rfl
  | cons frame frames ih =>
    rw [playWholes, playWholes, playWhole_samples]
    obtain ⟨next, result⟩ := playWhole console frame samples
    cases result with
    | error fault => rfl
    | ok samples => exact ih next samples

end Recording

/-! ### What is handed out -/

/-- The write that a recording holds. -/
def RegisterWrite.operation (write : RegisterWrite) : Operation :=
  .write write.time.toNat write.address write.value

/-- What a frame asks of a console from which nobody reads. -/
def RecordedFrame.operations (frame : RecordedFrame) : List Operation :=
  frame.writes.map RegisterWrite.operation ++ [.runFrame frame.endTime.toNat 0]

/-- What a recording asks of a console from which nobody reads. -/
def Recording.operations (recording : Recording) : List Operation :=
  recording.frames.flatMap RecordedFrame.operations

theorem Master.performAll_append (master : Master) (operations operations' : List Operation) :
    master.performAll (operations ++ operations') =
      (master.performAll operations).performAll operations' :=
  List.foldl_append

namespace Console.Copies

variable {master : Master} {samples : List Int16} {console last : Console}
  (h : Copies master samples console)
include h

theorem playWrites {writes : List RegisterWrite}
    (hplay : Recording.playWrites console writes = (last, .ok ())) :
    Copies (master.performAll (writes.map RegisterWrite.operation)) samples last := by
  induction writes generalizing master console with
  | nil =>
    cases hplay
    exact h
  | cons write writes ih =>
    unfold Recording.playWrites at hplay
    split at hplay
    · rename_i next hwrite
      have hperform : console.perform write.operation = .ok (.done, next) :=
        congrArg (Except.map (Outcome.done, ·)) hwrite
      have hspares : console.Spares write.operation := trivial
      have hnext := h.perform Operation.noConfusion hspares hperform
      have hnone : samples ++ Outcome.done.taken = samples := List.append_nil samples
      rw [hnone] at hnext
      exact ih hnext hplay
    · cases hplay

theorem ended {time : Int} (hcheck : console.board.checkTime console.buffer time = .ok ()) :
    Copies (master.perform (.runFrame time 0)) samples (console.ended time) := by
  have hperform : console.perform (.runFrame time 0) = .ok (.samples #[], console.ended time) := by
    rw [perform_runFrame, hcheck, Nat.zero_min, read_zero]
    rfl
  have hspares : console.Spares (.runFrame time 0) := trivial
  have hnext := h.perform Operation.noConfusion hspares hperform
  rwa [Outcome.taken, Array.toList_empty, List.append_nil] at hnext

/-- At the start of a frame no step waits past what a read keeps. -/
theorem emptied (htime : console.board.chip.time = 0) :
    Copies master (samples ++ console.emptied.1.toList) console.emptied.2 := by
  have hmargin : console.buffer.resampler.WithinMargin := by
    obtain ⟨_, _, _, _, hbalanced⟩ := h.balanced
    have hoffset : console.buffer.resampler.offset < Resampler.unit := hbalanced.offset_lt
    refine h.emptyPast.withinMargin ?_
    unfold Resampler.position
    rw [htime, Int.toNat_zero, Nat.zero_mul]
    omega
  have hperform : console.perform (.read console.buffer.available) =
      .ok (.samples console.emptied.1, console.emptied.2) := rfl
  have hspares : console.Spares (.read console.buffer.available) := Or.inr hmargin
  have hnext := h.perform Operation.noConfusion hspares hperform
  rwa [master.perform_of_isRead rfl] at hnext

theorem playWhole {frame : RecordedFrame} {first all : Array Int16} (hfirst : samples = first.toList)
    (hplay : Recording.playWhole console frame first = (last, .ok all)) :
    Copies (master.performAll frame.operations) all.toList last := by
  unfold Recording.playWhole at hplay
  split at hplay
  · cases hplay
  · rename_i written _ hwrites
    have hwritten := h.playWrites hwrites
    split at hplay
    · cases hplay
    · rename_i hcheck
      cases hplay
      have hzero : (written.ended frame.endTime.toNat).board.chip.time = 0 := by
        obtain ⟨hnow, _⟩ := Board.checkTime_ok hcheck
        exact (written.absorb_chip _).symm ▸ Session.endFrame_time hnow
      have hall := (hwritten.ended hcheck).emptied hzero
      rw [RecordedFrame.operations, Master.performAll_append, Array.toList_append, ← hfirst]
      exact hall

theorem playWholes {frames : List RecordedFrame} {first all : Array Int16}
    (hfirst : samples = first.toList)
    (hplay : Recording.playWholes console first frames = (last, .ok all)) :
    Copies (master.performAll (frames.flatMap RecordedFrame.operations)) all.toList last := by
  induction frames generalizing master samples console first with
  | nil =>
    cases hplay
    rw [← hfirst]
    exact h
  | cons frame frames ih =>
    unfold Recording.playWholes at hplay
    split at hplay
    · rename_i next all' hframe
      rw [List.flatMap_cons, Master.performAll_append]
      exact ih (h.playWhole hfirst hframe) rfl hplay
    · cases hplay

end Console.Copies

/-! ### How much is handed out -/

namespace Resampler

theorem addAll_place (r : Resampler) (deliveries : List Delivery) :
    (r.addAll deliveries).elapsed = r.elapsed ∧ (r.addAll deliveries).factor = r.factor := by
  induction deliveries generalizing r with
  | nil => exact ⟨rfl, rfl⟩
  | cons delivery deliveries ih =>
    obtain ⟨helapsed, hfactor⟩ := ih (r.add delivery.time.toNat (Int32.ofInt delivery.units))
    rw [addAll_cons, helapsed, hfactor, add_factor]
    refine ⟨?_, rfl⟩
    unfold elapsed
    rw [add_available, add_offset]

theorem elapsed_played (board : Board) (r : Resampler) {operation : Operation}
    (hreset : operation ≠ .reset) :
    (board.played r operation).elapsed = r.elapsed + operation.clocks.toNat * r.factor ∧
      (board.played r operation).factor = r.factor := by
  obtain ⟨helapsed, hfactor⟩ := r.addAll_place (board.puts operation)
  have hstay : (r.addAll (board.puts operation)).elapsed = r.elapsed + (0 : Int).toNat * r.factor := by
    rw [helapsed, Int.toNat_zero, Nat.zero_mul, Nat.add_zero]
  cases operation with
  | runFrame time count =>
    refine ⟨?_, hfactor⟩
    show (Resampler.endFrame _ time.toNat).elapsed = r.elapsed + time.toNat * r.factor
    rw [elapsed_endFrame, helapsed, hfactor]
  | reset => exact absurd rfl hreset
  | _ => exact ⟨hstay, hfactor⟩

/-- The resampler after all its samples were taken out, with every step kept. -/
def past (r : Resampler) : Resampler :=
  { r with
    available := 0
    sum := carry r.cell r.sum r.available
    cells := r.cells.extract r.available r.cells.size }

theorem left_past (r : Resampler) : Left r (r.read r.available).1.toList r.past := by
  have hlength : (r.read r.available).1.toList.length = r.available := by
    rw [read_fst, length_render, Nat.min_self]
  refine ⟨rfl, rfl, hlength, ?_, ?_, ?_⟩
  · rw [hlength, read_fst, Nat.min_self]
  · rw [hlength]
    rfl
  · intro i
    rw [hlength]
    simp only [cell, past, Array.getD_eq_getD_getElem?, Array.getElem?_extract]
    split
    · rfl
    · rw [Array.getElem?_eq_none (by omega)]

theorem Left.isPrefix {whole r : Resampler} {samples : List Int16} (h : Left whole samples r) :
    samples <+: render whole.cell whole.sum whole.available := by
  rw [h.handed, ← h.available, render_add, ← h.handed]
  exact List.prefix_append ..

end Resampler

/-- The clocks of the frames that operations end. -/
def Operation.frameClocks : List Operation → Nat
  | [] => 0
  | operation :: operations => operation.clocks.toNat + frameClocks operations

theorem Operation.frameClocks_append (operations later : List Operation) :
    frameClocks (operations ++ later) = frameClocks operations + frameClocks later := by
  induction operations with
  | nil => exact (Nat.zero_add _).symm
  | cons operation operations ih =>
    rw [List.cons_append, frameClocks, frameClocks, ih, Nat.add_assoc]

namespace Master

variable (master : Master) {operations : List Operation} (hreset : .reset ∉ operations)
include hreset

theorem elapsed_performAll :
    (master.performAll operations).whole.elapsed =
        master.whole.elapsed + Operation.frameClocks operations * master.whole.factor ∧
      (master.performAll operations).whole.factor = master.whole.factor := by
  induction operations generalizing master with
  | nil =>
    refine ⟨?_, rfl⟩
    rw [Operation.frameClocks, Nat.zero_mul, Nat.add_zero]
    rfl
  | cons operation operations ih =>
    obtain ⟨hfirst, hfactor⟩ :=
      Resampler.elapsed_played master.board master.whole (fun h => hreset (h ▸ .head _))
    obtain ⟨hrest, hsame⟩ := ih (master.perform operation) fun h => hreset (.tail _ h)
    have hcons : master.performAll (operation :: operations) =
        (master.perform operation).performAll operations := rfl
    rw [hcons]
    refine ⟨?_, hsame.trans hfactor⟩
    calc ((master.perform operation).performAll operations).whole.elapsed
        = (master.perform operation).whole.elapsed +
            Operation.frameClocks operations * (master.perform operation).whole.factor := hrest
      _ = master.whole.elapsed + operation.clocks.toNat * master.whole.factor +
            Operation.frameClocks operations * master.whole.factor :=
          congr (congrArg (· + ·) hfirst) (congrArg (_ * ·) hfactor)
      _ = master.whole.elapsed +
            Operation.frameClocks (operation :: operations) * master.whole.factor := by
          rw [Operation.frameClocks, Nat.add_mul, Nat.add_assoc]

/-- Samples that were handed out stay the first ones that the master makes. -/
theorem left_performAll {samples : List Int16} {r : Resampler}
    (h : Resampler.Left master.whole samples r) :
    ∃ r', Resampler.Left (master.performAll operations).whole samples r' := by
  induction operations generalizing master r with
  | nil => exact ⟨r, h⟩
  | cons operation operations ih =>
    have hfirst : operation ≠ .reset := fun heq => hreset (heq ▸ .head _)
    exact ih (master.perform operation) (fun hmem => hreset (.tail _ hmem))
      (h.played hfirst master.board)

end Master

namespace Recording

theorem reset_not_mem_operations (recording : Recording) : .reset ∉ recording.operations := by
  simp [operations, RecordedFrame.operations, RegisterWrite.operation]

theorem frameClocks_frame (frame : RecordedFrame) :
    Operation.frameClocks frame.operations = frame.endTime.toNat := by
  unfold RecordedFrame.operations
  induction frame.writes with
  | nil => exact Nat.add_zero _
  | cons write writes ih => exact (Nat.zero_add _).trans ih

theorem frameClocks_operations (recording : Recording) :
    Operation.frameClocks recording.operations = recording.totalClocks := by
  have hfold (start : Nat) (frames : List RecordedFrame) :
      frames.foldl (fun clocks frame => clocks + frame.endTime.toNat) start =
        start + Operation.frameClocks (frames.flatMap RecordedFrame.operations) := by
    induction frames generalizing start with
    | nil => rfl
    | cons frame frames ih =>
      rw [List.foldl_cons, ih, List.flatMap_cons, Operation.frameClocks_append, frameClocks_frame,
        Nat.add_assoc]
  rw [totalClocks, hfold, Nat.zero_add, operations]

/-- Nothing waits after a frame was played. -/
theorem available_playWholes {console last : Console} {frames : List RecordedFrame}
    (hsome : frames ≠ [] ∨ console.buffer.available = 0) {first all : Array Int16}
    (hplay : playWholes console first frames = (last, .ok all)) : last.buffer.available = 0 := by
  induction frames generalizing console first with
  | nil =>
    cases hplay
    exact hsome.resolve_left (not_not_intro rfl)
  | cons frame frames ih =>
    unfold playWholes at hplay
    split at hplay
    · rename_i next _ hframe
      refine ih (.inr ?_) hplay
      unfold playWhole at hframe
      split at hframe
      · cases hframe
      · split at hframe
        · cases hframe
        · cases hframe
          exact Console.available_emptied _
    · cases hplay

/-- A recording of at least one frame hands out all samples that wait and all that its frames make,
as many as their clocks make.  The size of a block does not matter, and recordings may be played one
after the other as well as in one. -/
theorem play_hands_out_all {console : Console} (h : Console.Reachable console)
    (hblock : 0 < console.configuration.blockSize) (recording : Recording) :
    (∀ blockSize, 0 < blockSize →
      recording.play (console.inBlocks blockSize) =
        ((recording.play console).1.inBlocks blockSize, (recording.play console).2)) ∧
    (recording.frames = [] → recording.play console = (console, .ok #[])) ∧
    (∀ last samples, recording.frames ≠ [] → recording.play console = (last, .ok samples) →
      let master : Master := { board := console.board, whole := console.buffer.resampler }
      let whole := (master.performAll recording.operations).whole
      last.buffer.available = 0 ∧
      samples.toList = Resampler.render whole.cell whole.sum whole.available ∧
      console.waiting <+: samples.toList ∧
      samples.size = console.buffer.available +
        (recording.totalClocks * console.buffer.resampler.factor +
          console.buffer.resampler.offset) / Resampler.unit) ∧
    ∀ later : Recording,
      Recording.play { frames := recording.frames ++ later.frames } console =
        match recording.play console with
        | (mid, .error fault) => (mid, .error fault)
        | (mid, .ok samples) => ((later.play mid).1, (later.play mid).2.map (samples ++ ·)) := by
  refine ⟨fun blockSize hblocks => ?_, fun hnone => ?_, ?_, fun later => ?_⟩
  · have hsmall : 0 < (console.inBlocks blockSize).configuration.blockSize := hblocks
    rw [play, play, playFrames_eq hsmall, playFrames_eq hblock, playWholes_inBlocks]
  · rw [play, hnone]
    rfl
  · intro last samples hsome hplay master whole
    rw [play, playFrames_eq hblock] at hplay
    have hstart : Console.Copies master [] console := h.copies console.configuration.blockSize
    have hlast : Console.Copies (master.performAll recording.operations) samples.toList last :=
      hstart.playWholes rfl hplay
    have hempty : last.buffer.available = 0 := available_playWholes (.inl hsome) hplay
    have hcount : samples.toList.length = whole.available := by
      have havailable : samples.toList.length + last.buffer.available = whole.available :=
        hlast.left.available
      omega
    have hhanded := hlast.left.handed
    rw [hcount] at hhanded
    refine ⟨hempty, hhanded, ?_, ?_⟩
    · obtain ⟨_, hwaiting⟩ := master.left_performAll recording.reset_not_mem_operations
        master.whole.left_past
      rw [hhanded]
      exact hwaiting.isPrefix
    · obtain ⟨_, _, _, _, hbalanced⟩ := hlast.balanced
      have hoffset : whole.offset < Resampler.unit :=
        Nat.lt_of_le_of_lt (Nat.le_of_eq hlast.left.offset.symm) hbalanced.offset_lt
      have helapsed : whole.elapsed = console.buffer.resampler.available * Resampler.unit +
          console.buffer.resampler.offset +
            recording.totalClocks * console.buffer.resampler.factor := by
        rw [← recording.frameClocks_operations]
        exact (master.elapsed_performAll recording.reset_not_mem_operations).1
      rw [← Array.length_toList, hcount, Resampler.available_eq_div hoffset, helapsed,
        Nat.add_assoc, Nat.mul_comm _ Resampler.unit, Nat.mul_add_div Resampler.unit_pos,
        Nat.add_comm console.buffer.resampler.offset]
      rfl
  · have hconfiguration := playWholes_configuration console #[] recording.frames
    unfold play
    rw [playFrames_eq hblock, playFrames_eq hblock, playWholes_append]
    cases hplay : playWholes console #[] recording.frames with
    | mk mid result =>
      rw [hplay] at hconfiguration
      cases result with
      | error fault => rfl
      | ok samples =>
        have hmid : 0 < mid.configuration.blockSize := hconfiguration.symm ▸ hblock
        dsimp only
        rw [playFrames_eq hmid]
        exact playWholes_samples mid samples #[] later.frames

/-- A level in the first of two frames. -/
def oneLevel : Recording :=
  { frames := [{ endTime := 1000, writes := [⟨10, 0x4011, 100⟩] }, { endTime := 500 }] }

/-- A console with samples that wait plays two frames; blocks of three samples make no difference. -/
theorem play_hands_out_all_of_one_level :
    ∃ console outcome next last samples,
      Console.create (.unconnected 0) .standard = .ok console ∧
      console.perform (.runFrame 1000 0) = .ok (outcome, next) ∧
      next.waiting.length = 24 ∧ 0 < next.configuration.blockSize ∧
      oneLevel.play next = (last, .ok samples) ∧
      oneLevel.play (next.inBlocks 3) = (last.inBlocks 3, .ok samples) ∧
      next.waiting <+: samples.toList ∧ samples.size = 24 + 37 ∧ last.buffer.available = 0 := by
  obtain ⟨console, hcreate, hfacts⟩ := exists_ok
    (Console.create (.unconnected 0) .standard)
    (fun console => (console.perform (.runFrame 1000 0)).toOption.any fun ran =>
      ran.2.buffer.available = 24 && 0 < ran.2.configuration.blockSize &&
        (oneLevel.totalClocks * ran.2.buffer.resampler.factor + ran.2.buffer.resampler.offset) /
          Resampler.unit = 37 &&
        (oneLevel.play ran.2).2.toOption.isSome)
    (by decide +kernel)
  obtain ⟨⟨outcome, next⟩, hperform, hfacts⟩ := exists_ok _ _ hfacts
  simp only [Bool.and_eq_true, decide_eq_true_eq] at hfacts
  obtain ⟨⟨⟨hwaiting, hblock⟩, hmade⟩, hsome⟩ := hfacts
  obtain ⟨samples, hsamples, _⟩ := exists_ok (oneLevel.play next).2 (fun _ => true) hsome
  have hplay : oneLevel.play next = ((oneLevel.play next).1, .ok samples) :=
    Prod.ext rfl hsamples
  have hreach : Console.Reachable next := (Console.Reachable.create hcreate).perform hperform
  obtain ⟨hblocks, _, hall, _⟩ := play_hands_out_all hreach hblock oneLevel
  obtain ⟨hempty, _, hfirst, hsize⟩ := hall _ samples (by decide) hplay
  rw [hwaiting, hmade] at hsize
  have hthree := hblocks 3 (by decide)
  rw [hsamples] at hthree
  have hlength : next.waiting.length = 24 := by
    rw [Console.waiting, Array.length_toList, StepBuffer.size_read, Nat.min_self, hwaiting]
  exact ⟨console, outcome, next, _, samples, hcreate, hperform, hlength, hblock, hplay, hthree,
    hfirst, hsize, hempty⟩

/-- Samples wait, and a recording without frames hands out none of them. -/
theorem waiting_kept_without_frames :
    ∃ console outcome next,
      Console.create (.unconnected 0) .standard = .ok console ∧
      console.perform (.runFrame 1000 0) = .ok (outcome, next) ∧
      0 < next.configuration.blockSize ∧
      Recording.play {} next = (next, .ok #[]) ∧ next.buffer.available = 24 := by
  obtain ⟨console, hcreate, hfacts⟩ := exists_ok
    (Console.create (.unconnected 0) .standard)
    (fun console => (console.perform (.runFrame 1000 0)).toOption.any fun ran =>
      0 < ran.2.configuration.blockSize && ran.2.buffer.available = 24)
    (by decide +kernel)
  obtain ⟨⟨outcome, next⟩, hperform, hfacts⟩ := exists_ok _ _ hfacts
  obtain ⟨hblock, havailable⟩ := Bool.and_eq_true_iff.mp hfacts
  exact ⟨console, outcome, next, hcreate, hperform, of_decide_eq_true hblock, rfl,
    of_decide_eq_true havailable⟩

end Recording

end Chiptune
