import Chiptune.Proofs.Tape

/-! Where frames end cannot be heard.  A console that plays frames is compared with one session
that has no frames at all: it makes the same writes at their clocks from the start of the first
frame on and stops nowhere else.  The console `Follows` the session if it has the session's chip
and bus, seen from its own frame, and plays the tape of the session's steps.  So two ways of
cutting the same writes into frames give the same samples, the same fetches and the same chip. -/

namespace Chiptune

/-! ### Frames -/

/-- A write to a register at a clock. -/
structure TimedWrite where
  time : Int
  address : UInt16
  value : UInt8

namespace TimedWrite

/-- The operation that makes a write. -/
def operation (write : TimedWrite) : Operation :=
  .write write.time write.address write.value

/-- A write of a frame that starts at `origin`, timed from clock zero. -/
def since (origin : Int) (write : TimedWrite) : TimedWrite :=
  { write with time := origin + write.time }

end TimedWrite

/-- What a host asks for in one frame: writes, the end of the frame, at which up to `count` samples
are taken, and reads after it. -/
structure Frame where
  writes : List TimedWrite
  stop : Int
  count : Nat
  reads : List Nat

namespace Frame

/-- The operations of a frame. -/
def operations (frame : Frame) : List Operation :=
  frame.writes.map TimedWrite.operation ++
    .runFrame frame.stop frame.count :: frame.reads.map .read

/-- The writes of frames of which the first starts at `origin`, timed from clock zero. -/
def score (origin : Int) : List Frame → List TimedWrite
  | [] => []
  | frame :: frames =>
    frame.writes.map (.since origin) ++ score (origin + frame.stop) frames

/-- The clocks of frames. -/
def span : List Frame → Int
  | [] => 0
  | frame :: frames => frame.stop + span frames

/-- The frames cut `clocks` clocks with the given writes. -/
structure Cuts (writes : List TimedWrite) (clocks : Int) (frames : List Frame) : Prop where
  score : score 0 frames = writes
  span : span frames = clocks

end Frame

/-! ### The session without frames -/

namespace Session

/-- Makes writes one after the other. -/
def writeAll (session : Session) (writes : List TimedWrite) : Session :=
  writes.foldl (fun session write => session.write write.time write.address write.value) session

theorem writeAll_append (session : Session) (writes writes' : List TimedWrite) :
    session.writeAll (writes ++ writes') = (session.writeAll writes).writeAll writes' :=
  List.foldl_append

/-- The steps of each channel. -/
def tracks (session : Session) (channel : Channel) : List Step :=
  ChannelStep.track channel session.steps

theorem tracks_runTo (session : Session) {mid stop : Int} (h : mid ≤ stop) (channel : Channel) :
    (session.runTo stop).tracks channel =
      (session.runTo mid).tracks channel ++ (session.runTo mid).emits stop channel := by
  unfold tracks
  rw [track_runTo, track_runTo, (session.runTo_runTo h).2.2, List.append_assoc]

end Session

/-- The console has the chip and the bus of a session without frames, seen from a frame that starts
at `origin`, it has handed out `samples`, and they and what its cells hold are the tape of the
session's steps. -/
structure Console.Follows (mix : Mix) (factor : Nat) (whole : Session) (origin : Int)
    (samples : List Int16) (console : Console) : Prop where
  balanced : Account.Balanced factor { console, clocks := origin, handed := samples.length }
  mix_eq : console.board.mix = mix
  unmuted : ∀ channel, console.board.muted.get channel = false
  consistent : whole.chip.Consistent
  past : whole.chip.time ≤ origin + console.board.chip.time
  within : whole.Within (origin + console.board.chip.time)
  same : Session.SameFrom origin (whole.runTo (origin + console.board.chip.time))
    console.board.session
  plays : console.buffer.resampler.Plays
    (mix.tape factor (whole.runTo (origin + console.board.chip.time)).tracks) samples

namespace Console

section Follows

variable {mix : Mix} {factor : Nat} {whole : Session} {origin : Int} {samples : List Int16}
  {console : Console} (h : console.Follows mix factor whole origin samples)
include h

theorem Follows.samples_le :
    samples.length + console.buffer.resampler.available =
      (origin.toNat * factor + factor / 2) / Resampler.unit :=
  h.balanced.samples

/-- A run of the console keeps its chip and bus those of the session. -/
theorem Follows.sameFrom_runTo {time : Int} (hnow : console.board.chip.time ≤ time) :
    Session.SameFrom origin (whole.runTo (origin + time)) (console.board.session.runTo time) := by
  have hmid : origin + console.board.chip.time ≤ origin + time := by omega
  have htime : origin + time - origin = time := by omega
  obtain ⟨hchip, hbus, _⟩ := whole.runTo_runTo hmid
  have hran := h.same.runTo (origin + time)
  rw [htime] at hran
  constructor
  · rw [hran.chip, hchip]
  · rw [hran.bus, hbus]

/-- The steps of a run go to the tape past the samples that were handed out. -/
theorem Follows.plays_absorb {time : Int} (hnow : console.board.chip.time ≤ time)
    {session : Session} (hsteps : session.steps = (console.board.session.runTo time).steps)
    (hwithin : session.Within console.buffer.frameCapacity) :
    (console.absorb session).buffer.resampler.Plays
      (mix.tape factor (whole.runTo (origin + time)).tracks) samples := by
  have hmid : origin + console.board.chip.time ≤ origin + time := by omega
  have htime : origin + time - origin = time := by omega
  have hzero : 0 ≤ console.board.chip.time := h.balanced.chip.time_nonneg
  have horigin : 0 ≤ origin := h.balanced.clocks_nonneg
  have hfactor : console.buffer.resampler.factor = factor := h.balanced.factor_eq
  have hposition : samples.length * Resampler.unit + console.buffer.resampler.elapsed =
      origin.toNat * factor + factor / 2 := h.balanced.position
  have hsamples := h.samples_le
  have hconsistent := Session.consistent_runTo h.consistent (origin + console.board.chip.time)
  have hreached := whole.runTo_time (origin + console.board.chip.time)
  have htracks := whole.tracks_runTo hmid
  have hemits := h.same.emits (origin + time)
  have htape := h.plays
  generalize whole.runTo (origin + console.board.chip.time) = heard at *
  rw [htime] at hemits
  -- No new step comes before the start of the frame.
  have hlate (channel : Channel) (step : Step)
      (hstep : step ∈ heard.emits (origin + time) channel) : origin ≤ step.time := by
    have hbounds := Session.time_of_mem_emits hconsistent.toSteady hstep
    have hpast := h.past
    omega
  have hsum (n : Nat) : mix.tape factor (whole.runTo (origin + time)).tracks n =
      mix.tape factor heard.tracks n + mix.tape factor (heard.emits (origin + time)) n := by
    rw [← mix.tape_append, funext htracks]
  -- The steps of the console are those of the session, seen from the frame.
  have htrack (channel : Channel) : ChannelStep.track channel session.steps =
      (heard.emits (origin + time) channel).map (Step.rebase origin) := by
    rw [hsteps, Session.track_runTo, ← hemits]
    rfl
  obtain ⟨hkeep, hcells⟩ := console.board.conclude_cells h.unmuted hwithin
  refine htape.extend ?_ hkeep ?_
  · intro n hn
    rw [hsum, mix.tape_eq_zero factor fun channel step hstep =>
      mix.impulse_of_early channel (by omega) (hlate channel step hstep), Int32.add_zero]
  · intro i
    refine (hcells samples.length i).trans ?_
    rw [hsum, htape.cell, hposition, hfactor, h.mix_eq]
    congr 1
    rw [ChannelStep.sum_tracks fun channel step => Resampler.impulse
      (origin.toNat * factor + factor / 2 + step.time.toNat * factor)
      (Int32.ofInt ((mix.scale channel).apply step.delta)) (samples.length + i)]
    refine congrArg Channel.sum (funext fun channel => congrArg List.sum ?_)
    rw [htrack, List.map_map]
    refine List.map_congr_left ?_
    intro step hstep
    exact (mix.impulse_rebase channel horigin (hlate channel step hstep) _).symm

/-- A console that has run to `time` follows what the session has become, if that adds no steps. -/
theorem Follows.absorb {time : Int} (hnow : console.board.chip.time ≤ time)
    (hroom : time ≤ console.buffer.frameCapacity) {session whole' : Session}
    (hsteps : session.steps = (console.board.session.runTo time).steps)
    (hchip : session.chip.Consistent) (htime : session.chip.time = time)
    (hconsistent : whole'.chip.Consistent) (hpast : whole'.chip.time ≤ origin + time)
    (hwithin : whole'.Within (origin + time))
    (hsame : Session.SameFrom origin (whole'.runTo (origin + time)) session)
    (htracks : (whole'.runTo (origin + time)).tracks = (whole.runTo (origin + time)).tracks) :
    (console.absorb session).Follows mix factor whole' origin samples := by
  have hempty := console.board.session_within console.buffer.frameCapacity
  have hplays := h.plays_absorb hnow hsteps ((hempty.runTo h.balanced.chip hroom).of_steps hsteps)
  have hreached : (console.absorb session).board.chip.time = time := by
    rw [absorb_chip, htime]
  constructor
  · refine h.balanced.of_samePlace ?_ (console.absorb_samePlace session) ?_
    · rwa [absorb_chip]
    · rwa [hreached]
  · rw [absorb_mix, h.mix_eq]
  · rw [absorb_muted]
    exact h.unmuted
  · exact hconsistent
  · rwa [hreached]
  · rwa [hreached]
  · rw [hreached]
    exact ⟨(console.absorb_chip session).trans hsame.chip,
      (console.absorb_bus session).trans hsame.bus⟩
  · rwa [hreached, htracks]

/-- A write of the console is a write of the session at the same clock. -/
theorem Follows.write {time : Int} {address : UInt16} {value : UInt8} {next : Console}
    (hwrite : console.write time address value = .ok next) :
    next.Follows mix factor (whole.write (origin + time) address value) origin samples := by
  obtain ⟨⟨hnow, hroom⟩, rfl⟩ := write_ok hwrite
  have hpast := h.past
  cases hlocation : Location.ofAddress? address with
  | none =>
    have hsteps : console.board.session.steps =
        (console.board.session.runTo console.board.session.chip.time).steps := by
      rw [Session.runTo_of_le (Int.le_refl _)]
    rw [Session.write_of_none hlocation, Session.write_of_none hlocation]
    exact h.absorb (Int.le_refl _) h.balanced.inTime hsteps h.balanced.chip rfl h.consistent h.past
      h.within h.same rfl
  | some location =>
    have hreached : (whole.write (origin + time) address value).chip.time = origin + time := by
      rw [Session.write_time hlocation]
      omega
    have htime : (console.board.session.write time address value).chip.time = time := by
      rw [Session.write_time hlocation]
      exact Int.max_eq_right hnow
    have hstay : (whole.write (origin + time) address value).runTo (origin + time) =
        whole.write (origin + time) address value :=
      Session.runTo_of_le (Int.le_of_eq hreached.symm)
    have hwithin : whole.Within (origin + time) := h.within.mono (by omega)
    have hclocks : origin + time - origin = time := by omega
    have hsame := (h.sameFrom_runTo hnow).applyWrite (origin + time) location value
    rw [hclocks, ← Session.write_of_some hlocation, ← Session.write_of_some hlocation] at hsame
    refine h.absorb hnow hroom ?_ (Session.consistent_write h.balanced.chip hnow address value)
      htime (Session.consistent_write h.consistent (by omega) address value) (Int.le_of_eq hreached)
      (hwithin.write h.consistent (Int.le_refl _) address value) ?_ ?_
    · rw [Session.write_of_some hlocation, Session.announce_steps, Session.applyWrite_steps]
    · rwa [hstay]
    · rw [hstay, Session.write_of_some hlocation]
      unfold Session.tracks
      rw [Session.announce_steps, Session.applyWrite_steps]

/-- The end of a frame only moves the origin. -/
theorem Follows.ended {time : Int} (hnow : console.board.chip.time ≤ time)
    (hroom : time ≤ console.buffer.frameCapacity) :
    (console.ended time).Follows mix factor whole (origin + time) samples ∧
      (console.ended time).board.chip.time = 0 := by
  have hpast := h.past
  have hempty := console.board.session_within console.buffer.frameCapacity
  have hplays := h.plays_absorb hnow (rfl : (console.board.session.endFrame time).steps = _)
    ((hempty.runTo h.balanced.chip hroom).of_steps rfl)
  have hchip : (console.ended time).board.chip = (console.board.session.endFrame time).chip :=
    console.absorb_chip _
  have hbus : (console.ended time).board.bus = (console.board.session.runTo time).bus :=
    console.absorb_bus _
  have hzero : (console.ended time).board.chip.time = 0 := by
    rw [hchip, Session.endFrame_time hnow]
  have hreached : origin + time + (console.ended time).board.chip.time = origin + time := by
    omega
  have hsame := h.sameFrom_runTo hnow
  refine ⟨⟨h.balanced.ended hnow hroom, ?_, ?_, h.consistent, ?_, ?_, ⟨?_, ?_⟩, ?_⟩, hzero⟩
  · rw [← h.mix_eq]
    exact console.absorb_mix _
  · intro channel
    rw [← h.unmuted channel]
    exact congrArg (·.get channel) (console.absorb_muted _)
  · omega
  · exact h.within.mono (by omega)
  · rw [hreached, ← Chip.shift_shift, ← hsame.chip]
    exact hchip.trans (Session.consistent_endFrame h.balanced.chip hnow).1
  · rw [hreached, ← hsame.bus]
    exact hbus
  · rw [hreached]
    exact hplays.endFrame _

/-- Samples that are read between two frames are the next ones of the tape. -/
theorem Follows.read (hzero : console.board.chip.time = 0) (count : Nat) :
    (console.read count).2.Follows mix factor whole origin
      (samples ++ (console.read count).1.toList) := by
  have hbalanced := h.balanced.read count
  have hsamples := h.samples_le
  have hwithin := h.within.runTo h.consistent (Int.le_refl _)
  have hwidth : Resampler.width ≤ Resampler.margin := by decide
  have hplays := h.plays.read (fun n hn => mix.tape_eq_zero factor fun channel step hstep =>
    mix.impulse_of_late channel (by omega) (Int.le_trans (hwithin channel step hstep).2
      (by omega : _ ≤ origin))) count
  refine ⟨?_, h.mix_eq, h.unmuted, h.consistent, h.past, h.within, h.same, hplays⟩
  rw [List.length_append]
  exact hbalanced

/-! ### Runs of frames -/

theorem Follows.writes {writes : List TimedWrite} {outcomes : List Outcome} {last : Console}
    (hrun : console.performAll (writes.map TimedWrite.operation) = .ok (outcomes, last)) :
    last.Follows mix factor (whole.writeAll (writes.map (.since origin))) origin samples ∧
      outcomes.flatMap Outcome.taken = [] := by
  induction writes generalizing console whole outcomes with
  | nil =>
    cases hrun
    exact ⟨h, rfl⟩
  | cons write writes ih =>
    obtain ⟨outcome, rest, next, hperform, hrest, rfl⟩ := performAll_cons hrun
    obtain ⟨_, hwrite, hnext⟩ := map_eq_ok hperform
    obtain ⟨rfl, rfl⟩ := Prod.mk.inj hnext
    obtain ⟨hlast, hsilent⟩ := ih (h.write hwrite) hrest
    exact ⟨hlast, hsilent⟩

theorem Follows.reads (hzero : console.board.chip.time = 0) {reads : List Nat}
    {outcomes : List Outcome} {last : Console}
    (hrun : console.performAll (reads.map .read) = .ok (outcomes, last)) :
    last.Follows mix factor whole origin (samples ++ outcomes.flatMap Outcome.taken) ∧
      last.board.chip.time = 0 := by
  induction reads generalizing console samples outcomes with
  | nil =>
    cases hrun
    rw [List.flatMap_nil, List.append_nil]
    exact ⟨h, hzero⟩
  | cons count reads ih =>
    obtain ⟨outcome, rest, next, hperform, hrest, rfl⟩ := performAll_cons hrun
    obtain ⟨rfl, rfl⟩ := Prod.mk.inj (Except.ok.inj hperform)
    rw [List.flatMap_cons, ← List.append_assoc]
    exact ih (h.read hzero count) hzero hrest

theorem Follows.frame {frame : Frame} {outcomes : List Outcome} {last : Console}
    (hrun : console.performAll frame.operations = .ok (outcomes, last)) :
    last.Follows mix factor (whole.writeAll (frame.writes.map (.since origin)))
        (origin + frame.stop) (samples ++ outcomes.flatMap Outcome.taken) ∧
      last.board.chip.time = 0 := by
  obtain ⟨first, written, rest, hwrites, hrest, rfl⟩ := performAll_append hrun
  obtain ⟨outcome, rest, next, hperform, hreads, rfl⟩ := performAll_cons hrest
  obtain ⟨hwritten, hsilent⟩ := h.writes hwrites
  obtain ⟨⟨taken, _⟩, hframe, hnext⟩ := map_eq_ok hperform
  obtain ⟨rfl, rfl⟩ := Prod.mk.inj hnext
  obtain ⟨⟨hnow, hroom⟩, hread⟩ := runFrame_ok hframe
  obtain ⟨rfl, rfl⟩ := Prod.mk.inj hread
  obtain ⟨hended, hzero⟩ := hwritten.ended hnow hroom
  rw [List.flatMap_append, hsilent, List.nil_append, List.flatMap_cons, ← List.append_assoc]
  exact (hended.read hzero _).reads hzero hreads

theorem Follows.frames (hzero : console.board.chip.time = 0) {frames : List Frame}
    {outcomes : List Outcome} {last : Console}
    (hrun : console.performAll (frames.flatMap Frame.operations) = .ok (outcomes, last)) :
    last.Follows mix factor (whole.writeAll (Frame.score origin frames))
        (origin + Frame.span frames) (samples ++ outcomes.flatMap Outcome.taken) ∧
      last.board.chip.time = 0 := by
  induction frames generalizing console whole origin samples outcomes with
  | nil =>
    cases hrun
    have hspan : origin + Frame.span [] = origin := Int.add_zero origin
    rw [hspan, List.flatMap_nil, List.append_nil]
    exact ⟨h, hzero⟩
  | cons frame frames ih =>
    obtain ⟨first, next, rest, hframe, hrest, rfl⟩ := performAll_append hrun
    obtain ⟨hnext, hzero⟩ := h.frame hframe
    have hspan : origin + Frame.span (frame :: frames) =
        origin + frame.stop + Frame.span frames :=
      (Int.add_assoc ..).symm
    rw [hspan, Frame.score, Session.writeAll_append, List.flatMap_append, ← List.append_assoc]
    exact ih hnext hzero hrest

/-- What a console that follows a session handed out, and what it is, depends only on the session.
-/
theorem Follows.unique {console' : Console} {samples' : List Int16}
    (h' : console'.Follows mix factor whole origin samples')
    (hzero : console.board.chip.time = 0) (hzero' : console'.board.chip.time = 0)
    (hread : console.buffer.available = 0) (hread' : console'.buffer.available = 0) :
    samples = samples' ∧ console.board.bus = console'.board.bus ∧
      console.board.chip = console'.board.chip := by
  have hlength : samples.length = samples'.length := by
    have hsamples : samples.length + console.buffer.available = _ := h.samples_le
    have hsamples' : samples'.length + console'.buffer.available = _ := h'.samples_le
    omega
  have hhanded := h.plays.handed
  have hhanded' := h'.plays.handed
  have hsame := h.same
  have hsame' := h'.same
  rw [hzero] at hhanded hsame
  rw [hzero'] at hhanded' hsame'
  rw [← hlength, ← hhanded] at hhanded'
  exact ⟨hhanded'.symm, hsame.bus.trans hsame'.bus.symm, hsame.chip.trans hsame'.chip.symm⟩

end Follows

/-- A console from its creation on follows its own chip. -/
theorem follows_create {bus : Bus} {configuration : Configuration} {console : Console}
    (hcreate : Console.create bus configuration = .ok console) :
    console.Follows console.board.mix
        (Resampler.factorOf configuration.sampleRate configuration.clockRate)
        { chip := console.board.chip, bus := console.board.bus } 0 [] ∧
      console.board.chip.time = 0 := by
  obtain ⟨_, hbalanced⟩ := Account.balanced_create hcreate
  obtain ⟨buffer, _, hconsole⟩ := create_ok hcreate
  have hzero : console.board.chip.time = 0 := by
    rw [hconsole]
    simp only [Console.reset, Board.reset_chip]
    exact (Chip.consistent_reset _).2
  have hchip : console.board.chip.Consistent := hbalanced.chip
  have hreached : (Session.runTo { chip := console.board.chip, bus := console.board.bus }
      (0 + console.board.chip.time)) = console.board.session :=
    Session.runTo_of_le (Int.le_of_eq (Int.zero_add _))
  refine ⟨⟨hbalanced, rfl, ?_, hchip, ?_, ?_, ?_, ?_⟩, hzero⟩
  · intro channel
    rw [hconsole]
    simp only [Console.reset, Board.reset_muted]
    cases channel <;> rfl
  · exact Int.le_of_eq (Int.zero_add _).symm
  · intro channel step hstep
    cases hstep
  · rw [hreached]
    exact ⟨by rw [Chip.shift_zero]; exact hchip.announced_eq.symm, rfl⟩
  · rw [hreached, hconsole]
    exact Resampler.plays_clear buffer.resampler fun n => Channel.sum_zero

/-- However `clocks` clocks with the same writes are cut into frames, the samples are the same and
as many as the clocks make, the bus has fetched the same addresses and the chip ends up the same.
A write at the end of a frame may as well be made at the start of the next one, and samples may be
read in any portions, as long as none are left in the end. -/
theorem frame_cuts_unheard {bus : Bus} {configuration : Configuration} {console : Console}
    (hcreate : Console.create bus configuration = .ok console)
    {writes : List TimedWrite} {clocks : Int} {frames frames' : List Frame}
    (hcuts : Frame.Cuts writes clocks frames) (hcuts' : Frame.Cuts writes clocks frames')
    {outcomes outcomes' : List Outcome} {last last' : Console}
    (hrun : console.performAll (frames.flatMap Frame.operations) = .ok (outcomes, last))
    (hrun' : console.performAll (frames'.flatMap Frame.operations) = .ok (outcomes', last'))
    (hread : last.buffer.available = 0) (hread' : last'.buffer.available = 0) :
    let factor := Resampler.factorOf configuration.sampleRate configuration.clockRate
    outcomes.flatMap Outcome.taken = outcomes'.flatMap Outcome.taken ∧
      (outcomes.flatMap Outcome.taken).length =
        (clocks.toNat * factor + factor / 2) / Resampler.unit ∧
      last.board.bus = last'.board.bus ∧
      last.board.chip = last'.board.chip := by
  intro factor
  obtain ⟨hfollows, hzero⟩ := follows_create hcreate
  obtain ⟨hlast, hend⟩ := hfollows.frames hzero hrun
  obtain ⟨hlast', hend'⟩ := hfollows.frames hzero hrun'
  rw [hcuts.score, hcuts.span, Int.zero_add, List.nil_append] at hlast
  rw [hcuts'.score, hcuts'.span, Int.zero_add, List.nil_append] at hlast'
  obtain ⟨hsamples, hbus, hchip⟩ := hlast.unique hlast' hend hend' hread hread'
  refine ⟨hsamples, ?_, hbus, hchip⟩
  have hcount : _ + last.buffer.available = _ := hlast.samples_le
  rwa [hread, Nat.add_zero] at hcount

/-- The writes that strike a note and start a sample while it sounds. -/
def noteAndSample : List TimedWrite :=
  [⟨0, 0x4015, 1⟩, ⟨0, 0x4000, 0xBF⟩, ⟨20, 0x4003, 1⟩, ⟨700, 0x4010, 0x4F⟩, ⟨1100, 0x4015, 0x11⟩]

/-- One frame with all writes. -/
def wholeFrame : List Frame := [⟨noteAndSample, 3000, 100, []⟩]

/-- Three frames, the first of which ends at a write. -/
def threeFrames : List Frame :=
  [⟨noteAndSample.take 4, 700, 5, [3, 100]⟩,
    ⟨[⟨400, 0x4015, 0x11⟩], 401, 100, []⟩,
    ⟨[], 1899, 0, [100]⟩]

/-- The 73 samples of a note with a sample are the same in one frame and in three. -/
theorem frame_cuts_unheard_of_note :
    ∃ console outcomes outcomes' last last',
      Console.create (.unconnected 0xAA) .standard = .ok console ∧
      console.performAll (wholeFrame.flatMap Frame.operations) = .ok (outcomes, last) ∧
      console.performAll (threeFrames.flatMap Frame.operations) = .ok (outcomes', last') ∧
      (outcomes.flatMap Outcome.taken).length = 73 ∧
      outcomes.flatMap Outcome.taken = outcomes'.flatMap Outcome.taken ∧
      last.board.chip = last'.board.chip := by
  obtain ⟨console, hcreate, hfacts⟩ := exists_ok
    (Console.create (.unconnected 0xAA) .standard)
    (fun console =>
      ((console.performAll (wholeFrame.flatMap Frame.operations)).toOption.any fun result =>
        (result.1.flatMap Outcome.taken).length = 73 && result.2.buffer.available = 0) &&
      (console.performAll (threeFrames.flatMap Frame.operations)).toOption.any fun result =>
        result.2.buffer.available = 0)
    (by decide +kernel)
  obtain ⟨hwhole, hthree⟩ := Bool.and_eq_true_iff.mp hfacts
  obtain ⟨⟨outcomes, last⟩, hrun, hfacts⟩ := exists_ok _ _ hwhole
  obtain ⟨⟨outcomes', last'⟩, hrun', hread'⟩ := exists_ok _ _ hthree
  obtain ⟨hlength, hread⟩ := Bool.and_eq_true_iff.mp hfacts
  have hcuts : Frame.Cuts noteAndSample 3000 wholeFrame := ⟨rfl, rfl⟩
  have hcuts' : Frame.Cuts noteAndSample 3000 threeFrames := ⟨rfl, rfl⟩
  obtain ⟨hsamples, _, _, hchip⟩ := frame_cuts_unheard hcreate hcuts hcuts' hrun hrun'
    (of_decide_eq_true hread) (of_decide_eq_true hread')
  exact ⟨console, outcomes, outcomes', last, last', hcreate, hrun, hrun',
    of_decide_eq_true hlength, hsamples, hchip⟩

end Console

end Chiptune
