import Chiptune.Proofs.Horizon
import Mathlib.Data.List.Perm.Basic

/-! The output does not depend on how the channels take turns.  The impulses of two steps add up to
the same cells in either order (`put_comm`), so what the output gets out of a session is told by the
steps of each channel alone (`receive_eq_of_tracks`), and a session may hand over its steps in parts. -/

namespace Chiptune

/-! ### Two steps -/

namespace Resampler

theorem cells_ext {cells cells' : Array Int32} (hsize : cells.size = cells'.size)
    (h : ∀ n, cells.getD n 0 = cells'.getD n 0) : cells = cells' := by
  refine Array.ext hsize ?_
  intro n hn hn'
  have hcell := h n
  rwa [Array.getD_eq_getD_getElem?, Array.getD_eq_getD_getElem?, Array.getElem?_eq_getElem hn,
    Array.getElem?_eq_getElem hn'] at hcell

theorem addTaps_comm (cells : Array Int32) (start start' : Nat) (tap tap' : Nat → Int32) :
    addTaps (addTaps cells start tap) start' tap' =
      addTaps (addTaps cells start' tap') start tap := by
  refine cells_ext ?_ ?_
  · simp only [size_addTaps]
    omega
  · intro n
    simp only [getD_addTaps]
    rw [Int32.add_assoc, Int32.add_assoc, Int32.add_comm (ite _ _ _)]

theorem add_comm (r : Resampler) (time time' : Nat) (delta delta' : Int32) :
    (r.add time delta).add time' delta' = (r.add time' delta').add time delta := by
  unfold add position
  simp only
  rw [addTaps_comm]

end Resampler

theorem StepBuffer.put_comm (buffer : StepBuffer) (time time' delta delta' : Int) :
    (buffer.put time delta).put time' delta' = (buffer.put time' delta').put time delta := by
  unfold put
  simp only
  rw [Resampler.add_comm]

theorem StepBuffer.SamePlace.accepts {buffer buffer' : StepBuffer} (h : buffer.SamePlace buffer')
    (time : Int) : buffer'.accepts time = buffer.accepts time := by
  unfold StepBuffer.accepts
  rw [h.frameCapacity]

namespace Board

theorem deliver_comm (board : Board) (out : StepBuffer) (channel channel' : Channel)
    (time time' delta delta' : Int) :
    board.deliver (board.deliver out channel time delta) channel' time' delta' =
      board.deliver (board.deliver out channel' time' delta') channel time delta := by
  have haccepts := (board.deliver_samePlace out channel time delta).accepts time'
  have haccepts' := (board.deliver_samePlace out channel' time' delta').accepts time
  have hput := out.put_comm time time' ((board.mix.scale channel).apply delta)
    ((board.mix.scale channel').apply delta')
  unfold deliver at *
  rw [haccepts, haccepts']
  grind

/-! ### All steps of a session -/

/-- Adds a step to the output unless its channel is switched off. -/
def accept (board : Board) (out : StepBuffer) (entry : ChannelStep) : StepBuffer :=
  if board.muted.get entry.channel then out
  else board.deliver out entry.channel entry.step.time entry.step.delta

/-- The output after steps of the channels, those of muted channels left out. -/
def receive (board : Board) (out : StepBuffer) (steps : List ChannelStep) : StepBuffer :=
  steps.foldl board.accept out

theorem accept_comm (board : Board) (out : StepBuffer) (entry entry' : ChannelStep) :
    board.accept (board.accept out entry) entry' = board.accept (board.accept out entry') entry := by
  have hcomm := board.deliver_comm out entry.channel entry'.channel entry.step.time
    entry'.step.time entry.step.delta entry'.step.delta
  unfold accept
  split <;> split <;> simp_all

theorem conclude_snd (board : Board) (out : StepBuffer) (session : Session) :
    (board.conclude out session).2 = board.receive out session.steps.toList := by
  unfold conclude receive accept
  simp only
  rw [← Array.foldl_toList]

theorem receive_append (board : Board) (out : StepBuffer) (steps steps' : List ChannelStep) :
    board.receive out (steps ++ steps') = board.receive (board.receive out steps) steps' :=
  List.foldl_append

theorem receive_perm (board : Board) (out : StepBuffer) {steps steps' : List ChannelStep}
    (h : steps.Perm steps') : board.receive out steps = board.receive out steps' :=
  have : RightCommutative board.accept := ⟨board.accept_comm⟩
  h.foldl_eq out

theorem receive_congr {board board' : Board} (hmix : board'.mix = board.mix)
    (hmuted : board'.muted = board.muted) (out : StepBuffer) (steps : List ChannelStep) :
    board'.receive out steps = board.receive out steps := by
  have haccept : board'.accept = board.accept := by
    funext out entry
    unfold accept deliver
    rw [hmix, hmuted]
  unfold receive
  rw [haccept]

end Board

namespace ChannelStep

/-- The steps of one channel among `steps`. -/
def trackOf (channel : Channel) (steps : List ChannelStep) : List Step :=
  (steps.filter (·.channel = channel)).map (·.step)

theorem trackOf_append (channel : Channel) (steps steps' : List ChannelStep) :
    trackOf channel (steps ++ steps') = trackOf channel steps ++ trackOf channel steps' := by
  simp [trackOf]

theorem count_trackOf (entry : ChannelStep) (steps : List ChannelStep) :
    (trackOf entry.channel steps).count entry.step = steps.count entry := by
  induction steps with
  | nil => rfl
  | cons first rest ih =>
    unfold trackOf at *
    obtain ⟨channel, step⟩ := entry
    obtain ⟨channel', step'⟩ := first
    by_cases hchannel : channel' = channel
    · subst hchannel
      simp [List.count_cons, ih]
    · simp [ih, hchannel]

/-- The steps of each channel tell which steps there are. -/
theorem perm_of_tracks {steps steps' : List ChannelStep}
    (h : ∀ channel, trackOf channel steps = trackOf channel steps') : steps.Perm steps' := by
  refine List.perm_iff_count.mpr ?_
  intro entry
  rw [← count_trackOf, h, count_trackOf]

end ChannelStep

/-- The output gets the same out of two lists of steps if each channel has the same ones. -/
theorem Board.receive_eq_of_tracks (board : Board) (out : StepBuffer)
    {steps steps' : List ChannelStep}
    (h : ∀ channel, ChannelStep.trackOf channel steps = ChannelStep.trackOf channel steps') :
    board.receive out steps = board.receive out steps' :=
  board.receive_perm out (ChannelStep.perm_of_tracks h)

end Chiptune
