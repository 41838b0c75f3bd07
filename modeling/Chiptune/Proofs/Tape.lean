import Chiptune.Proofs.Horizon

/-! The tape: what all steps since the last reset add to the cells, counted from the first sample of
all.  It does not depend on where frames end, nor on the order in which the channels take turns.
A resampler `Plays` the tape if its cells are the rest of it and the samples that it handed out are
the levels up to there. -/

namespace Chiptune

/-! ### Sums over the channels -/

namespace Channel

/-- The sum of what the channels add. -/
def sum (part : Channel → Int32) : Int32 := (all.map part).sum

theorem sum_eq (part : Channel → Int32) :
    sum part = part .pulse1 + (part .pulse2 + (part .triangle + (part .noise + (part .dmc + 0)))) :=
  rfl

theorem sum_zero : sum (fun _ => 0) = 0 := by decide

theorem sum_add (part part' : Channel → Int32) :
    sum (fun channel => part channel + part' channel) = sum part + sum part' := by
  simp only [sum_eq, Int32.add_zero]
  ac_rfl

theorem sum_single (channel : Channel) (a : Int32) :
    sum (fun channel' => if channel = channel' then a else 0) = a := by
  cases channel <;> simp [sum_eq]

end Channel

/-- A sum over steps can be taken channel by channel. -/
theorem ChannelStep.sum_tracks (part : Channel → Step → Int32) (all : Array ChannelStep) :
    (all.toList.map fun entry => part entry.channel entry.step).sum =
      Channel.sum fun channel => ((track channel all).map (part channel)).sum := by
  unfold track
  induction all.toList with
  | nil => exact Channel.sum_zero.symm
  | cons entry entries ih =>
    rw [List.map_cons, List.sum_cons, ih]
    conv => lhs; rw [← Channel.sum_single entry.channel (part entry.channel entry.step)]
    rw [← Channel.sum_add]
    congr 1
    funext channel
    by_cases h : entry.channel = channel
    · simp [h]
    · simp [h]

/-! ### The tape -/

/-- What a step of a channel adds to cell `n` of the tape. -/
def Mix.impulse (mix : Mix) (factor : Nat) (channel : Channel) (step : Step) (n : Nat) : Int32 :=
  Resampler.impulse (step.time.toNat * factor + factor / 2)
    (Int32.ofInt ((mix.scale channel).apply step.delta)) n

/-- Cell `n` of the tape of given tracks, whose steps are timed from the first clock on. -/
def Mix.tape (mix : Mix) (factor : Nat) (tracks : Channel → List Step) (n : Nat) : Int32 :=
  Channel.sum fun channel => ((tracks channel).map (mix.impulse factor channel · n)).sum

namespace Mix

variable (mix : Mix) (factor : Nat)

theorem tape_append (tracks tracks' : Channel → List Step) (n : Nat) :
    mix.tape factor (fun channel => tracks channel ++ tracks' channel) n =
      mix.tape factor tracks n + mix.tape factor tracks' n := by
  unfold tape
  rw [← Channel.sum_add]
  congr 1
  funext channel
  rw [List.map_append, List.sum_append]

theorem tape_eq_zero {tracks : Channel → List Step} {n : Nat}
    (h : ∀ channel, ∀ step ∈ tracks channel, mix.impulse factor channel step n = 0) :
    mix.tape factor tracks n = 0 := by
  have hchannel (channel : Channel) :
      ((tracks channel).map (mix.impulse factor channel · n)).sum = 0 := by
    generalize hsteps : tracks channel = steps
    have hzero := h channel
    rw [hsteps] at hzero
    clear hsteps
    induction steps with
    | nil => rfl
    | cons step steps ih =>
      rw [List.map_cons, List.sum_cons, hzero step (.head _),
        ih fun step hstep => hzero step (.tail _ hstep), Int32.zero_add]
  unfold tape
  simp only [hchannel]
  exact Channel.sum_zero

end Mix

namespace Resampler

/-- The cell in which a position lies. -/
theorem start_eq (position : Nat) : position / twoTo 32 / twoTo 20 = position / unit := by
  rw [Nat.div_div_eq_div_mul]
  rfl

theorem impulse_of_lt {position n : Nat} (h : n < position / unit) (delta : Int32) :
    impulse position delta n = 0 := by
  unfold impulse
  simp only
  rw [start_eq, if_neg (by omega)]

theorem impulse_of_ge {position n : Nat} (h : position / unit + width ≤ n) (delta : Int32) :
    impulse position delta n = 0 := by
  unfold impulse
  simp only
  rw [start_eq, if_neg (by omega)]

end Resampler

namespace Mix

/-- A step adds the same to the tape when its time is counted from the start of its frame. -/
theorem impulse_rebase (mix : Mix) {factor : Nat} {origin : Int} (channel : Channel) {step : Step}
    (horigin : 0 ≤ origin) (hstart : origin ≤ step.time) (n : Nat) :
    mix.impulse factor channel step n =
      Resampler.impulse
        (origin.toNat * factor + factor / 2 + (step.rebase origin).time.toNat * factor)
        (Int32.ofInt ((mix.scale channel).apply (step.rebase origin).delta)) n := by
  have hclocks : step.time.toNat = origin.toNat + (step.rebase origin).time.toNat := by
    show _ = _ + (step.time - origin).toNat
    omega
  have hposition : step.time.toNat * factor + factor / 2 =
      origin.toNat * factor + factor / 2 + (step.rebase origin).time.toNat * factor := by
    rw [hclocks, Nat.add_mul]
    omega
  unfold impulse
  rw [hposition]
  rfl

/-- Steps add nothing to the cells before their time. -/
theorem impulse_of_early (mix : Mix) {factor n : Nat} {time : Int} (channel : Channel) {step : Step}
    (h : n < (time.toNat * factor + factor / 2) / Resampler.unit) (htime : time ≤ step.time) :
    mix.impulse factor channel step n = 0 := by
  refine Resampler.impulse_of_lt (Nat.lt_of_lt_of_le h (Nat.div_le_div_right ?_)) _
  have hle : time.toNat * factor ≤ step.time.toNat * factor :=
    Nat.mul_le_mul_right factor (by omega)
  omega

/-- Steps add nothing to the cells more than an impulse past their time. -/
theorem impulse_of_late (mix : Mix) {factor n : Nat} {time : Int} (channel : Channel) {step : Step}
    (h : (time.toNat * factor + factor / 2) / Resampler.unit + Resampler.width ≤ n)
    (htime : step.time ≤ time) : mix.impulse factor channel step n = 0 := by
  refine Resampler.impulse_of_ge (Nat.le_trans (Nat.add_le_add_right ?_ _) h) _
  have hle : step.time.toNat * factor ≤ time.toNat * factor :=
    Nat.mul_le_mul_right factor (by omega)
  exact Nat.div_le_div_right (by omega)

end Mix

/-! ### Playing a tape -/

namespace Resampler

/-- The resampler has handed out the samples of the first cells of the tape and holds the others. -/
structure Plays (tape : Nat → Int32) (samples : List Int16) (r : Resampler) : Prop where
  handed : samples = render tape 0 samples.length
  sum : r.sum = carry tape 0 samples.length
  cell : ∀ i, r.cell i = tape (samples.length + i)

variable {tape tape' : Nat → Int32} {samples : List Int16} {r r' : Resampler}

theorem plays_clear (r : Resampler) (h : ∀ n, tape n = 0) : r.clear.Plays tape [] :=
  ⟨rfl, rfl, fun i => (h (0 + i)).symm⟩

/-- A tape that changes only past the samples that were handed out. -/
theorem Plays.extend (h : r.Plays tape samples) (hsame : ∀ n < samples.length, tape' n = tape n)
    (hsum : r'.sum = r.sum) (hcell : ∀ i, r'.cell i = tape' (samples.length + i)) :
    r'.Plays tape' samples where
  handed := by
    rw [render_congr hsame]
    exact h.handed
  sum := by
    rw [carry_congr hsame, hsum]
    exact h.sum
  cell := hcell

theorem Plays.endFrame (h : r.Plays tape samples) (time : Nat) :
    (r.endFrame time).Plays tape samples :=
  ⟨h.handed, h.sum, h.cell⟩

theorem Plays.read (h : r.Plays tape samples)
    (hmargin : ∀ n, samples.length + r.available + margin ≤ n → tape n = 0) (count : Nat) :
    (r.read count).2.Plays tape (samples ++ (r.read count).1.toList) := by
  obtain ⟨_, _, _, hsum⟩ := r.read_snd count
  have hrest : r.cell = fun i => tape (samples.length + i) := funext h.cell
  have hlength : (samples ++ (r.read count).1.toList).length =
      samples.length + min count r.available := by
    rw [List.length_append]
    exact congrArg (samples.length + ·) (r.size_read count)
  have hmargin' (i : Nat) (hi : r.available + margin ≤ i) : r.cell i = 0 := by
    rw [h.cell]
    exact hmargin _ (by omega)
  constructor
  · rw [hlength, render_add, ← h.handed, ← h.sum, read_fst, hrest]
  · rw [hlength, carry_add, ← h.sum, hsum, hrest]
  · intro i
    rw [hlength, cell_read hmargin', h.cell, Nat.add_assoc]

end Resampler

namespace StepBuffer

variable (buffer : StepBuffer) (time delta : Int)

theorem sum_put : (buffer.put time delta).resampler.sum = buffer.resampler.sum := by
  unfold put Resampler.add
  dsimp only

theorem cell_put (base n : Nat) :
    (buffer.put time delta).resampler.cell n = buffer.resampler.cell n +
      Resampler.impulse (base * Resampler.unit + buffer.resampler.elapsed +
        time.toNat * buffer.resampler.factor) (Int32.ofInt delta) (base + n) := by
  unfold put
  exact buffer.resampler.cell_add time.toNat (Int32.ofInt delta) base n

end StepBuffer

namespace Board

/-- What a session does to the output, if no channel is muted: each step adds its impulse. -/
theorem conclude_cells (board : Board) (hunmuted : ∀ channel, board.muted.get channel = false)
    {out : StepBuffer} {session : Session} (hwithin : session.Within out.frameCapacity) :
    (board.conclude out session).2.resampler.sum = out.resampler.sum ∧
      ∀ base n, (board.conclude out session).2.resampler.cell n = out.resampler.cell n +
        (session.steps.toList.map fun entry => Resampler.impulse
          (base * Resampler.unit + out.resampler.elapsed +
            entry.step.time.toNat * out.resampler.factor)
          (Int32.ofInt ((board.mix.scale entry.channel).apply entry.step.delta))
          (base + n)).sum := by
  have haccepts : ∀ entry ∈ session.steps.toList, out.accepts entry.step.time = true :=
    fun entry hentry => (accepts_iff _ _).mpr (hwithin.mem hentry)
  unfold conclude
  simp only
  rw [← Array.foldl_toList]
  generalize session.steps.toList = entries at haccepts
  clear hwithin
  induction entries generalizing out with
  | nil => exact ⟨rfl, fun _ _ => (Int32.add_zero _).symm⟩
  | cons entry entries ih =>
    have hput : board.deliver out entry.channel entry.step.time entry.step.delta =
        out.put entry.step.time ((board.mix.scale entry.channel).apply entry.step.delta) :=
      if_pos (haccepts entry (.head _))
    have hsame := StepBuffer.SamePlace.put out entry.step.time
      ((board.mix.scale entry.channel).apply entry.step.delta)
    rw [List.foldl_cons, hunmuted entry.channel, if_neg Bool.noConfusion, hput]
    obtain ⟨hsum, hcell⟩ := ih fun entry hentry => by
      rw [accepts_iff, hsame.frameCapacity, ← accepts_iff]
      exact haccepts entry (.tail _ hentry)
    refine ⟨hsum.trans (out.sum_put _ _), ?_⟩
    intro base n
    rw [hcell base n, hsame.elapsed, hsame.factor, List.map_cons, List.sum_cons, ← Int32.add_assoc,
      out.cell_put _ _ base n]

end Board

end Chiptune
