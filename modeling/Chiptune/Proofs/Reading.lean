import Chiptune.Proofs.Tape

/-! What a read does to the steps that still wait.  A resampler that was read is `Left` over from one
that nobody reads, and stays so through every step and frame.  A read keeps this up as long as no step
waits past the margin that it keeps (`Left.read`), which is so at the start of every frame and for
almost three samples after it (`EmptyPast.withinMargin`).  Reads one after the other are one read. -/

namespace Chiptune

namespace Resampler

/-! ### Cells in use -/

/-- No step waits past the cells that a read keeps. -/
def WithinMargin (r : Resampler) : Prop := ∀ i, r.available + margin ≤ i → r.cell i = 0

instance (r : Resampler) : Decidable r.WithinMargin :=
  decidable_of_iff (∀ i < r.cells.size, r.available + margin ≤ i → r.cell i = 0) <| by
    refine ⟨fun h i hi => ?_, fun h i _ hi => h i hi⟩
    rcases Nat.lt_or_ge i r.cells.size with hlt | hge
    · exact h i hlt hi
    · simp [cell, hge]

/-- The cells past the impulse of a step at clock `time` are empty. -/
def EmptyPast (r : Resampler) (time : Nat) : Prop :=
  ∀ i, r.available + r.position time / unit + width ≤ i → r.cell i = 0

theorem elapsed_add_div (r : Resampler) (time : Nat) :
    (r.elapsed + time * r.factor) / unit = r.available + r.position time / unit := by
  have hposition : r.elapsed + time * r.factor = unit * r.available + r.position time := by
    unfold elapsed position
    rw [Nat.mul_comm unit]
    omega
  rw [hposition, Nat.mul_add_div unit_pos]

theorem position_mono (r : Resampler) {time time' : Nat} (h : time ≤ time') :
    r.position time ≤ r.position time' :=
  Nat.add_le_add_right (Nat.mul_le_mul_right r.factor h) r.offset

theorem cell_read_eq (r : Resampler) (count i : Nat) :
    (r.read count).2.cell i = r.cell (min count r.available + i) ∨ (r.read count).2.cell i = 0 := by
  by_cases h : min count r.available = 0
  · rw [read_of_zero h, h, Nat.zero_add]
    exact .inl rfl
  · rw [read_of_ne_zero h]
    simp only [cell, Array.getD_eq_getD_getElem?, Array.getElem?_extract]
    split
    · exact .inl rfl
    · exact .inr rfl

theorem cell_read_of_lt (r : Resampler) {count i : Nat}
    (h : min count r.available + i < r.available + margin) :
    (r.read count).2.cell i = r.cell (min count r.available + i) := by
  by_cases hzero : min count r.available = 0
  · rw [read_of_zero hzero, hzero, Nat.zero_add]
  · rw [read_of_ne_zero hzero]
    simp only [cell, Array.getD_eq_getD_getElem?, Array.getElem?_extract]
    split
    · rfl
    · rw [Array.getElem?_eq_none (by omega)]

section Add

variable (r : Resampler) (time : Nat) (delta : Int32)

@[simp] theorem add_factor : (r.add time delta).factor = r.factor := by
  unfold add
  dsimp only

@[simp] theorem add_offset : (r.add time delta).offset = r.offset := by
  unfold add
  dsimp only

@[simp] theorem add_available : (r.add time delta).available = r.available := by
  unfold add
  dsimp only

@[simp] theorem add_sum : (r.add time delta).sum = r.sum := by
  unfold add
  dsimp only

@[simp] theorem add_position (time' : Nat) :
    (r.add time delta).position time' = r.position time' := by
  unfold position
  rw [add_factor, add_offset]

end Add

theorem emptyPast_clear (r : Resampler) : r.clear.EmptyPast 0 := fun _ _ => rfl

namespace EmptyPast

variable {r : Resampler} {time : Nat} (h : r.EmptyPast time)
include h

theorem mono {time' : Nat} (hle : time ≤ time') : r.EmptyPast time' := by
  intro i hi
  have hdiv := Nat.div_le_div_right (c := unit) (r.position_mono hle)
  exact h i (by omega)

theorem add {time' : Nat} (hle : time' ≤ time) (delta : Int32) :
    (r.add time' delta).EmptyPast time := by
  intro i hi
  rw [add_available, add_position] at hi
  have hdiv := Nat.div_le_div_right (c := unit) (r.position_mono hle)
  have hstart := r.elapsed_add_div time'
  rw [r.cell_add time' delta 0 i, Nat.zero_mul, Nat.zero_add, Nat.zero_add, h i hi,
    impulse_of_ge (by omega), Int32.add_zero]

theorem endFrame : (r.endFrame time).EmptyPast 0 := by
  intro i hi
  have hzero : (r.endFrame time).position 0 / unit = 0 := by
    have hoffset := r.offset_endFrame_lt time
    unfold position
    rw [Nat.zero_mul, Nat.zero_add]
    exact Nat.div_eq_of_lt hoffset
  rw [hzero] at hi
  exact h i hi

theorem read (count : Nat) : (r.read count).2.EmptyPast time := by
  intro i hi
  obtain ⟨hfactor, hoffset, havailable, _⟩ := r.read_snd count
  unfold position at hi
  rw [hfactor, hoffset, havailable] at hi
  rcases r.cell_read_eq count i with hcell | hcell
  · rw [hcell]
    exact h _ (by unfold position; omega)
  · exact hcell

/-- Up to three samples into a frame every step waits within the margin. -/
theorem withinMargin (hearly : r.position time < 3 * unit) : r.WithinMargin := by
  intro i hi
  have hdiv : r.position time / unit < 3 := Nat.div_lt_of_lt_mul (by omega)
  have hwidth : 2 + width = margin := by decide
  exact h i (by omega)

theorem withinMargin_endFrame : (r.endFrame time).WithinMargin := by
  refine h.endFrame.withinMargin ?_
  have hoffset := r.offset_endFrame_lt time
  unfold position
  omega

end EmptyPast

/-! ### What is left -/

/-- What is left of `whole` after `samples` were read. -/
structure Left (whole : Resampler) (samples : List Int16) (r : Resampler) : Prop where
  factor : r.factor = whole.factor
  offset : r.offset = whole.offset
  available : samples.length + r.available = whole.available
  handed : samples = render whole.cell whole.sum samples.length
  sum : r.sum = carry whole.cell whole.sum samples.length
  cell : ∀ i, r.cell i = whole.cell (samples.length + i)

namespace Left

theorem refl (r : Resampler) : Left r [] r :=
  ⟨rfl, rfl, Nat.zero_add _, rfl, rfl, fun i => by simp⟩

variable {whole r : Resampler} {samples : List Int16} (h : Left whole samples r)
include h

theorem elapsed : samples.length * unit + r.elapsed = whole.elapsed := by
  have hsum := Nat.add_mul samples.length r.available unit
  unfold Resampler.elapsed
  rw [← h.available, h.offset]
  omega

theorem add (time : Nat) (delta : Int32) :
    Left (whole.add time delta) samples (r.add time delta) := by
  have hle := h.available
  have hposition := h.elapsed
  -- An impulse does not reach the cells that were read.
  have hread : ∀ i < samples.length, (whole.add time delta).cell i = whole.cell i := by
    intro i hi
    have hstart : whole.available ≤ (whole.elapsed + time * whole.factor) / unit := by
      rw [whole.elapsed_add_div]
      exact Nat.le_add_right _ _
    rw [whole.cell_add time delta 0 i, Nat.zero_mul, Nat.zero_add, Nat.zero_add,
      impulse_of_lt (by omega), Int32.add_zero]
  constructor
  · rw [add_factor, add_factor, h.factor]
  · rw [add_offset, add_offset, h.offset]
  · rw [add_available, add_available, hle]
  · rw [render_congr hread, add_sum]
    exact h.handed
  · rw [carry_congr hread, add_sum, add_sum]
    exact h.sum
  · intro i
    rw [whole.cell_add time delta 0, r.cell_add time delta samples.length, h.cell, hposition,
      h.factor, Nat.zero_mul, Nat.zero_add, Nat.zero_add]

theorem endFrame (time : Nat) : Left (whole.endFrame time) samples (r.endFrame time) := by
  have hposition : r.position time = whole.position time := by
    unfold position
    rw [h.factor, h.offset]
  refine ⟨h.factor, ?_, ?_, h.handed, h.sum, h.cell⟩
  · simp only [Resampler.endFrame, hposition]
  · have havailable := h.available
    simp only [Resampler.endFrame, hposition]
    omega

/-- A read that loses no step goes on where the last one ended. -/
theorem read {count : Nat} (hkeep : min count r.available = 0 ∨ r.WithinMargin) :
    Left whole (samples ++ (r.read count).1.toList) (r.read count).2 := by
  have hlength : (samples ++ (r.read count).1.toList).length =
      samples.length + min count r.available := by
    rw [List.length_append]
    exact congrArg (samples.length + ·) (r.size_read count)
  have hrest : r.cell = fun i => whole.cell (samples.length + i) := funext h.cell
  have hcell (i : Nat) : (r.read count).2.cell i = r.cell (min count r.available + i) := by
    rcases hkeep with hnone | hmargin
    · rw [read_of_zero hnone, hnone, Nat.zero_add]
    · exact cell_read hmargin count i
  obtain ⟨hfactor, hoffset, havailable, hsum⟩ := r.read_snd count
  constructor
  · rw [hfactor, h.factor]
  · rw [hoffset, h.offset]
  · have hbefore := h.available
    rw [hlength, havailable]
    omega
  · rw [hlength, render_add, ← h.handed, ← h.sum, read_fst, hrest]
  · rw [hlength, carry_add, ← h.sum, hsum, hrest]
  · intro i
    rw [hlength, hcell, h.cell, Nat.add_assoc]

/-- The samples that were read and those that wait are the samples of the whole. -/
theorem append_waiting :
    samples ++ (r.read r.available).1.toList =
      render whole.cell whole.sum whole.available := by
  rw [read_fst, Nat.min_self, ← h.available, render_add, ← h.handed, ← h.sum, funext h.cell]

end Left

/-! ### One read after the other -/

/-- Two reads are one read. -/
theorem read_add (r : Resampler) (m n : Nat) :
    r.read (m + n) = ((r.read m).1 ++ ((r.read m).2.read n).1, ((r.read m).2.read n).2) := by
  obtain ⟨_, _, havailable, hsum⟩ := r.read_snd m
  by_cases hm : min m r.available = 0
  · have hsame : r.read (m + n) = r.read n := by
      rcases Nat.min_eq_zero_iff.mp hm with rfl | hnone
      · rw [Nat.zero_add]
      · rw [read_of_zero (by omega), read_of_zero (by omega)]
    rw [read_of_zero hm, hsame]
    simp
  by_cases hn : min n (r.read m).2.available = 0
  · have hcount : min (m + n) r.available = min m r.available := by omega
    have hsame : r.read (m + n) = r.read m := by
      rw [read_of_ne_zero hm, read_of_ne_zero (by omega), hcount]
    rw [read_of_zero hn, hsame]
    simp
  have hcount : min (m + n) r.available =
      min m r.available + min n (r.read m).2.available := by omega
  have hcell : ∀ i < min n (r.read m).2.available,
      (r.read m).2.cell i = r.cell (min m r.available + i) :=
    fun i hi => r.cell_read_of_lt (by omega)
  have hleft : r.available - (min m r.available + min n (r.read m).2.available) =
      (r.read m).2.available - min n (r.read m).2.available := by omega
  have hlast : min (min m r.available + ((r.read m).2.available + margin)) (r.available + margin) =
      r.available + margin := by omega
  rw [read_of_ne_zero (by omega), hcount, render_add, carry_add, hleft, read_of_ne_zero hn,
    render_congr hcell, carry_congr hcell, hsum]
  have hcells : (r.read m).2.cells =
      r.cells.extract (min m r.available) (r.available + margin) := by
    rw [read_of_ne_zero hm]
  rw [hcells, Array.extract_extract, hlast, read_of_ne_zero hm]
  simp

end Resampler

/-! ### Removal in chunks -/

namespace StepBuffer

theorem read_add (buffer : StepBuffer) (m n : Nat) :
    (buffer.read (m + n)).2 = ((buffer.read m).2.read n).2 := by
  unfold read
  rw [Resampler.read_add]

theorem size_read (buffer : StepBuffer) (count : Nat) :
    (buffer.read count).1.size = min count buffer.available :=
  buffer.resampler.size_read count

theorem available_read (buffer : StepBuffer) (count : Nat) :
    (buffer.read count).2.available = buffer.available - min count buffer.available :=
  (buffer.resampler.read_snd count).2.2.1

/-- Chunks are read until none of `left` samples is left to remove; each chunk counts with the samples
that it handed out. -/
inductive Removes : Nat → StepBuffer → StepBuffer → Prop
  | done (buffer : StepBuffer) : Removes 0 buffer buffer
  | chunk {left : Nat} {buffer last : StepBuffer} (hleft : left ≠ 0)
      (hrest : Removes (left - (buffer.read (min left StepBuffer.chunk)).1.size)
        (buffer.read (min left StepBuffer.chunk)).2 last) : Removes left buffer last

theorem go_eq_read (left : Nat) (buffer : StepBuffer) :
    drop.go left buffer = (buffer.read left).2 := by
  induction left, buffer using drop.go.induct with
  | case1 buffer =>
    rw [drop.go, if_pos rfl]
    rfl
  | case2 left buffer hleft ih =>
    have hcount : min left chunk + (left - chunk) = left := by omega
    rw [drop.go, if_neg hleft, ih, ← read_add, hcount]

/-- Removal in chunks comes to an end, since each chunk hands out what it is asked for. -/
theorem removes_go {left : Nat} {buffer : StepBuffer} (h : left ≤ buffer.available) :
    Removes left buffer (drop.go left buffer) := by
  induction left, buffer using drop.go.induct with
  | case1 buffer =>
    rw [drop.go, if_pos rfl]
    exact .done buffer
  | case2 left buffer hleft ih =>
    have hsize : (buffer.read (min left StepBuffer.chunk)).1.size = min left StepBuffer.chunk := by
      rw [size_read]
      omega
    have hrest : left - min left StepBuffer.chunk = left - StepBuffer.chunk := by omega
    rw [drop.go, if_neg hleft]
    refine .chunk hleft ?_
    rw [hsize, hrest]
    refine ih ?_
    rw [available_read]
    omega

theorem drop_eq_read (buffer : StepBuffer) (count : Nat) :
    buffer.drop count = (buffer.read (min count buffer.available)).2 :=
  go_eq_read _ buffer

theorem removes_drop (buffer : StepBuffer) (count : Nat) :
    Removes (min count buffer.available) buffer (buffer.drop count) :=
  removes_go (Nat.min_le_right _ _)

end StepBuffer

end Chiptune
