import Chiptune.StepBuffer

/-! The samples of the resampler.  `elapsed` is the position of the frame's start, counted from the
last sample that was read; only the end of a frame and a read move it.  A read hands out the levels
of the running sum `carry` over the cells.  A step adds its `impulse` to the cells, which depends
only on its position from the first sample of all. -/

namespace Chiptune

namespace Resampler

theorem unit_pos : 0 < unit := twoTo_pos 52

/-! ### Positions -/

/-- The position of the frame's start, counted from the first sample that waits. -/
def elapsed (r : Resampler) : Nat := r.available * unit + r.offset

theorem elapsed_endFrame (r : Resampler) (time : Nat) :
    (r.endFrame time).elapsed = r.elapsed + time * r.factor := by
  have hdiv := Nat.div_add_mod' (r.position time) unit
  unfold elapsed endFrame
  rw [Nat.add_mul, Nat.add_assoc, hdiv, position]
  omega

theorem offset_endFrame_lt (r : Resampler) (time : Nat) : (r.endFrame time).offset < unit :=
  Nat.mod_lt _ unit_pos

theorem available_eq_div {r : Resampler} (h : r.offset < unit) :
    r.available = r.elapsed / unit := by
  rw [elapsed, Nat.mul_comm, Nat.mul_add_div unit_pos, Nat.div_eq_of_lt h, Nat.add_zero]

theorem clocksNeeded_mono {r r' : Resampler} (hfactor : r'.factor = r.factor)
    (hoffset : r'.offset = r.offset) {count count' : Nat} (h : count ≤ count') :
    r.clocksNeeded count ≤ r'.clocksNeeded count' := by
  have hle := Nat.mul_le_mul_right unit h
  unfold clocksNeeded
  rw [hfactor, hoffset]
  split
  · exact Nat.zero_le _
  · rw [if_neg (by omega)]
    exact Nat.div_le_div_right (by omega)

/-! ### Reads -/

/-- The running sum after `n` cells. -/
def carry (cell : Nat → Int32) (sum : Int32) : Nat → Int32
  | 0 => sum
  | n + 1 => leak (carry cell sum n) (cell n)

/-- The samples of the first `n` cells. -/
def render (cell : Nat → Int32) (sum : Int32) (n : Nat) : List Int16 :=
  (List.range n).map fun i => (levelOf (carry cell sum i)).toInt16

theorem length_render (cell : Nat → Int32) (sum : Int32) (n : Nat) :
    (render cell sum n).length = n := by
  simp [render]

theorem carry_add (cell : Nat → Int32) (sum : Int32) (m n : Nat) :
    carry cell sum (m + n) = carry (fun i => cell (m + i)) (carry cell sum m) n := by
  induction n with
  | zero => rfl
  | succ n ih => rw [Nat.add_succ, carry, ih, carry]

theorem render_add (cell : Nat → Int32) (sum : Int32) (m n : Nat) :
    render cell sum (m + n) =
      render cell sum m ++ render (fun i => cell (m + i)) (carry cell sum m) n := by
  simp [render, List.range_add, carry_add, Function.comp_def]

theorem carry_congr {cell cell' : Nat → Int32} {sum : Int32} {n : Nat}
    (h : ∀ i < n, cell i = cell' i) : carry cell sum n = carry cell' sum n := by
  induction n with
  | zero => rfl
  | succ n ih => rw [carry, carry, ih fun i hi => h i (by omega), h n (by omega)]

theorem render_congr {cell cell' : Nat → Int32} {sum : Int32} {n : Nat}
    (h : ∀ i < n, cell i = cell' i) : render cell sum n = render cell' sum n := by
  refine List.map_congr_left ?_
  intro i hi
  have hi : i < n := List.mem_range.mp hi
  rw [carry_congr fun j hj => h j (by omega)]

/-- Cell `i` of the resampler. -/
def cell (r : Resampler) (i : Nat) : Int32 := r.cells.getD i 0

theorem fold_read (cells : Array Int32) (sum : Int32) (n : Nat) :
    n.fold (fun i _ (samples, sum) =>
        (samples.push (levelOf sum).toInt16, leak sum (cells.getD i 0)))
        ((#[] : Array Int16), sum) =
      ((render (cells.getD · 0) sum n).toArray, carry (cells.getD · 0) sum n) := by
  induction n with
  | zero => rfl
  | succ n ih =>
    rw [Nat.fold_succ, ih]
    simp [render, List.range_succ, carry]

theorem read_of_ne_zero {r : Resampler} {count : Nat} (h : min count r.available ≠ 0) :
    r.read count =
      ((render r.cell r.sum (min count r.available)).toArray,
        { r with
          available := r.available - min count r.available
          sum := carry r.cell r.sum (min count r.available)
          cells := r.cells.extract (min count r.available) (r.available + margin) }) := by
  unfold read
  simp only [if_neg h, fold_read]
  rfl

theorem read_of_zero {r : Resampler} {count : Nat} (h : min count r.available = 0) :
    r.read count = (#[], r) := by
  unfold read
  simp only [if_pos h]

theorem read_fst (r : Resampler) (count : Nat) :
    (r.read count).1.toList = render r.cell r.sum (min count r.available) := by
  by_cases h : min count r.available = 0
  · rw [read_of_zero h, h]
    rfl
  · rw [read_of_ne_zero h]

theorem size_read (r : Resampler) (count : Nat) :
    (r.read count).1.size = min count r.available := by
  rw [← Array.length_toList, read_fst, length_render]

/-- A read takes its samples off those that wait and carries the running sum on. -/
theorem read_snd (r : Resampler) (count : Nat) :
    (r.read count).2.factor = r.factor ∧ (r.read count).2.offset = r.offset ∧
      (r.read count).2.available = r.available - min count r.available ∧
      (r.read count).2.sum = carry r.cell r.sum (min count r.available) := by
  by_cases h : min count r.available = 0
  · rw [read_of_zero h, h]
    exact ⟨rfl, rfl, rfl, rfl⟩
  · rw [read_of_ne_zero h]
    exact ⟨rfl, rfl, rfl, rfl⟩

theorem elapsed_read (r : Resampler) (count : Nat) :
    (r.read count).2.elapsed + (r.read count).1.size * unit = r.elapsed := by
  obtain ⟨_, hoffset, havailable, _⟩ := r.read_snd count
  have hsplit := Nat.sub_mul r.available (min count r.available) unit
  have hle := Nat.mul_le_mul_right unit (Nat.min_le_right count r.available)
  rw [elapsed, elapsed, size_read, hoffset, havailable]
  omega

/-- A read moves the cells down, if none past the margin is in use. -/
theorem cell_read {r : Resampler} (hmargin : ∀ i, r.available + margin ≤ i → r.cell i = 0)
    (count i : Nat) :
    (r.read count).2.cell i = r.cell (min count r.available + i) := by
  by_cases h : min count r.available = 0
  · rw [read_of_zero h, h, Nat.zero_add]
  · rw [read_of_ne_zero h]
    show (r.cells.extract (min count r.available) (r.available + margin)).getD i 0 =
      r.cells.getD (min count r.available + i) 0
    by_cases hin : r.available + margin ≤ min count r.available + i
    · have hzero : r.cells.getD (min count r.available + i) 0 = 0 := hmargin _ hin
      rw [hzero, Array.getD_eq_getD_getElem?, Array.getElem?_extract, if_neg (by omega)]
      rfl
    · rw [Array.getD_eq_getD_getElem?, Array.getD_eq_getD_getElem?, Array.getElem?_extract]
      split
      · rfl
      · rw [Array.getElem?_eq_none (by omega)]

/-! ### Steps -/

/-- What a step by `delta` at a position adds to cell `n`, both counted from the first sample. -/
def impulse (position : Nat) (delta : Int32) (n : Nat) : Int32 :=
  let fixed := position / twoTo 32
  let start := fixed / twoTo 20
  if start ≤ n ∧ n < start + width then
    Kernel.blend delta (fixed / twoTo 15 % 32) (fixed % twoTo 15) (n - start)
  else 0

theorem getD_modify (cells : Array Int32) {i : Nat} (hi : i < cells.size) (tap : Int32) (n : Nat) :
    (cells.modify i (· + tap)).getD n 0 = cells.getD n 0 + if n = i then tap else 0 := by
  rw [Array.getD_eq_getD_getElem?, Array.getElem?_modify, Array.getD_eq_getD_getElem?]
  by_cases h : n = i
  · subst h
    rw [if_pos rfl, if_pos rfl, Array.getElem?_eq_getElem hi]
    rfl
  · rw [if_neg (fun h' => h h'.symm), if_neg h, Int32.add_zero]

/-- The taps of an impulse are added one after the other. -/
theorem getD_fold_modify (cells : Array Int32) (start : Nat) (tap : Nat → Int32) (n m : Nat)
    (hsize : start + m ≤ cells.size) :
    (m.fold (fun i _ cells => cells.modify (start + i) (· + tap i)) cells).size = cells.size ∧
      (m.fold (fun i _ cells => cells.modify (start + i) (· + tap i)) cells).getD n 0 =
        cells.getD n 0 + if start ≤ n ∧ n < start + m then tap (n - start) else 0 := by
  induction m with
  | zero =>
    refine ⟨rfl, ?_⟩
    rw [if_neg (by omega), Int32.add_zero]
    rfl
  | succ m ih =>
    obtain ⟨hkeep, hsum⟩ := ih (by omega)
    rw [Nat.fold_succ]
    refine ⟨Array.size_modify.trans hkeep, ?_⟩
    rw [getD_modify _ (by omega), hsum, Int32.add_assoc]
    congr 1
    by_cases hlast : n = start + m
    · subst hlast
      rw [if_neg (by omega), if_pos rfl, if_pos (by omega), Int32.zero_add,
        Nat.add_sub_cancel_left]
    · rw [if_neg hlast, Int32.add_zero]
      by_cases hin : start ≤ n ∧ n < start + m
      · rw [if_pos hin, if_pos (by omega)]
      · rw [if_neg hin, if_neg (by omega)]

theorem getD_addTaps (cells : Array Int32) (start : Nat) (tap : Nat → Int32) (n : Nat) :
    (addTaps cells start tap).getD n 0 =
      cells.getD n 0 + if start ≤ n ∧ n < start + width then tap (n - start) else 0 := by
  have hpad : (cells ++ Array.replicate (start + width - cells.size) 0).getD n 0 =
      cells.getD n 0 := by
    rw [Array.getD_eq_getD_getElem?, Array.getD_eq_getD_getElem?, Array.getElem?_append]
    split
    · rfl
    · rename_i hpast
      rw [Array.getElem?_eq_none (Nat.not_lt.mp hpast), Array.getElem?_replicate]
      split <;> rfl
  have hsize : start + width ≤
      (cells ++ Array.replicate (start + width - cells.size) (0 : Int32)).size := by
    rw [Array.size_append, Array.size_replicate]
    omega
  unfold addTaps
  simp only
  rw [(getD_fold_modify _ start tap n width hsize).2, hpad]

theorem size_addTaps (cells : Array Int32) (start : Nat) (tap : Nat → Int32) :
    (addTaps cells start tap).size = max cells.size (start + width) := by
  have hsize : (cells ++ Array.replicate (start + width - cells.size) (0 : Int32)).size =
      max cells.size (start + width) := by
    simp
    omega
  unfold addTaps
  simp only
  rw [(getD_fold_modify _ start tap 0 width (by omega)).1, hsize]

/-- A step adds its impulse, wherever the cells are counted from. -/
theorem cell_add (r : Resampler) (time : Nat) (delta : Int32) (base n : Nat) :
    (r.add time delta).cell n =
      r.cell n + impulse (base * unit + r.elapsed + time * r.factor) delta (base + n) := by
  have hunit : unit = twoTo 20 * twoTo 32 := by decide
  have hrows : twoTo 20 = 32 * twoTo 15 := by decide
  have hposition : base * unit + r.elapsed + time * r.factor =
      r.position time + (base + r.available) * twoTo 20 * twoTo 32 := by
    rw [elapsed, position, Nat.mul_assoc _ (twoTo 20), ← hunit, Nat.add_mul]
    omega
  have hfixed : (r.position time + (base + r.available) * twoTo 20 * twoTo 32) / twoTo 32 =
      r.position time / twoTo 32 + (base + r.available) * twoTo 20 :=
    Nat.add_mul_div_right _ _ (twoTo_pos 32)
  have hstart (fixed : Nat) : (fixed + (base + r.available) * twoTo 20) / twoTo 20 =
      fixed / twoTo 20 + (base + r.available) :=
    Nat.add_mul_div_right _ _ (twoTo_pos 20)
  have hrow (fixed : Nat) : (fixed + (base + r.available) * twoTo 20) / twoTo 15 % 32 =
      fixed / twoTo 15 % 32 := by
    rw [hrows, ← Nat.mul_assoc, Nat.add_mul_div_right _ _ (twoTo_pos 15),
      Nat.add_mul_mod_self_right]
  have hfraction (fixed : Nat) : (fixed + (base + r.available) * twoTo 20) % twoTo 15 =
      fixed % twoTo 15 := by
    rw [hrows, ← Nat.mul_assoc, Nat.add_mul_mod_self_right]
  unfold impulse cell add
  simp only
  rw [getD_addTaps, hposition, hfixed, hstart, hrow, hfraction]
  congr 1
  by_cases hin : r.available + r.position time / twoTo 32 / twoTo 20 ≤ n ∧
      n < r.available + r.position time / twoTo 32 / twoTo 20 + width
  · rw [if_pos hin, if_pos (by omega)]
    congr 1
    omega
  · rw [if_neg hin, if_neg (by omega)]

end Resampler

end Chiptune
