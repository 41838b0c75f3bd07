import Chiptune.Proofs.Horizon
import Mathlib.Order.Bounds.Basic

/-! The buffer stays within its bounds.  However it is used, the samples that wait never exceed its
size, the horizon is the clock at which the frame has filled the room that is left, and up to it
every position fits 64 bits and every impulse the cells (`bounded_callAll`). -/

namespace Chiptune

theorem twoTo_add (m n : Nat) : twoTo (m + n) = twoTo m * twoTo n := Nat.pow_add 2 m n

namespace Resampler

/-! ### The shortest clock -/

/-- The rounded length of a clock is not below the exact one, cut to a whole number. -/
theorem le_factorOf (sampleRate clockRate : Nat) :
    unit * sampleRate / clockRate ≤ factorOf sampleRate clockRate := by
  unfold factorOf Binary64.ratio
  generalize 52 - Nat.log2 (unit * sampleRate / clockRate) = shift
  have hpow := twoTo_pos shift
  have hround := le_roundDiv .even (unit * sampleRate * twoTo shift) clockRate
  have hceil := (ceilDiv_le_iff _ hpow _).mp (Nat.le_refl
    (ceilDiv (roundDiv .even (unit * sampleRate * twoTo shift) clockRate) (twoTo shift)))
  have hscale : unit * sampleRate / clockRate * twoTo shift ≤
      unit * sampleRate * twoTo shift / clockRate := by
    rw [Nat.mul_comm _ (twoTo shift), Nat.mul_comm _ (twoTo shift)]
    exact Nat.mul_div_le_mul_div_assoc _ _ _
  exact Nat.le_of_mul_le_mul_right (hscale.trans (hround.trans hceil)) hpow

/-- The length of a clock of more than the largest ratio, cut to a whole number. -/
def shortest : Nat := unit / (StepBuffer.maxRatio + 1)

theorem shortest_le_factorOf {sampleRate clockRate : Nat} (hsample : 0 < sampleRate)
    (hclock : 0 < clockRate) (hratio : clockRate / sampleRate ≤ StepBuffer.maxRatio) :
    shortest ≤ factorOf sampleRate clockRate := by
  have hfast : clockRate ≤ (StepBuffer.maxRatio + 1) * sampleRate :=
    Nat.le_of_lt ((Nat.div_lt_iff_lt_mul hsample).mp (Nat.lt_succ_of_le hratio))
  calc shortest = unit * sampleRate / ((StepBuffer.maxRatio + 1) * sampleRate) :=
        (Nat.mul_div_mul_right _ _ hsample).symm
    _ ≤ unit * sampleRate / clockRate := Nat.div_le_div_left hfast hclock
    _ ≤ factorOf sampleRate clockRate := le_factorOf sampleRate clockRate

/-! ### Clocks and positions -/

variable {r : Resampler} {count time : Nat}

/-- The clocks needed are the least at which the position reaches the samples. -/
theorem clocksNeeded_le_iff (hpos : 0 < r.factor) :
    r.clocksNeeded count ≤ time ↔ count * unit ≤ r.position time := by
  unfold clocksNeeded position
  split
  · omega
  · rw [ceilDiv_le_iff _ hpos]
    omega

/-- No clock passes a whole sample, so up to the clocks needed the position stays before the next
one. -/
theorem position_lt (hpos : 0 < r.factor) (hunit : r.factor ≤ unit) (hoffset : r.offset < unit)
    (h : time ≤ r.clocksNeeded count) : r.position time < (count + 1) * unit := by
  have hnext : (count + 1) * unit = count * unit + unit := Nat.succ_mul _ _
  cases time with
  | zero =>
    unfold position
    omega
  | succ time =>
    have hbefore : r.position time < count * unit := by
      rw [← Nat.not_le, ← clocksNeeded_le_iff hpos]
      omega
    have hclock : r.position (time + 1) = r.position time + r.factor := by
      unfold position
      rw [Nat.succ_mul]
      omega
    omega

theorem clocksNeeded_lt (hshort : shortest ≤ r.factor) (hcount : count ≤ StepBuffer.maxFrame) :
    r.clocksNeeded count < twoTo 32 := by
  have hpos : 0 < r.factor := Nat.lt_of_lt_of_le (by decide) hshort
  have hmost : r.clocksNeeded count ≤ twoTo 32 - 1 := by
    refine (clocksNeeded_le_iff hpos).mpr ?_
    calc count * unit ≤ StepBuffer.maxFrame * unit := Nat.mul_le_mul_right unit hcount
      _ ≤ (twoTo 32 - 1) * shortest := by decide
      _ ≤ (twoTo 32 - 1) * r.factor := Nat.mul_le_mul_left _ hshort
      _ ≤ r.position (twoTo 32 - 1) := Nat.le_add_right _ _
  have htwo := twoTo_pos 32
  omega

/-! ### Cells -/

/-- The first of the sixteen cells to which a step at clock `time` adds its impulse. -/
def firstTap (r : Resampler) (time : Nat) : Nat := r.available + r.position time / unit

theorem size_add (r : Resampler) (time : Nat) (delta : Int32) :
    (r.add time delta).cells.size = max r.cells.size (r.firstTap time + width) := by
  unfold add firstTap
  simp only
  rw [size_addTaps, Nat.div_div_eq_div_mul]
  rfl

theorem size_cells_read (r : Resampler) (count : Nat) :
    (r.read count).2.cells.size ≤ max r.cells.size ((r.read count).2.available + margin) := by
  by_cases h : min count r.available = 0
  · rw [read_of_zero h]
    exact Nat.le_max_left _ _
  · rw [read_of_ne_zero h]
    simp

end Resampler

namespace StepBuffer

/-! ### Calls -/

/-- What a host may ask of a buffer. -/
inductive Call where
  | add (time delta : Int)
  | endFrame (time : Int)
  | read (count : Nat)
  | drop (count : Nat)
  | clear

/-- The buffer after a call.  A step that is refused changes nothing. -/
def call (buffer : StepBuffer) : Call → StepBuffer
  | .add time delta =>
    match buffer.add time delta with
    | .ok next => next
    | .error _ => buffer
  | .endFrame time => buffer.endFrame time
  | .read count => (buffer.read count).2
  | .drop count => buffer.drop count
  | .clear => buffer.clear

/-- The buffer after calls, one after the other. -/
def callAll (buffer : StepBuffer) (calls : List Call) : StepBuffer := calls.foldl call buffer

theorem call_add (buffer : StepBuffer) (time delta : Int) :
    buffer.call (.add time delta) =
      if buffer.accepts time then buffer.put time delta else buffer := by
  show (match buffer.add time delta with
    | .ok next => next
    | .error _ => buffer) = _
  unfold add
  by_cases h : buffer.accepts time = true
  · rw [if_pos h, if_pos h]
  · rw [if_neg h, if_neg h]

/-- The bounds that a buffer of `size` samples keeps. -/
structure Bounded (size : Nat) (buffer : StepBuffer) : Prop where
  size_eq : buffer.size = size
  available_le : buffer.available ≤ buffer.size
  offset_lt : buffer.resampler.offset < Resampler.unit
  factor_ge : Resampler.shortest ≤ buffer.resampler.factor
  factor_le : buffer.resampler.factor ≤ Resampler.unit
  cells_le : buffer.resampler.cells.size ≤ buffer.size + Resampler.margin

theorem bounded_create {sampleRate clockRate lengthMs : Nat} {buffer : StepBuffer}
    (h : StepBuffer.create sampleRate clockRate lengthMs = .ok buffer) :
    buffer.Bounded buffer.size ∧ buffer.size < twoTo 32 := by
  obtain ⟨_, _, hunit⟩ := create_ok h
  obtain ⟨hsample, hslow, hratio, hsize, rfl⟩ := create_eq_ok h
  have hshort := Resampler.shortest_le_factorOf hsample (Nat.lt_of_lt_of_le hsample hslow) hratio
  have hoffset : twoTo 31 < Resampler.unit := by decide
  exact ⟨⟨rfl, Nat.zero_le _, hoffset, hshort, hunit, Nat.zero_le _⟩, hsize⟩

theorem endFrame_of_le {buffer : StepBuffer} {time : Nat} (h : time ≤ buffer.frameCapacity) :
    (buffer.endFrame time).resampler = buffer.resampler.endFrame time := by
  show buffer.resampler.endFrame (min time buffer.frameCapacity) = _
  rw [Nat.min_eq_left h]

theorem available_endFrame_of_le {buffer : StepBuffer} {time : Nat}
    (h : time ≤ buffer.frameCapacity) :
    (buffer.endFrame time).available = (buffer.resampler.endFrame time).available := by
  unfold available
  rw [endFrame_of_le h]

namespace Bounded

variable {buffer : StepBuffer} {size : Nat} (h : buffer.Bounded size)
include h

theorem factor_pos : 0 < buffer.resampler.factor :=
  Nat.lt_of_lt_of_le (by decide) h.factor_ge

theorem room_le : buffer.available + buffer.room ≤ buffer.size := by
  have hle := h.available_le
  unfold room
  omega

theorem position_lt {time : Nat} (htime : time ≤ buffer.frameCapacity) :
    buffer.resampler.position time < (buffer.room + 1) * Resampler.unit :=
  Resampler.position_lt h.factor_pos h.factor_le h.offset_lt htime

theorem position_div_le {time : Nat} (htime : time ≤ buffer.frameCapacity) :
    buffer.resampler.position time / Resampler.unit ≤ buffer.room :=
  Nat.le_of_lt_succ ((Nat.div_lt_iff_lt_mul Resampler.unit_pos).mpr (h.position_lt htime))

theorem endFrame_available_le (time : Int) :
    (buffer.endFrame time).available ≤ buffer.size := by
  have hdiv := h.position_div_le (Nat.min_le_right time.toNat buffer.frameCapacity)
  have hroom := h.room_le
  show buffer.available + buffer.resampler.position (min time.toNat buffer.frameCapacity) /
    Resampler.unit ≤ buffer.size
  omega

theorem tap_le {time : Nat} (htime : time ≤ buffer.frameCapacity) :
    buffer.resampler.firstTap time + Resampler.width ≤ buffer.size + Resampler.margin := by
  have hdiv := h.position_div_le htime
  have hroom := h.room_le
  have hfirst : buffer.resampler.firstTap time ≤ buffer.size := by
    show buffer.available + buffer.resampler.position time / Resampler.unit ≤ buffer.size
    omega
  exact Nat.add_le_add hfirst (by decide)

/-! ### What a call keeps -/

theorem of_samePlace {buffer' : StepBuffer} (hsame : SamePlace buffer buffer')
    (hcells : buffer'.resampler.cells.size ≤ buffer.size + Resampler.margin) :
    buffer'.Bounded size := by
  refine ⟨hsame.size.trans h.size_eq, ?_, ?_, ?_, ?_, hsame.size ▸ hcells⟩
  · unfold available
    rw [hsame.available, hsame.size]
    exact h.available_le
  · rw [hsame.offset]
    exact h.offset_lt
  · rw [hsame.factor]
    exact h.factor_ge
  · rw [hsame.factor]
    exact h.factor_le

theorem put {time : Int} (htime : buffer.accepts time = true) (delta : Int) :
    (buffer.put time delta).Bounded size := by
  have hrange := (Board.accepts_iff buffer time).mp htime
  have htap := h.tap_le (Int.toNat_le.mpr hrange.2)
  refine h.of_samePlace (.put buffer time delta) ?_
  show (buffer.resampler.add time.toNat (Int32.ofInt delta)).cells.size ≤ _
  rw [Resampler.size_add]
  exact Nat.max_le.mpr ⟨h.cells_le, htap⟩

theorem endFrame (time : Int) : (buffer.endFrame time).Bounded size :=
  ⟨h.size_eq, h.endFrame_available_le time, Resampler.offset_endFrame_lt _ _, h.factor_ge,
    h.factor_le, h.cells_le⟩

theorem read (count : Nat) : (buffer.read count).2.Bounded size := by
  obtain ⟨hfactor, hoffset, havailable, _⟩ := buffer.resampler.read_snd count
  have hcells := buffer.resampler.size_cells_read count
  have hle : (buffer.resampler.read count).2.available ≤ buffer.size := by
    have hbefore : buffer.resampler.available ≤ buffer.size := h.available_le
    omega
  have hkeep := h.cells_le
  exact ⟨h.size_eq, hle, hoffset ▸ h.offset_lt, hfactor ▸ h.factor_ge, hfactor ▸ h.factor_le,
    by show (buffer.resampler.read count).2.cells.size ≤ buffer.size + Resampler.margin; omega⟩

theorem drop (count : Nat) : (buffer.drop count).Bounded size := by
  unfold StepBuffer.drop
  generalize min count buffer.available = left
  induction left, buffer using drop.go.induct with
  | case1 buffer =>
    unfold drop.go
    rwa [if_pos rfl]
  | case2 left buffer hleft ih =>
    unfold drop.go
    rw [if_neg hleft]
    exact ih (h.read _)

theorem clear : buffer.clear.Bounded size :=
  ⟨h.size_eq, Nat.zero_le _, Nat.lt_of_le_of_lt
    (Nat.div_le_div_right h.factor_le : buffer.resampler.factor / 2 ≤ Resampler.unit / 2)
    (by decide), h.factor_ge, h.factor_le, Nat.zero_le _⟩

theorem call (request : Call) : (buffer.call request).Bounded size := by
  cases request with
  | add time delta =>
    rw [call_add]
    split
    · exact h.put ‹_› delta
    · exact h
  | endFrame time => exact h.endFrame time
  | read count => exact h.read count
  | drop count => exact h.drop count
  | clear => exact h.clear

theorem callAll (calls : List Call) : (buffer.callAll calls).Bounded size := by
  induction calls generalizing buffer with
  | nil => exact h
  | cons request calls ih => exact ih (h.call request)

/-! ### The horizon -/

theorem fills_iff (time : Nat) :
    buffer.available + buffer.room ≤ (buffer.resampler.endFrame time).available ↔
      buffer.frameCapacity ≤ time := by
  rw [frameCapacity, Resampler.clocksNeeded_le_iff h.factor_pos,
    ← Nat.le_div_iff_mul_le Resampler.unit_pos]
  exact Nat.add_le_add_iff_left

/-- The horizon is the first clock at which the frame has filled the room that is left. -/
theorem isLeast_frameCapacity :
    IsLeast {time : Nat | buffer.available + buffer.room ≤
      (buffer.resampler.endFrame time).available} buffer.frameCapacity :=
  ⟨(h.fills_iff _).mpr (Nat.le_refl _), fun time htime => (h.fills_iff time).mp htime⟩

theorem available_endFrame_frameCapacity :
    (buffer.resampler.endFrame buffer.frameCapacity).available =
      buffer.available + buffer.room :=
  Nat.le_antisymm (Nat.add_le_add_left (h.position_div_le (Nat.le_refl _)) buffer.available)
    ((h.fills_iff _).mpr (Nat.le_refl _))

theorem position_fits {time : Nat} (htime : time ≤ buffer.frameCapacity) :
    buffer.resampler.position time < twoTo 64 := by
  have hroom : buffer.room + 1 ≤ maxFrame + 1 := Nat.add_le_add_right (Nat.min_le_right _ _) 1
  calc buffer.resampler.position time < (buffer.room + 1) * Resampler.unit := h.position_lt htime
    _ ≤ (maxFrame + 1) * Resampler.unit := Nat.mul_le_mul_right _ hroom
    _ < twoTo 64 := by decide

theorem position_top_fits {time : Nat} (htime : time ≤ buffer.frameCapacity) :
    buffer.resampler.position time / twoTo 32 < twoTo 32 := by
  rw [Nat.div_lt_iff_lt_mul (twoTo_pos 32), ← twoTo_add]
  exact h.position_fits htime

end Bounded

theorem endFrame_clamps (buffer : StepBuffer) (time : Int) :
    buffer.endFrame time = buffer.endFrame (max 0 (min time buffer.frameCapacity)) := by
  have hclamp : min (max 0 (min time buffer.frameCapacity)).toNat buffer.frameCapacity =
      min time.toNat buffer.frameCapacity := by omega
  unfold endFrame
  rw [hclamp]

theorem add_of_outside {buffer : StepBuffer} {time : Int}
    (h : ¬(0 ≤ time ∧ time ≤ buffer.frameCapacity)) (delta : Int) :
    buffer.add time delta = .error (.frameOverflow time buffer.frameCapacity) := by
  unfold add
  rw [if_neg fun haccepts => h ((Board.accepts_iff buffer time).mp haccepts)]

/-- Whatever is asked of a buffer, the samples that wait never exceed its size, and the cells in use
are at most eighteen more.  The horizon and every other count of clocks fit 32 bits.  The horizon is
the first clock at which the end of the frame fills the room, and fills it exactly.  Up to it the end of
the frame keeps to the size, a position fits 64 bits and, cut to its upper half, 32, and an impulse
lies within the cells.  At any other time a step is refused and changes nothing, and the end of a frame
is moved to the nearer end of the range. -/
theorem bounded_callAll {sampleRate clockRate lengthMs : Nat} {fresh : StepBuffer}
    (hcreate : StepBuffer.create sampleRate clockRate lengthMs = .ok fresh)
    (calls : List Call) :
    let buffer := fresh.callAll calls
    let capacity := buffer.frameCapacity
    (buffer.size = fresh.size ∧ fresh.size < twoTo 32) ∧
      buffer.available ≤ buffer.size ∧
      buffer.resampler.cells.size ≤ buffer.size + Resampler.margin ∧
      (capacity < twoTo 32 ∧ ∀ count, buffer.countClocks count < twoTo 32) ∧
      (IsLeast {time : Nat | buffer.available + buffer.room ≤
          (buffer.resampler.endFrame time).available} capacity ∧
        (buffer.endFrame capacity).available = buffer.available + buffer.room) ∧
      (∀ time : Nat, time ≤ capacity →
        (buffer.endFrame time).resampler = buffer.resampler.endFrame time ∧
          (buffer.endFrame time).available ≤ buffer.size ∧
          buffer.resampler.position time < twoTo 64 ∧
          buffer.resampler.position time / twoTo 32 < twoTo 32 ∧
          buffer.resampler.firstTap time + Resampler.width ≤ buffer.size + Resampler.margin) ∧
      ∀ time : Int, ¬(0 ≤ time ∧ time ≤ capacity) →
        (∀ delta, buffer.add time delta = .error (.frameOverflow time capacity) ∧
            buffer.call (.add time delta) = buffer) ∧
          buffer.endFrame time = buffer.endFrame (max 0 (min time capacity)) := by
  intro buffer capacity
  obtain ⟨hfresh, hsize⟩ := bounded_create hcreate
  have h : buffer.Bounded fresh.size := hfresh.callAll calls
  have hleast := h.isLeast_frameCapacity
  have hroom : buffer.room ≤ maxFrame := Nat.min_le_right _ _
  refine ⟨⟨h.size_eq, hsize⟩, h.available_le, h.cells_le, ⟨?_, fun count => ?_⟩, ⟨hleast, ?_⟩, ?_, ?_⟩
  · exact Resampler.clocksNeeded_lt h.factor_ge hroom
  · exact Resampler.clocksNeeded_lt h.factor_ge ((Nat.min_le_right count buffer.room).trans hroom)
  · rw [available_endFrame_of_le (Nat.le_refl capacity)]
    exact h.available_endFrame_frameCapacity
  · intro time htime
    exact ⟨endFrame_of_le htime, h.endFrame_available_le time, h.position_fits htime,
      h.position_top_fits htime, h.tap_le htime⟩
  · intro time houtside
    refine ⟨fun delta => ?_, endFrame_clamps buffer time⟩
    rw [call_add, if_neg fun haccepts => houtside ((Board.accepts_iff _ _).mp haccepts)]
    exact ⟨add_of_outside houtside delta, rfl⟩

/-- Frames that end far past the horizon, with a step in the first, one that is refused and a read. -/
def overlong : List Call :=
  [.add 100 500, .endFrame 1000000000, .add (-1) 3, .endFrame 1000000000, .read 7,
    .endFrame 1000000000]

/-- A buffer for 250 ms at 44100 Hz is full after three frames that end past the horizon, and still
within its size. -/
theorem bounded_callAll_of_overlong :
    ∃ fresh, StepBuffer.create 44100 1789773 250 = .ok fresh ∧
      (fresh.callAll overlong).available = 11070 ∧
      (fresh.callAll overlong).available ≤ (fresh.callAll overlong).size ∧
      (fresh.callAll overlong).frameCapacity < twoTo 32 := by
  obtain ⟨fresh, hcreate, hfull⟩ := exists_ok (StepBuffer.create 44100 1789773 250)
    (fun fresh => (fresh.callAll overlong).available = 11070) (by decide +kernel)
  obtain ⟨_, hsize, _, ⟨hcapacity, _⟩, _⟩ := bounded_callAll hcreate overlong
  exact ⟨fresh, hcreate, of_decide_eq_true hfull, hsize, hcapacity⟩

end StepBuffer

end Chiptune
