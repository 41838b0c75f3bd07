import Chiptune.Proofs.Capacity
import Chiptune.Proofs.Reading

/-! What a cleared buffer has in common with a new one.  Clearing leaves nothing of the calls made
before (`clear_callAll`), but it puts the start of the frame half a clock after a sample, while a new
buffer starts half of the shortest clock after it.  Steps are placed in parts of `2 ^ -20` of a sample.
Two buffers whose frames start in the same part whatever the clock are `Aligned`, and give the same
replies to all requests; two that give the same replies have the same whole samples before each clock
(`AnswersAlike.position_div`). -/

namespace Chiptune

namespace Resampler

/-- The position of a clock in the parts of a sample in which steps are placed. -/
def place (r : Resampler) (time : Nat) : Nat := r.position time / twoTo 32

theorem unit_eq : unit = twoTo 32 * twoTo 20 := by decide

theorem available_endFrame (r : Resampler) (time : Nat) :
    (r.endFrame time).available = r.available + r.position time / unit := rfl

/-- A frame starts at the position at which the one before ended, less the whole samples. -/
theorem position_endFrame (r : Resampler) (time later : Nat) :
    (r.endFrame time).position later + r.position time / unit * unit = r.position (time + later) := by
  have hmod := Nat.div_add_mod' (r.position time) unit
  unfold endFrame position at *
  rw [Nat.add_mul]
  dsimp only at *
  omega

theorem position_div_unit (r : Resampler) (time : Nat) :
    r.position time / unit = r.place time / twoTo 20 := by
  rw [unit_eq, ← Nat.div_div_eq_div_mul]
  rfl

theorem clocksNeeded_le_iff_place {r : Resampler} (hpos : 0 < r.factor) (count time : Nat) :
    r.clocksNeeded count ≤ time ↔ count * twoTo 20 ≤ r.place time := by
  rw [clocksNeeded_le_iff hpos, place, Nat.le_div_iff_mul_le (twoTo_pos 32), unit_eq,
    Nat.mul_assoc, Nat.mul_comm (twoTo 20)]

/-- Frames that start at most a clock apart need at most one clock more. -/
theorem clocksNeeded_close {r r' : Resampler} (hpos : 0 < r.factor) (hfactor : r'.factor = r.factor)
    (hoffset : r'.offset ≤ r.offset + r.factor) (count : Nat) :
    r.clocksNeeded count ≤ r'.clocksNeeded count + 1 := by
  have hpos' : 0 < r'.factor := hfactor.symm ▸ hpos
  have hreached := (clocksNeeded_le_iff hpos').mp (Nat.le_refl (r'.clocksNeeded count))
  refine (clocksNeeded_le_iff hpos).mpr (hreached.trans ?_)
  unfold position
  rw [hfactor, Nat.succ_mul]
  omega

theorem clocksNeeded_clear_close {r : Resampler} (hshort : shortest ≤ r.factor)
    (hoffset : r.offset = twoTo 31) (count : Nat) :
    r.clear.clocksNeeded count ≤ r.clocksNeeded count + 1 ∧
      r.clocksNeeded count ≤ r.clear.clocksNeeded count + 1 := by
  have hhalf : twoTo 31 ≤ shortest := by decide
  have hpos : 0 < r.factor := Nat.lt_of_lt_of_le (by decide) hshort
  have hclock : r.clear.factor = r.factor := rfl
  have hstart : r.clear.offset = r.factor / 2 := rfl
  refine ⟨clocksNeeded_close (hclock ▸ hpos) hclock.symm ?_ count,
    clocksNeeded_close hpos hclock ?_ count⟩
  · omega
  · omega

/-- Two resamplers with the same samples and steps that place every clock of every later frame in the
same part of a sample. -/
structure Aligned (r r' : Resampler) : Prop where
  factor : r'.factor = r.factor
  available : r'.available = r.available
  sum : r'.sum = r.sum
  cells : r'.cells = r.cells
  place : ∀ time, r'.place time = r.place time

namespace Aligned

variable {r r' : Resampler}

theorem refl (r : Resampler) : Aligned r r := ⟨rfl, rfl, rfl, rfl, fun _ => rfl⟩

variable (h : Aligned r r')
include h

theorem clocksNeeded (hpos : 0 < r.factor) (count : Nat) :
    r'.clocksNeeded count = r.clocksNeeded count := by
  have hpos' : 0 < r'.factor := h.factor.symm ▸ hpos
  refine Nat.le_antisymm ?_ ?_
  · rw [clocksNeeded_le_iff_place hpos', h.place, ← clocksNeeded_le_iff_place hpos]
  · rw [clocksNeeded_le_iff_place hpos, ← h.place, ← clocksNeeded_le_iff_place hpos']

theorem add (time : Nat) (delta : Int32) : Aligned (r.add time delta) (r'.add time delta) := by
  have hplace : r'.position time / twoTo 32 = r.position time / twoTo 32 := h.place time
  refine ⟨?_, ?_, ?_, ?_, ?_⟩
  · rw [add_factor, add_factor, h.factor]
  · rw [add_available, add_available, h.available]
  · rw [add_sum, add_sum, h.sum]
  · unfold Resampler.add
    simp only [hplace, h.cells, h.available]
  · intro later
    unfold Resampler.place
    rw [add_position, add_position]
    exact h.place later

/-- The end of a frame moves both frames on by the same whole samples. -/
theorem endFrame (time : Nat) : Aligned (r.endFrame time) (r'.endFrame time) := by
  have hwhole : r'.position time / unit = r.position time / unit := by
    rw [position_div_unit, position_div_unit, h.place]
  have hplace (r : Resampler) (later : Nat) :
      (r.endFrame time).place later + r.position time / unit * twoTo 20 =
        r.place (time + later) := by
    have hwhole : r.position time / unit * unit =
        r.position time / unit * twoTo 20 * twoTo 32 := by
      rw [Nat.mul_assoc, Nat.mul_comm (twoTo 20), ← unit_eq]
    rw [Resampler.place, Resampler.place, ← position_endFrame, hwhole,
      Nat.add_mul_div_right _ _ (twoTo_pos 32)]
  refine ⟨h.factor, ?_, h.sum, h.cells, ?_⟩
  · show r'.available + r'.position time / unit = r.available + r.position time / unit
    rw [h.available, hwhole]
  · intro later
    have hr := hplace r later
    have hr' := hplace r' later
    rw [h.place, hwhole] at hr'
    omega

theorem read (count : Nat) :
    (r'.read count).1 = (r.read count).1 ∧ Aligned (r.read count).2 (r'.read count).2 := by
  have hcell : r'.cell = r.cell := by
    funext i
    unfold cell
    rw [h.cells]
  have hplace (r : Resampler) (time : Nat) : (r.read count).2.place time = r.place time := by
    obtain ⟨hfactor, hoffset, _⟩ := r.read_snd count
    unfold Resampler.place position
    rw [hfactor, hoffset]
  by_cases hnone : min count r.available = 0
  · rw [read_of_zero hnone, read_of_zero (h.available.symm ▸ hnone)]
    exact ⟨rfl, h⟩
  · have hsame : r'.read count = ((r.read count).1,
        { (r.read count).2 with factor := r'.factor, offset := r'.offset }) := by
      rw [read_of_ne_zero hnone, read_of_ne_zero (h.available.symm ▸ hnone), hcell, h.sum, h.cells,
        h.available]
    refine ⟨by rw [hsame], ?_, ?_, ?_, ?_, fun time => ?_⟩
    · rw [(r.read_snd count).1, (r'.read_snd count).1, h.factor]
    · rw [hsame]
    · rw [hsame]
    · rw [hsame]
    · rw [hplace, hplace, h.place]

theorem clear : Aligned r.clear r'.clear := by
  unfold Resampler.clear
  rw [h.factor]
  exact .refl _

end Aligned

end Resampler

namespace StepBuffer

/-! ### Requests -/

/-- What a host may ask of a buffer or about it. -/
inductive Request where
  | call (call : Call)
  | available
  | frameCapacity
  | countClocks (count : Nat)

/-- What a buffer answers. -/
inductive Reply where
  | done
  | refused (fault : Fault)
  | samples (samples : Array Int16)
  | count (n : Nat)
  deriving DecidableEq

/-- The answer to a request. -/
def reply (buffer : StepBuffer) : Request → Reply
  | .call (.add time delta) =>
    match buffer.add time delta with
    | .ok _ => .done
    | .error fault => .refused fault
  | .call (.read count) => .samples (buffer.read count).1
  | .call _ => .done
  | .available => .count buffer.available
  | .frameCapacity => .count buffer.frameCapacity
  | .countClocks count => .count (buffer.countClocks count)

/-- The buffer after a request. -/
def served (buffer : StepBuffer) : Request → StepBuffer
  | .call call => buffer.call call
  | _ => buffer

/-- The answers to requests, one after the other. -/
def replies (buffer : StepBuffer) : List Request → List Reply
  | [] => []
  | request :: requests => buffer.reply request :: (buffer.served request).replies requests

/-- No requests tell the buffers apart. -/
def AnswersAlike (buffer buffer' : StepBuffer) : Prop :=
  ∀ requests, buffer'.replies requests = buffer.replies requests

theorem reply_add (buffer : StepBuffer) (time delta : Int) :
    buffer.reply (.call (.add time delta)) =
      if buffer.accepts time then .done
      else .refused (.frameOverflow time buffer.frameCapacity) := by
  show (match buffer.add time delta with
    | .ok _ => Reply.done
    | .error fault => .refused fault) = _
  unfold add
  by_cases h : buffer.accepts time = true
  · rw [if_pos h, if_pos h]
  · rw [if_neg h, if_neg h]

/-- Two buffers of one size with aligned resamplers. -/
structure Aligned (buffer buffer' : StepBuffer) : Prop where
  size : buffer'.size = buffer.size
  resampler : buffer.resampler.Aligned buffer'.resampler
  factor_pos : 0 < buffer.resampler.factor

namespace Aligned

variable {buffer buffer' : StepBuffer} (h : Aligned buffer buffer')
include h

theorem available : buffer'.available = buffer.available := h.resampler.available

theorem room : buffer'.room = buffer.room := by
  unfold StepBuffer.room
  rw [h.size, h.available]

theorem frameCapacity : buffer'.frameCapacity = buffer.frameCapacity := by
  unfold StepBuffer.frameCapacity
  rw [h.room, h.resampler.clocksNeeded h.factor_pos]

theorem countClocks (count : Nat) : buffer'.countClocks count = buffer.countClocks count := by
  unfold StepBuffer.countClocks
  rw [h.room, h.resampler.clocksNeeded h.factor_pos]

theorem accepts (time : Int) : buffer'.accepts time = buffer.accepts time := by
  unfold StepBuffer.accepts
  rw [h.frameCapacity]

theorem put (time delta : Int) : Aligned (buffer.put time delta) (buffer'.put time delta) := by
  unfold StepBuffer.put
  refine ⟨h.size, h.resampler.add _ _, ?_⟩
  dsimp only
  rw [Resampler.add_factor]
  exact h.factor_pos

theorem read (count : Nat) :
    (buffer'.read count).1 = (buffer.read count).1 ∧
      Aligned (buffer.read count).2 (buffer'.read count).2 := by
  obtain ⟨hsamples, hrest⟩ := h.resampler.read count
  refine ⟨hsamples, h.size, hrest, ?_⟩
  show 0 < (buffer.resampler.read count).2.factor
  rw [(buffer.resampler.read_snd count).1]
  exact h.factor_pos

theorem call (call : Call) : Aligned (buffer.call call) (buffer'.call call) := by
  cases call with
  | add time delta =>
    rw [call_add, call_add, h.accepts]
    split
    · exact h.put time delta
    · exact h
  | endFrame time =>
    refine ⟨h.size, ?_, h.factor_pos⟩
    show Resampler.Aligned (buffer.resampler.endFrame _) (buffer'.resampler.endFrame _)
    rw [h.frameCapacity]
    exact h.resampler.endFrame _
  | read count => exact (h.read count).2
  | drop count =>
    show Aligned (buffer.drop count) (buffer'.drop count)
    rw [drop_eq_read, drop_eq_read, h.available]
    exact (h.read _).2
  | clear => exact ⟨h.size, h.resampler.clear, h.factor_pos⟩

theorem reply (request : Request) : buffer'.reply request = buffer.reply request := by
  cases request with
  | call call =>
    cases call with
    | add time delta => rw [reply_add, reply_add, h.accepts, h.frameCapacity]
    | read count => exact congrArg Reply.samples (h.read count).1
    | _ => rfl
  | available => exact congrArg Reply.count h.available
  | frameCapacity => exact congrArg Reply.count h.frameCapacity
  | countClocks count => exact congrArg Reply.count (h.countClocks count)

theorem served (request : Request) : Aligned (buffer.served request) (buffer'.served request) := by
  cases request with
  | call call => exact h.call call
  | _ => exact h

/-- Aligned buffers give the same answers for ever. -/
theorem answersAlike : buffer.AnswersAlike buffer' := by
  intro requests
  induction requests generalizing buffer buffer' with
  | nil => rfl
  | cons request requests ih =>
    rw [StepBuffer.replies, StepBuffer.replies, h.reply, ih (h.served request)]

end Aligned

/-! ### Counts that differ -/

namespace AnswersAlike

variable {buffer buffer' : StepBuffer} (h : AnswersAlike buffer buffer')
include h

theorem reply (request : Request) : buffer'.reply request = buffer.reply request :=
  (List.cons.inj (h [request])).1

theorem served (request : Request) : AnswersAlike (buffer.served request) (buffer'.served request) :=
  fun requests => (List.cons.inj (h (request :: requests))).2

theorem available : buffer'.available = buffer.available := Reply.count.inj (h.reply .available)

end AnswersAlike

/-- The buffer after a frame of one clock whose samples are dropped. -/
def tick (buffer : StepBuffer) : StepBuffer := (buffer.endFrame 1).drop buffer.size

/-- A buffer with room for a sample has room for a clock. -/
theorem Bounded.frameCapacity_pos {buffer : StepBuffer} {size : Nat} (h : buffer.Bounded size)
    (hroom : 0 < buffer.room) : 0 < buffer.frameCapacity := by
  refine Nat.pos_of_ne_zero fun hzero => ?_
  have hreached := (Resampler.clocksNeeded_le_iff h.factor_pos).mp (Nat.le_of_eq hzero)
  have hwhole : Resampler.unit ≤ buffer.room * Resampler.unit := Nat.le_mul_of_pos_left _ hroom
  have hoffset := h.offset_lt
  unfold Resampler.position at hreached
  omega

section Tick

variable {buffer : StepBuffer} {size : Nat} (h : buffer.Bounded size) (hempty : buffer.available = 0)
  (hsize : 0 < buffer.size)
include h hempty hsize

theorem endFrame_one :
    (buffer.endFrame 1).resampler = buffer.resampler.endFrame 1 := by
  refine endFrame_of_le (h.frameCapacity_pos ?_)
  unfold room maxFrame
  omega

theorem available_endFrame_one :
    (buffer.endFrame 1).available = buffer.resampler.position 1 / Resampler.unit := by
  unfold available at hempty
  rw [available, endFrame_one h hempty hsize, Resampler.available_endFrame, hempty, Nat.zero_add]

omit hempty hsize in
theorem available_tick : buffer.tick.available = 0 := by
  have hle : (buffer.endFrame 1).available ≤ buffer.size := h.endFrame_available_le 1
  unfold tick
  rw [drop_eq_read, available_read]
  omega

theorem position_tick (time : Nat) :
    buffer.tick.resampler.position time = (buffer.resampler.endFrame 1).position time := by
  unfold tick
  rw [drop_eq_read]
  obtain ⟨hfactor, hoffset, _⟩ := (buffer.endFrame 1).resampler.read_snd
    (min buffer.size (buffer.endFrame 1).available)
  rw [endFrame_one h hempty hsize] at hfactor hoffset
  unfold read Resampler.position
  dsimp only
  rw [endFrame_one h hempty hsize, hfactor, hoffset]

/-- The whole samples before a clock are those of the first clock and those of the others after
it. -/
theorem position_succ_div (time : Nat) :
    buffer.resampler.position (time + 1) / Resampler.unit =
      buffer.tick.resampler.position time / Resampler.unit +
        buffer.resampler.position 1 / Resampler.unit := by
  rw [position_tick h hempty hsize, Nat.add_comm time, ← Resampler.position_endFrame,
    Nat.add_mul_div_right _ _ Resampler.unit_pos]

end Tick

/-- Empty buffers that answer alike have as many whole samples before each clock. -/
theorem AnswersAlike.position_div {buffer buffer' : StepBuffer} {size : Nat} (hsize : 0 < size)
    (halike : buffer.AnswersAlike buffer') (h : buffer.Bounded size) (h' : buffer'.Bounded size)
    (hempty : buffer.available = 0) (time : Nat) :
    buffer'.resampler.position time / Resampler.unit =
      buffer.resampler.position time / Resampler.unit := by
  -- Each clock is asked for in a frame of its own, since the whole time may lie past the horizon.
  induction time generalizing buffer buffer' with
  | zero =>
    have hzero {buffer : StepBuffer} (h : buffer.Bounded size) :
        buffer.resampler.position 0 / Resampler.unit = 0 := by
      unfold Resampler.position
      rw [Nat.zero_mul, Nat.zero_add]
      exact Nat.div_eq_of_lt h.offset_lt
    rw [hzero h, hzero h']
  | succ time ih =>
    have hempty' : buffer'.available = 0 := halike.available.trans hempty
    have hroom : 0 < buffer.size := h.size_eq.symm ▸ hsize
    have hroom' : 0 < buffer'.size := h'.size_eq.symm ▸ hsize
    have hended := halike.served (.call (.endFrame 1))
    have hfirst := hended.available
    have hticked : buffer.tick.AnswersAlike buffer'.tick := by
      have hdropped := hended.served (.call (.drop size))
      rw [← h.size_eq] at hdropped
      rwa [tick, tick, h'.size_eq, ← h.size_eq]
    change (buffer'.endFrame 1).available = (buffer.endFrame 1).available at hfirst
    rw [available_endFrame_one h hempty hroom, available_endFrame_one h' hempty' hroom'] at hfirst
    rw [position_succ_div h hempty hroom, position_succ_div h' hempty' hroom', hfirst,
      ih hticked ((h.endFrame 1).drop _) ((h'.endFrame 1).drop _) (available_tick h)]

/-! ### Clearing -/

/-- A cleared buffer keeps the length of a clock and nothing else of its resampler. -/
theorem clear_congr {buffer : StepBuffer} {resampler : Resampler}
    (h : resampler.factor = buffer.resampler.factor) :
    { buffer with resampler }.clear = buffer.clear := by
  unfold clear Resampler.clear
  rw [h]

/-- Nothing of a call is left after the buffer is cleared. -/
theorem clear_call (buffer : StepBuffer) (call : Call) : (buffer.call call).clear = buffer.clear := by
  have hread (count : Nat) : (buffer.read count).2.clear = buffer.clear :=
    clear_congr (buffer.resampler.read_snd count).1
  cases call with
  | add time delta =>
    rw [call_add]
    split
    · exact clear_congr (Resampler.add_factor _ _ _)
    · rfl
  | endFrame time => rfl
  | read count => exact hread count
  | drop count =>
    show (buffer.drop count).clear = buffer.clear
    rw [drop_eq_read, hread]
  | clear => rfl

theorem clear_callAll (buffer : StepBuffer) (calls : List Call) :
    (buffer.callAll calls).clear = buffer.clear := by
  induction calls generalizing buffer with
  | nil => rfl
  | cons call calls ih => exact (ih (buffer.call call)).trans (buffer.clear_call call)

end StepBuffer

/-! ### A cleared buffer beside a new one -/

/-- At the largest ratio a clock is the shortest. -/
theorem Resampler.factorOf_maxRatio {sampleRate : Nat} (h : 0 < sampleRate) :
    factorOf sampleRate (StepBuffer.maxRatio * sampleRate) = twoTo 32 := by
  have hunit : unit = twoTo 32 * StepBuffer.maxRatio := by decide
  have hquotient : unit * sampleRate / (StepBuffer.maxRatio * sampleRate) = twoTo 32 := by
    rw [Nat.mul_div_mul_right _ _ h]
    decide
  have hshift : 52 - Nat.log2 (twoTo 32) = 20 := by decide
  have hexact : unit * sampleRate * twoTo 20 =
      twoTo 32 * twoTo 20 * (StepBuffer.maxRatio * sampleRate) := by
    rw [hunit]
    simp only [Nat.mul_assoc, Nat.mul_comm (twoTo 20)]
  have hpos : 0 < StepBuffer.maxRatio * sampleRate := Nat.mul_pos (by decide) h
  unfold factorOf Binary64.ratio
  simp only [hquotient, hshift, hexact, roundDiv_mul_self _ _ hpos]
  decide

namespace StepBuffer

/-- A cleared buffer is the new one with another start of the frame, whatever was asked of it before.
It is the same just if half of its clock is half of the shortest one; it answers alike if the two starts
place every clock in the same part of a sample, and only if they place it in the same sample.  The
counts of clocks are at most one apart. -/
theorem cleared_answers_as_new {sampleRate clockRate lengthMs : Nat} {fresh : StepBuffer}
    (hcreate : StepBuffer.create sampleRate clockRate lengthMs = .ok fresh) (calls : List Call) :
    let cleared := (fresh.callAll calls).clear
    let factor := Resampler.factorOf sampleRate clockRate
    cleared = { fresh with resampler := { fresh.resampler with offset := factor / 2 } } ∧
      (cleared = fresh ↔ factor / 2 = twoTo 31) ∧
      (clockRate = maxRatio * sampleRate → cleared = fresh) ∧
      ((∀ time, (time * factor + factor / 2) / twoTo 32 = (time * factor + twoTo 31) / twoTo 32) →
        fresh.AnswersAlike cleared) ∧
      (fresh.AnswersAlike cleared → ∀ time,
        (time * factor + factor / 2) / Resampler.unit =
          (time * factor + twoTo 31) / Resampler.unit) ∧
      (∀ count, cleared.countClocks count ≤ fresh.countClocks count + 1 ∧
        fresh.countClocks count ≤ cleared.countClocks count + 1) ∧
      cleared.frameCapacity ≤ fresh.frameCapacity + 1 ∧
        fresh.frameCapacity ≤ cleared.frameCapacity + 1 := by
  intro cleared factor
  have hclear : cleared = fresh.clear := clear_callAll fresh calls
  clear_value cleared
  subst hclear
  obtain ⟨hbounded, _⟩ := bounded_create hcreate
  obtain ⟨hsample, _, _, _, hfresh⟩ := create_eq_ok hcreate
  have hresampler : fresh.resampler = .create sampleRate clockRate := by rw [hfresh]
  have hsize : 0 < fresh.size := by
    have hsome : 0 < sampleRate * (lengthMs + 1) := Nat.mul_pos hsample (Nat.succ_pos _)
    rw [hfresh]
    dsimp only
    unfold ceilDiv
    omega
  have hfactor : fresh.resampler.factor = factor := by
    rw [hresampler]
    rfl
  have hoffset : fresh.resampler.offset = twoTo 31 := by
    rw [hresampler]
    rfl
  have hfields : fresh.clear =
      { fresh with resampler := { fresh.resampler with offset := factor / 2 } } := by
    unfold clear Resampler.clear
    rw [hresampler]
    rfl
  have hsame : fresh.clear = fresh ↔ factor / 2 = twoTo 31 := by
    rw [hfields]
    refine ⟨fun heq => ?_, fun heq => ?_⟩
    · exact (congrArg (fun buffer => buffer.resampler.offset) heq).trans hoffset
    · rw [heq, ← hoffset]
  have hempty : fresh.available = 0 := by
    unfold available
    rw [hresampler]
    rfl
  have hroom : fresh.clear.room = fresh.room := by
    rw [hfields]
    rfl
  have hclose := Resampler.clocksNeeded_clear_close hbounded.factor_ge hoffset
  refine ⟨hfields, hsame, ?_, fun hplace => ?_, fun halike time => ?_, fun count => ?_, ?_⟩
  · rintro rfl
    refine hsame.mpr ?_
    show Resampler.factorOf sampleRate (maxRatio * sampleRate) / 2 = twoTo 31
    rw [Resampler.factorOf_maxRatio hsample]
    decide
  · rw [hfields]
    refine Aligned.answersAlike ⟨rfl, ⟨rfl, rfl, rfl, rfl, fun time => ?_⟩, hbounded.factor_pos⟩
    unfold Resampler.place Resampler.position
    rw [hfactor, hoffset]
    exact hplace time
  · have hwhole := halike.position_div hsize hbounded hbounded.clear hempty time
    rw [hfields] at hwhole
    unfold Resampler.position at hwhole
    rwa [hfactor, hoffset] at hwhole
  · unfold countClocks
    rw [hroom]
    exact hclose _
  · unfold frameCapacity
    rw [hroom]
    exact hclose _

/-- A clock of one and a half times the shortest: the cleared buffer is another than the new one, but
answers alike. -/
theorem cleared_answers_as_new_of_three_halves :
    ∃ fresh, StepBuffer.create 3 (2 * maxRatio) 250 = .ok fresh ∧
      (fresh.callAll overlong).clear ≠ fresh ∧
      fresh.AnswersAlike (fresh.callAll overlong).clear := by
  obtain ⟨fresh, hcreate, _⟩ := exists_ok (StepBuffer.create 3 (2 * maxRatio) 250)
    (fun _ => true) (by decide +kernel)
  have hfactor : Resampler.factorOf 3 (2 * maxRatio) = 3 * twoTo 31 := by decide +kernel
  obtain ⟨_, hsame, _, halike, _⟩ := cleared_answers_as_new hcreate overlong
  rw [hfactor] at hsame halike
  refine ⟨fresh, hcreate, fun heq => absurd (hsame.mp heq) (by decide), halike fun time => ?_⟩
  have hpart : twoTo 32 = 4294967296 := by decide
  have hstart : twoTo 31 = 2147483648 := by decide
  rw [hpart, hstart]
  omega

/-- Three frames of 20 clocks, then the horizon. -/
def threeFrames : List Request :=
  [.call (.endFrame 20), .call (.endFrame 20), .call (.endFrame 20), .frameCapacity]

/-- A new buffer for 250 ms at 44100 Hz and a cleared one come to different horizons. -/
theorem horizon_tells_cleared :
    ∃ fresh, StepBuffer.create 44100 1789773 250 = .ok fresh ∧
      fresh.replies threeFrames = [.done, .done, .done, .count 162319] ∧
      (fresh.callAll []).clear.replies threeFrames = [.done, .done, .done, .count 162318] := by
  obtain ⟨fresh, hcreate, hreplies⟩ := exists_ok (StepBuffer.create 44100 1789773 250)
    (fun fresh => fresh.replies threeFrames = [.done, .done, .done, .count 162319] ∧
      (fresh.callAll []).clear.replies threeFrames = [.done, .done, .done, .count 162318])
    (by decide +kernel)
  exact ⟨fresh, hcreate, of_decide_eq_true hreplies⟩

end StepBuffer

end Chiptune
