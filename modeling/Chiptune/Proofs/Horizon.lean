import Chiptune.Proofs.Operation
import Chiptune.Proofs.Samples

/-! No step is lost.  Every step that a run of the chip puts out lies between the clock to which
the chip had run and the time of the operation, and no operation is accepted past the horizon of the
output (`admits_of_perform`).  So the output never clamps the end of a frame, and its samples keep
time with the clocks of the chip (`Balanced`). -/

namespace Chiptune

/-! ### The length of a clock -/

theorem roundDiv_le_succ (tie : Tie) (num den : Nat) : roundDiv tie num den ≤ num / den + 1 := by
  unfold roundDiv
  cases tie <;> grind

/-- A quotient that is not above a whole number is not rounded above it. -/
theorem roundDiv_le (tie : Tie) {num den bound : Nat} (hden : 0 < den) (h : num ≤ bound * den) :
    roundDiv tie num den ≤ bound := by
  rcases Nat.lt_or_ge (num / den) bound with hlt | hge
  · exact Nat.le_trans (roundDiv_le_succ tie num den) hlt
  · have hnum : num = bound * den :=
      Nat.le_antisymm h ((Nat.le_div_iff_mul_le hden).mp hge)
    have hexact : roundDiv tie num den = bound := by rw [hnum, roundDiv_mul_self tie bound hden]
    exact Nat.le_of_eq hexact

theorem le_roundDiv (tie : Tie) (num den : Nat) : num / den ≤ roundDiv tie num den := by
  unfold roundDiv
  cases tie <;> grind

/-- A clock is no longer than a sample, and takes some time. -/
theorem Resampler.factorOf_bounds {sampleRate clockRate : Nat} (hclock : clockRate ≠ 0)
    (hslow : sampleRate ≤ clockRate) (hfast : clockRate ≤ unit * sampleRate) :
    1 ≤ factorOf sampleRate clockRate ∧ factorOf sampleRate clockRate ≤ unit := by
  have hden : 0 < clockRate := Nat.pos_of_ne_zero hclock
  unfold factorOf Binary64.ratio
  generalize 52 - Nat.log2 (unit * sampleRate / clockRate) = shift
  constructor
  · have hone : 1 ≤ unit * sampleRate * twoTo shift / clockRate := by
      rw [Nat.le_div_iff_mul_le hden, Nat.one_mul]
      exact Nat.le_trans hfast (Nat.le_mul_of_pos_right _ (twoTo_pos shift))
    have hmantissa := Nat.le_trans hone
      (le_roundDiv .even (unit * sampleRate * twoTo shift) clockRate)
    rw [← Nat.not_lt, Nat.lt_one_iff]
    intro hzero
    have hle := (ceilDiv_le_iff _ (twoTo_pos shift) 0).mp (Nat.le_of_eq hzero)
    omega
  · refine (ceilDiv_le_iff _ (twoTo_pos shift) unit).mpr (roundDiv_le .even hden ?_)
    have hle := Nat.mul_le_mul_right (twoTo shift) (Nat.mul_le_mul_left unit hslow)
    rwa [Nat.mul_right_comm unit clockRate] at hle

namespace StepBuffer

/-- What the settings of a buffer are, once it was made. -/
theorem create_eq_ok {sampleRate clockRate lengthMs : Nat} {buffer : StepBuffer}
    (h : StepBuffer.create sampleRate clockRate lengthMs = .ok buffer) :
    0 < sampleRate ∧ sampleRate ≤ clockRate ∧ clockRate / sampleRate ≤ maxRatio ∧
      ceilDiv (sampleRate * (lengthMs + 1)) 1000 < twoTo 32 ∧
      buffer =
        { sampleRate, clockRate, lengthMs
          size := ceilDiv (sampleRate * (lengthMs + 1)) 1000
          resampler := .create sampleRate clockRate } := by
  unfold create at h
  split at h
  · cases h
  · rename_i hsample
    split at h
    · cases h
    · split at h
      · cases h
      · rename_i hrates
        dsimp only at h
        split at h
        · cases h
        · rename_i hsize
          cases h
          exact ⟨Nat.pos_of_ne_zero hsample, by omega, by omega, Nat.not_le.mp hsize, rfl⟩

theorem create_ok {sampleRate clockRate lengthMs : Nat} {buffer : StepBuffer}
    (h : StepBuffer.create sampleRate clockRate lengthMs = .ok buffer) :
    buffer.resampler.factor = Resampler.factorOf sampleRate clockRate ∧
      1 ≤ buffer.resampler.factor ∧ buffer.resampler.factor ≤ Resampler.unit := by
  obtain ⟨hsample, hslow, hratio, _, rfl⟩ := create_eq_ok h
  have hfast : clockRate ≤ Resampler.unit * sampleRate := by
    have hlt := (Nat.div_lt_iff_lt_mul hsample).mp (Nat.lt_succ_of_le hratio)
    have hunit : maxRatio + 1 ≤ Resampler.unit := by decide
    exact Nat.le_trans (Nat.le_of_lt hlt) (Nat.mul_le_mul_right sampleRate hunit)
  exact ⟨rfl, Resampler.factorOf_bounds (by omega) hslow hfast⟩

/-! ### The horizon -/

/-- A read only moves the horizon away. -/
theorem frameCapacity_le_read (buffer : StepBuffer) (count : Nat) :
    buffer.frameCapacity ≤ (buffer.read count).2.frameCapacity := by
  obtain ⟨hfactor, hoffset, havailable, _⟩ := buffer.resampler.read_snd count
  refine Resampler.clocksNeeded_mono hfactor hoffset ?_
  show min (buffer.size - buffer.resampler.available) maxFrame ≤
    min (buffer.size - (buffer.resampler.read count).2.available) maxFrame
  omega

/-- The second buffer differs from the first at most in its cells and its running sum. -/
structure SamePlace (buffer buffer' : StepBuffer) : Prop where
  size : buffer'.size = buffer.size
  factor : buffer'.resampler.factor = buffer.resampler.factor
  offset : buffer'.resampler.offset = buffer.resampler.offset
  available : buffer'.resampler.available = buffer.resampler.available

namespace SamePlace

variable {buffer buffer' buffer'' : StepBuffer}

theorem refl (buffer : StepBuffer) : SamePlace buffer buffer := ⟨rfl, rfl, rfl, rfl⟩

theorem trans (h : SamePlace buffer buffer') (h' : SamePlace buffer' buffer'') :
    SamePlace buffer buffer'' :=
  ⟨h'.size.trans h.size, h'.factor.trans h.factor, h'.offset.trans h.offset,
    h'.available.trans h.available⟩

theorem put (buffer : StepBuffer) (time delta : Int) :
    SamePlace buffer (buffer.put time delta) := by
  unfold StepBuffer.put Resampler.add
  constructor <;> dsimp only

theorem frameCapacity (h : SamePlace buffer buffer') :
    buffer'.frameCapacity = buffer.frameCapacity := by
  unfold StepBuffer.frameCapacity StepBuffer.room StepBuffer.available Resampler.clocksNeeded
  rw [h.size, h.factor, h.offset, h.available]

theorem elapsed (h : SamePlace buffer buffer') :
    buffer'.resampler.elapsed = buffer.resampler.elapsed := by
  unfold Resampler.elapsed
  rw [h.offset, h.available]

theorem symm (h : SamePlace buffer buffer') : SamePlace buffer' buffer :=
  ⟨h.size.symm, h.factor.symm, h.offset.symm, h.available.symm⟩

theorem clear (h : SamePlace buffer buffer') : SamePlace buffer.clear buffer'.clear :=
  ⟨h.size, h.factor, congrArg (· / 2) h.factor, rfl⟩

theorem endFrame (h : SamePlace buffer buffer') (time : Int) :
    SamePlace (buffer.endFrame time) (buffer'.endFrame time) := by
  unfold StepBuffer.endFrame Resampler.endFrame Resampler.position
  constructor <;> simp only [h.frameCapacity, h.size, h.factor, h.offset, h.available]

theorem read (h : SamePlace buffer buffer') (count : Nat) :
    (buffer'.read count).1.size = (buffer.read count).1.size ∧
      SamePlace (buffer.read count).2 (buffer'.read count).2 := by
  obtain ⟨hfactor, hoffset, havailable, _⟩ := buffer.resampler.read_snd count
  obtain ⟨hfactor', hoffset', havailable', _⟩ := buffer'.resampler.read_snd count
  rw [← h.factor] at hfactor
  rw [← h.offset] at hoffset
  rw [← h.available] at havailable
  refine ⟨?_, h.size, hfactor'.trans hfactor.symm, hoffset'.trans hoffset.symm,
    havailable'.trans havailable.symm⟩
  show (buffer'.resampler.read count).1.size = (buffer.resampler.read count).1.size
  rw [Resampler.size_read, Resampler.size_read, h.available]

end SamePlace

end StepBuffer

namespace Board

section Invariant

variable {P : StepBuffer → Prop} (hput : ∀ out time delta, P out → P (out.put time delta))
include hput

/-- What no step changes in the output holds after one was delivered. -/
theorem deliver_invariant (board : Board) {out : StepBuffer} (h : P out) (channel : Channel)
    (time delta : Int) : P (board.deliver out channel time delta) := by
  unfold deliver
  split
  · exact hput _ _ _ h
  · exact h

theorem conclude_invariant (board : Board) {out : StepBuffer} (h : P out) (session : Session) :
    P (board.conclude out session).2 := by
  unfold conclude
  simp only
  rw [← Array.foldl_toList]
  generalize session.steps.toList = steps
  induction steps generalizing out with
  | nil => exact h
  | cons entry rest ih =>
    rw [List.foldl_cons]
    refine ih ?_
    split
    · exact h
    · exact board.deliver_invariant hput h _ _ _

end Invariant

theorem deliver_samePlace (board : Board) (out : StepBuffer) (channel : Channel)
    (time delta : Int) : out.SamePlace (board.deliver out channel time delta) :=
  board.deliver_invariant (fun out time delta h => h.trans (.put out time delta)) (.refl out) ..

theorem conclude_samePlace (board : Board) (out : StepBuffer) (session : Session) :
    out.SamePlace (board.conclude out session).2 :=
  board.conclude_invariant (fun out time delta h => h.trans (.put out time delta)) (.refl out)
    session

/-- The output takes each step of the channels that are not muted, as it is when it gets it. -/
def Admits (board : Board) : StepBuffer → List ChannelStep → Prop
  | _, [] => True
  | out, { channel, step } :: rest =>
    if board.muted.get channel then board.Admits out rest
    else
      out.accepts step.time = true ∧
        board.Admits (board.deliver out channel step.time step.delta) rest

theorem accepts_iff (out : StepBuffer) (time : Int) :
    out.accepts time = true ↔ 0 ≤ time ∧ time ≤ out.frameCapacity := by
  simp [StepBuffer.accepts]

theorem admits_of_within (board : Board) {out : StepBuffer} {steps : List ChannelStep}
    (h : ∀ entry ∈ steps, 0 ≤ entry.step.time ∧ entry.step.time ≤ out.frameCapacity) :
    board.Admits out steps := by
  induction steps generalizing out with
  | nil => trivial
  | cons entry rest ih =>
    unfold Admits
    split
    · exact ih fun entry hentry => h entry (.tail _ hentry)
    · refine ⟨(accepts_iff _ _).mpr (h entry (.head _)), ih ?_⟩
      intro entry hentry
      rw [(board.deliver_samePlace out _ _ _).frameCapacity]
      exact h entry (.tail _ hentry)

end Board

/-! ### The times of steps -/

namespace Session

/-- The steps of a session lie within the frame and not past `stop`. -/
def Within (session : Session) (stop : Int) : Prop :=
  ∀ channel, ∀ step ∈ ChannelStep.track channel session.steps, 0 ≤ step.time ∧ step.time ≤ stop

variable {session : Session} {stop : Int}

theorem time_of_mem_emits (h : session.chip.Steady) {channel : Channel} {step : Step}
    (hstep : step ∈ session.emits stop channel) :
    session.chip.time ≤ step.time ∧ step.time ≤ stop := by
  unfold emits at hstep
  split at hstep
  · cases hstep
  · exact h.time_of_mem_steps (by omega) hstep

theorem Within.mono (h : session.Within stop) {stop' : Int} (hle : stop ≤ stop') :
    session.Within stop' := by
  intro channel step hstep
  have hbounds := h channel step hstep
  omega

theorem Within.mem (h : session.Within stop) {entry : ChannelStep}
    (hentry : entry ∈ session.steps.toList) : 0 ≤ entry.step.time ∧ entry.step.time ≤ stop := by
  refine h entry.channel entry.step (List.mem_map.mpr ⟨entry, ?_, rfl⟩)
  exact List.mem_filter.mpr ⟨hentry, by simp⟩

theorem Within.runTo (h : session.Within stop) (hchip : session.chip.Consistent) {time : Int}
    (htime : time ≤ stop) : (session.runTo time).Within stop := by
  intro channel step hstep
  rw [track_runTo, List.mem_append] at hstep
  rcases hstep with hstep | hstep
  · exact h channel step hstep
  · have hspan := time_of_mem_emits hchip.toSteady hstep
    have hnow := hchip.time_nonneg
    omega

theorem Within.of_steps {session' : Session} (h : session.Within stop)
    (hsteps : session'.steps = session.steps) : session'.Within stop := by
  unfold Within
  rw [hsteps]
  exact h

theorem Within.write (h : session.Within stop) (hchip : session.chip.Consistent) {time : Int}
    (htime : time ≤ stop) (address : UInt16) (value : UInt8) :
    (session.write time address value).Within stop := by
  cases hlocation : Location.ofAddress? address with
  | none => rwa [write_of_none hlocation]
  | some location =>
    rw [write_of_some hlocation]
    refine (h.runTo hchip htime).of_steps ?_
    rw [announce_steps, applyWrite_steps]

theorem Within.readStatus (h : session.Within stop) (hchip : session.chip.Consistent) {time : Int}
    (hnow : session.chip.time ≤ stop) (htime : time ≤ stop) :
    (session.readStatus time).2.Within stop := by
  have hearlier : max (time - 1) session.chip.time ≤ stop := by omega
  have hran := (h.runTo hchip hearlier).runTo (consistent_runTo hchip _) htime
  unfold Session.readStatus
  simp only
  split
  · exact hran.of_steps (announce_steps _)
  · exact hran

end Session

theorem Board.session_within (board : Board) (stop : Int) : board.session.Within stop := by
  intro channel step hstep
  cases hstep

/-! ### Operations -/

namespace Operation

/-- The steps of an accepted operation lie within the frame and the horizon. -/
theorem within_act {console next : Console} (h : console.board.chip.Consistent)
    (hnow : console.board.chip.time ≤ console.buffer.frameCapacity) {operation : Operation}
    {outcome : Outcome} (hperform : console.perform operation = .ok (outcome, next)) :
    (operation.act console.board.session).Within console.buffer.frameCapacity := by
  obtain ⟨_, _, htime⟩ := Console.perform_ok hperform
  have hnone := console.board.session_within console.buffer.frameCapacity
  cases operation with
  | write time address value => exact hnone.write h (htime time rfl).2 address value
  | readStatus time => exact hnone.readStatus h hnow (htime time rfl).2
  | runFrame time count => exact (hnone.runTo h (htime time rfl).2).of_steps rfl
  | _ => exact hnone.of_steps rfl

end Operation

namespace Console

/-- Whatever an operation hands to the output is taken: the steps of the channels that are not
muted, the end of a frame, which is not clamped, and the step of a channel that is muted or heard
again. -/
def Admits (console : Console) (operation : Operation) : Prop :=
  console.board.Admits console.buffer (operation.act console.board.session).steps.toList ∧
    match operation with
    | .runFrame time _ =>
      0 ≤ time ∧ time ≤ (console.absorb (console.board.session.endFrame time)).buffer.frameCapacity
    | .setMuted _ _ => console.buffer.accepts console.board.chip.time = true
    | _ => True

theorem absorb_samePlace (console : Console) (session : Session) :
    console.buffer.SamePlace (console.absorb session).buffer :=
  console.board.conclude_samePlace console.buffer session

theorem admits_of_perform {console next : Console} (h : console.board.chip.Consistent)
    (hnow : console.board.chip.time ≤ console.buffer.frameCapacity) {operation : Operation}
    {outcome : Outcome} (hperform : console.perform operation = .ok (outcome, next)) :
    console.Admits operation := by
  have hwithin := Operation.within_act h hnow hperform
  refine ⟨console.board.admits_of_within fun entry hentry => hwithin.mem hentry, ?_⟩
  cases operation with
  | runFrame time count =>
    have htime := (perform_ok hperform).2.2 time rfl
    have hzero := h.time_nonneg
    have hsame := (console.absorb_samePlace (console.board.session.endFrame time)).frameCapacity
    exact ⟨by omega, by rw [hsame]; exact htime.2⟩
  | setMuted position muted => exact (Board.accepts_iff _ _).mpr ⟨h.time_nonneg, hnow⟩
  | _ => trivial

end Console

/-! ### Accounts -/

/-- A console with the clocks of the frames that it ended and the samples that it handed out, both
since its last reset. -/
structure Account where
  console : Console
  clocks : Int := 0
  handed : Nat := 0

namespace Account

/-- Makes an operation.  One that is refused changes nothing. -/
def step (account : Account) (operation : Operation) : Account :=
  match account.console.perform operation with
  | .error _ => account
  | .ok (outcome, console) =>
    match operation with
    | .reset => { console }
    | operation =>
      { console
        clocks := account.clocks + operation.clocks
        handed := account.handed + outcome.taken.length }

/-- The chip is consistent and within the horizon, and the frame starts where its clocks put it. -/
structure Balanced (factor : Nat) (account : Account) : Prop where
  chip : account.console.board.chip.Consistent
  inTime : account.console.board.chip.time ≤ account.console.buffer.frameCapacity
  clocks_nonneg : 0 ≤ account.clocks
  factor_eq : account.console.buffer.resampler.factor = factor
  offset_lt : account.console.buffer.resampler.offset < Resampler.unit
  position : account.handed * Resampler.unit + account.console.buffer.resampler.elapsed =
    account.clocks.toNat * factor + factor / 2

theorem Balanced.samples {factor : Nat} {account : Account} (h : account.Balanced factor) :
    account.handed + account.console.buffer.available =
      (account.clocks.toNat * factor + factor / 2) / Resampler.unit := by
  have havailable : account.console.buffer.available =
      account.console.buffer.resampler.elapsed / Resampler.unit :=
    Resampler.available_eq_div h.offset_lt
  rw [← h.position, havailable, Nat.mul_comm account.handed,
    Nat.mul_add_div Resampler.unit_pos]

section Balanced

variable {factor : Nat} {console : Console} {clocks : Int} {handed : Nat}
  (h : Balanced factor { console, clocks, handed })
include h

/-- What neither ends a frame nor reads keeps the balance. -/
theorem Balanced.of_samePlace {next : Console} (hchip : next.board.chip.Consistent)
    (hbuffer : console.buffer.SamePlace next.buffer)
    (hinTime : next.board.chip.time ≤ console.buffer.frameCapacity) :
    Balanced factor { console := next, clocks, handed } where
  chip := hchip
  inTime := by
    rw [← hbuffer.frameCapacity] at hinTime
    exact hinTime
  clocks_nonneg := h.clocks_nonneg
  factor_eq := hbuffer.factor.trans h.factor_eq
  offset_lt := Nat.lt_of_le_of_lt (Nat.le_of_eq hbuffer.offset) h.offset_lt
  position := by
    rw [← h.position, hbuffer.elapsed]

theorem Balanced.read (count : Nat) :
    Balanced factor
      { console := (console.read count).2
        clocks
        handed := handed + (console.read count).1.size } := by
  obtain ⟨hfactor, hoffset, _, _⟩ := console.buffer.resampler.read_snd count
  have hcapacity := console.buffer.frameCapacity_le_read count
  have helapsed := console.buffer.resampler.elapsed_read count
  have hinTime : console.board.chip.time ≤ console.buffer.frameCapacity := h.inTime
  have hposition : handed * Resampler.unit + console.buffer.resampler.elapsed =
      clocks.toNat * factor + factor / 2 := h.position
  refine ⟨h.chip, ?_, h.clocks_nonneg, hfactor.trans h.factor_eq,
    Nat.lt_of_le_of_lt (Nat.le_of_eq hoffset) h.offset_lt, ?_⟩
  · show console.board.chip.time ≤ (console.buffer.read count).2.frameCapacity
    omega
  · show (handed + (console.buffer.resampler.read count).1.size) * Resampler.unit +
      (console.buffer.resampler.read count).2.elapsed = clocks.toNat * factor + factor / 2
    rw [Nat.add_mul]
    omega

theorem Balanced.ended {time : Int} (hnow : console.board.chip.time ≤ time)
    (htime : time ≤ console.buffer.frameCapacity) :
    Balanced factor { console := console.ended time, clocks := clocks + time, handed } := by
  have hsame := console.absorb_samePlace (console.board.session.endFrame time)
  have hzero : 0 ≤ console.board.chip.time := h.chip.time_nonneg
  have hclocks : 0 ≤ clocks := h.clocks_nonneg
  have hend : (console.ended time).buffer.resampler =
      (console.absorb (console.board.session.endFrame time)).buffer.resampler.endFrame
        time.toNat := by
    show Resampler.endFrame _ (min time.toNat _) = _
    rw [hsame.frameCapacity]
    congr 1
    omega
  have hchip : (console.ended time).board.chip = (console.board.session.endFrame time).chip :=
    console.absorb_chip _
  have hposition : handed * Resampler.unit + console.buffer.resampler.elapsed =
      clocks.toNat * factor + factor / 2 := h.position
  refine ⟨?_, ?_, by show 0 ≤ clocks + time; omega, ?_, ?_, ?_⟩
  · show (console.ended time).board.chip.Consistent
    rw [hchip]
    exact (Session.consistent_endFrame h.chip hnow).2
  · show (console.ended time).board.chip.time ≤ _
    rw [hchip, Session.endFrame_time hnow]
    exact Int.natCast_nonneg _
  · rw [hend]
    exact hsame.factor.trans h.factor_eq
  · rw [hend]
    exact Resampler.offset_endFrame_lt _ _
  · have hsum : (clocks + time).toNat = clocks.toNat + time.toNat := by omega
    show handed * Resampler.unit + (console.ended time).buffer.resampler.elapsed =
      (clocks + time).toNat * factor + factor / 2
    rw [hend, Resampler.elapsed_endFrame, hsame.elapsed, hsame.factor.trans h.factor_eq, hsum,
      Nat.add_mul]
    omega

end Balanced

theorem balanced_reset {factor : Nat} (hfactor : factor ≤ Resampler.unit) {console : Console}
    (h : console.buffer.resampler.factor = factor) :
    Balanced factor { console := console.reset } where
  chip := by
    simp only [Console.reset, Board.reset_chip]
    exact (Chip.consistent_reset _).1
  inTime := by
    simp only [Console.reset, Board.reset_chip, (Chip.consistent_reset _).2]
    exact Int.natCast_nonneg _
  clocks_nonneg := Int.le_refl 0
  factor_eq := h
  offset_lt := by
    show console.buffer.resampler.factor / 2 < Resampler.unit
    have hunit := Resampler.unit_pos
    omega
  position := by
    show 0 * Resampler.unit + (0 * Resampler.unit + console.buffer.resampler.factor / 2) = _
    rw [h]
    simp

theorem balanced_create {bus : Bus} {configuration : Configuration} {console : Console}
    (hcreate : Console.create bus configuration = .ok console) :
    let factor := Resampler.factorOf configuration.sampleRate configuration.clockRate
    (1 ≤ factor ∧ factor ≤ Resampler.unit) ∧ Balanced factor { console } := by
  intro factor
  obtain ⟨buffer, hbuffer, hconsole⟩ := Console.create_ok hcreate
  obtain ⟨hfactor, hpos, hunit⟩ := StepBuffer.create_ok hbuffer
  rw [hfactor] at hpos hunit
  refine ⟨⟨hpos, hunit⟩, ?_⟩
  rw [hconsole]
  exact balanced_reset hunit hfactor

/-- Every operation keeps the balance. -/
theorem Balanced.step {factor : Nat} (hfactor : factor ≤ Resampler.unit) {account : Account}
    (h : account.Balanced factor) (operation : Operation) :
    (account.step operation).Balanced factor := by
  obtain ⟨console, clocks, handed⟩ := account
  unfold Account.step
  cases hperform : console.perform operation with
  | error fault => exact h
  | ok result =>
    obtain ⟨outcome, next⟩ := result
    obtain ⟨hchip, _, htime⟩ := Console.perform_ok hperform
    have hconsistent : next.board.chip.Consistent := by
      rw [hchip]
      exact operation.consistent_act _ h.chip fun time ht => (htime time ht).1
    have hinTime : next.board.chip.time ≤ console.buffer.frameCapacity := by
      rw [hchip]
      exact Operation.act_time_le _ (Int.natCast_nonneg _) h.inTime htime
    have hkeep (hbuffer : console.buffer.SamePlace next.buffer) :
        Balanced factor { console := next, clocks := clocks + 0, handed := handed + 0 } := by
      rw [Int.add_zero]
      exact h.of_samePlace hconsistent hbuffer hinTime
    cases operation with
    | write time address value =>
      obtain ⟨_, hwrite, hnext⟩ := map_eq_ok hperform
      obtain ⟨rfl, rfl⟩ := Prod.mk.inj hnext
      obtain ⟨_, rfl⟩ := Console.write_ok hwrite
      exact hkeep (console.absorb_samePlace _)
    | readStatus time =>
      obtain ⟨⟨_, _⟩, hread, hnext⟩ := map_eq_ok hperform
      cases hnext
      obtain ⟨_, rfl⟩ := Console.readStatus_ok hread
      exact hkeep (console.absorb_samePlace _)
    | runFrame time count =>
      obtain ⟨⟨samples, _⟩, hrun, hnext⟩ := map_eq_ok hperform
      cases hnext
      obtain ⟨⟨hnow, hroom⟩, hread⟩ := Console.runFrame_ok hrun
      cases hread
      exact (h.ended hnow hroom).read _
    | read count =>
      obtain ⟨rfl, rfl⟩ := Prod.mk.inj (Except.ok.inj hperform)
      show Balanced factor { console := _, clocks := clocks + 0, handed := _ }
      rw [Int.add_zero]
      exact h.read count
    | setMuted position muted =>
      obtain ⟨_, hset, hnext⟩ := map_eq_ok hperform
      cases hnext
      obtain ⟨_, _, hbuffer | ⟨channel, delta, hbuffer⟩⟩ := Console.setMuted_ok hset
      · exact hkeep (hbuffer ▸ .refl console.buffer)
      · exact hkeep (hbuffer ▸ console.board.deliver_samePlace _ _ _ _)
    | reset =>
      cases hperform
      exact balanced_reset hfactor h.factor_eq
    | _ =>
      cases hperform
      exact hkeep (.refl console.buffer)

theorem Balanced.perform {factor : Nat} (hfactor : factor ≤ Resampler.unit)
    {console next : Console} {clocks : Int} {handed : Nat}
    (h : Balanced factor { console, clocks, handed }) {operation : Operation} {outcome : Outcome}
    (hperform : console.perform operation = .ok (outcome, next)) :
    ∃ clocks handed, Balanced factor { console := next, clocks, handed } := by
  have hstep := h.step hfactor operation
  have hnext : (Account.step { console, clocks, handed } operation).console = next := by
    unfold Account.step
    rw [hperform]
    cases operation <;> rfl
  rw [← hnext]
  exact ⟨_, _, hstep⟩

/-- A console from its creation on, after it was asked for `operations`. -/
def ofOperations (console : Console) (operations : List Operation) : Account :=
  operations.foldl step { console }

theorem Balanced.run {factor : Nat} (hfactor : factor ≤ Resampler.unit) {account : Account}
    (h : account.Balanced factor) (operations : List Operation) :
    (operations.foldl Account.step account).Balanced factor := by
  induction operations generalizing account with
  | nil => exact h
  | cons operation operations ih => exact ih (h.step hfactor operation)

/-- Whatever a console is asked for, and whether or not it accepts it, the output takes all that an
accepted operation hands to it, and the samples handed out and those that wait are as many as the
clocks of the frames since the last reset make, half a clock being counted for the first. -/
theorem samples_keep_time {bus : Bus} {configuration : Configuration} {console : Console}
    (hcreate : Console.create bus configuration = .ok console) (operations : List Operation) :
    let factor := Resampler.factorOf configuration.sampleRate configuration.clockRate
    let account := ofOperations console operations
    (1 ≤ factor ∧ factor ≤ Resampler.unit) ∧
      account.console.buffer.resampler.factor = factor ∧
      0 ≤ account.clocks ∧
      account.handed + account.console.buffer.available =
        (account.clocks.toNat * factor + factor / 2) / Resampler.unit ∧
      ∀ operation outcome next, account.console.perform operation = .ok (outcome, next) →
        account.console.Admits operation := by
  intro factor account
  obtain ⟨⟨hpos, hunit⟩, hstart⟩ := balanced_create hcreate
  have hrun : account.Balanced factor := hstart.run hunit operations
  exact ⟨⟨hpos, hunit⟩, hrun.factor_eq, hrun.clocks_nonneg, hrun.samples,
    fun operation outcome next => Console.admits_of_perform hrun.chip hrun.inTime⟩

/-- The operations of two frames, with a reset before them and a channel switched off in between. -/
def twoFrames : List Operation :=
  [.runFrame 1000 4, .reset, .write 10 0x4015 1, .write 20 0x4003 8, .runFrame 20000 100,
    .write 5000 0x4000 0x3F, .setMuted 0 true, .runFrame 9000 7]

/-- In two frames of together 29000 clocks at 44100 Hz a console makes 714 samples. -/
theorem samples_keep_time_of_two_frames :
    ∃ console, Console.create (.unconnected 0) .standard = .ok console ∧
      (ofOperations console twoFrames).clocks = 29000 ∧
      (ofOperations console twoFrames).handed = 107 ∧
      (ofOperations console twoFrames).console.buffer.available = 607 := by
  obtain ⟨console, hcreate, hfacts⟩ := exists_ok
    (Console.create (.unconnected 0) .standard)
    (fun console => (ofOperations console twoFrames).clocks = 29000 &&
      (ofOperations console twoFrames).handed = 107)
    (by decide +kernel)
  obtain ⟨hclocks, hhanded⟩ := Bool.and_eq_true_iff.mp hfacts
  have hclocks := of_decide_eq_true hclocks
  have hhanded := of_decide_eq_true hhanded
  refine ⟨console, hcreate, hclocks, hhanded, ?_⟩
  obtain ⟨_, _, _, hsamples, _⟩ := samples_keep_time hcreate twoFrames
  have hmade : ((29000 : Int).toNat * Resampler.factorOf 44100 1789773 +
      Resampler.factorOf 44100 1789773 / 2) / Resampler.unit = 714 := by decide +kernel
  have hsum : 107 + (ofOperations console twoFrames).console.buffer.available = 714 := by
    rw [← hhanded, hsamples, hclocks]
    exact hmade
  omega

end Account

end Chiptune
