import Chiptune.Proofs.ToneHistory

/-! The sweep of the pulses.  Its divider counts a delay down, and the mark of a write to the sweep
register makes it start over.  Seen from a history it counts up: `divider` holds the half-frame clocks
since the last reload and the delay that the reload latched, and the next clock expires it just if the
two are equal.  Only such a clock moves the period, and `sweep_follows_divider` says when and where
to. -/

namespace Chiptune

/-! ### The target -/

namespace Negation

/-- The period at which a sweep aims from `period`. -/
def aim (negation : Negation) (byte : UInt8) (period : Nat) : Int :=
  let distance : Int := (period >>> (byte.toNat % 8) : Nat)
  period + if Voice.bit byte 3 then negation.apply distance else distance

theorem distance_le (period : Nat) {shift : Nat} (h : shift ≠ 0) :
    period >>> shift ≤ period / 2 := by
  have hpow : 2 ^ 1 ≤ 2 ^ shift := Nat.pow_le_pow_right (by decide) (Nat.pos_of_ne_zero h)
  rw [Nat.shiftRight_eq_div_pow]
  exact Nat.div_le_div_left hpow (by decide)

theorem aim_eq (negation : Negation) (byte : UInt8) (period : Nat) :
    let distance := period >>> (byte.toNat % 8)
    negation.aim byte period =
      if Voice.bit byte 3 then
        (period : Int) - distance - (if negation = .onesComplement then 1 else 0)
      else (period : Int) + distance := by
  intro distance
  unfold aim
  cases Voice.bit byte 3 with
  | false => rfl
  | true => cases negation <;> simp [apply, distance] <;> omega

/-- A sweep takes half of the period at most, and one more with the ones' complement, so from 8 on
it never comes down to zero. -/
theorem le_aim (negation : Negation) {byte : UInt8} {period : Nat} (hshift : byte.toNat % 8 ≠ 0)
    (hperiod : 8 ≤ period) :
    (if negation = .onesComplement then 3 else 4) ≤ negation.aim byte period := by
  have hhalf := distance_le period hshift
  rw [aim_eq]
  generalize period >>> (byte.toNat % 8) = distance at hhalf ⊢
  by_cases hones : negation = .onesComplement
  · rw [if_pos hones, if_pos hones]
    split <;> omega
  · rw [if_neg hones, if_neg hones]
    split <;> omega

end Negation

namespace Pulse

/-- The pulse at the period to which its sweep moves it, if there is one. -/
def swept (pulse : Pulse) : Pulse :=
  match pulse.sweepTarget? with
  | some period => pulse.setPeriod period
  | none => pulse

variable (pulse : Pulse)

theorem period_le : pulse.voice.period ≤ 0x7FF := by
  have hbyte := pulse.voice.registers.third.toNat_lt
  unfold Voice.period
  omega

theorem period_setPeriod {period : Nat} (h : period < 0x800) :
    (pulse.setPeriod period).voice.period = period := by
  have hbyte := pulse.voice.registers.fourth.toNat_lt
  unfold setPeriod Voice.period
  simp only [UInt8.toNat_ofNat']
  omega

theorem period_swept :
    let byte := pulse.voice.registers.second
    let period := pulse.voice.period
    let target := pulse.negation.aim byte period
    (pulse.swept.voice.period : Int) =
      if Voice.bit byte 7 = true ∧ byte.toNat % 8 ≠ 0 ∧ 8 ≤ period ∧ target < 0x800 then target
      else period := by
  intro byte period target
  by_cases hmay : byte.toNat % 8 ≠ 0 ∧ Voice.bit byte 7 = true ∧ 8 ≤ period
  · obtain ⟨hshift, hon, hperiod⟩ := hmay
    have htarget : pulse.sweepTarget? = if target < 0x800 then some target.toNat else none :=
      if_pos ⟨hshift, hon, hperiod⟩
    have hnonneg : 0 ≤ target := by
      have hle : (if pulse.negation = .onesComplement then 3 else 4) ≤ target :=
        pulse.negation.le_aim hshift hperiod
      split at hle <;> omega
    unfold swept
    by_cases hfits : target < 0x800
    · have hset : (pulse.setPeriod target.toNat).voice.period = target.toNat :=
        pulse.period_setPeriod (by omega)
      rw [htarget, if_pos hfits, if_pos ⟨hon, hshift, hperiod, hfits⟩]
      show ((pulse.setPeriod target.toNat).voice.period : Int) = target
      rw [hset, Int.toNat_of_nonneg hnonneg]
    · rw [htarget, if_neg hfits, if_neg fun h => hfits h.2.2.2]
  · have htarget : pulse.sweepTarget? = none := if_neg hmay
    unfold swept
    rw [htarget, if_neg fun h => hmay ⟨h.2.1, h.1, h.2.2.1⟩]

/-! ### One clock -/

/-- The delay that a byte of the sweep register asks for. -/
def delayOf (byte : UInt8) : Nat := byte.toNat / 16 % 8

/-- The pulse with the divider of its sweep loaded anew. -/
def reloaded (pulse : Pulse) : Pulse :=
  { pulse with
    voice := { pulse.voice with pending := pulse.voice.pending.set .second false }
    sweepDelay := delayOf pulse.voice.registers.second }

/-- A clock of the sweep finds the divider expired, or the mark of a write, or neither. -/
theorem clockSweep_cases :
    pulse.sweepDelay ≤ 0 ∧ pulse.clockSweep = pulse.swept.reloaded ∨
    0 < pulse.sweepDelay ∧ pulse.voice.pending.second = true ∧
      pulse.clockSweep = pulse.reloaded ∨
    0 < pulse.sweepDelay ∧ pulse.voice.pending.second = false ∧
      pulse.clockSweep = { pulse with sweepDelay := pulse.sweepDelay - 1 } := by
  by_cases hexpired : pulse.sweepDelay - 1 < 0
  · refine .inl ⟨by omega, ?_⟩
    have hsecond : pulse.swept.voice.registers.second = pulse.voice.registers.second := by
      unfold swept
      split <;> rfl
    unfold reloaded clockSweep
    simp only [hexpired, if_true, true_or, hsecond]
    rfl
  · have hwaiting : 0 < pulse.sweepDelay := by omega
    by_cases hwritten : pulse.voice.pending.second = true
    · refine .inr (.inl ⟨hwaiting, hwritten, ?_⟩)
      unfold clockSweep
      simp only [hexpired, hwritten, if_false, or_true, if_true]
      rfl
    · refine .inr (.inr ⟨hwaiting, Bool.eq_false_iff.mpr hwritten, ?_⟩)
      unfold clockSweep
      simp only [hexpired, hwritten, Bool.false_eq_true, or_self, if_false]

/-- Only a clock that finds the divider expired moves the period. -/
theorem period_clockSweep :
    let byte := pulse.voice.registers.second
    let period := pulse.voice.period
    let target := pulse.negation.aim byte period
    (pulse.clockSweep.voice.period : Int) =
      if pulse.sweepDelay ≤ 0 ∧ Voice.bit byte 7 = true ∧ byte.toNat % 8 ≠ 0 ∧ 8 ≤ period ∧
        target < 0x800 then target
      else period := by
  intro byte period target
  rcases pulse.clockSweep_cases with
    ⟨hexpired, hclock⟩ | ⟨hwaiting, _, hclock⟩ | ⟨hwaiting, _, hclock⟩
  · simp only [hexpired, true_and]
    rw [hclock]
    exact pulse.period_swept
  · rw [hclock, if_neg fun h => Int.not_le.mpr hwaiting h.1]
    rfl
  · rw [hclock, if_neg fun h => Int.not_le.mpr hwaiting h.1]

/-- What no clock of the sweep changes: the first register, the upper five bits of the fourth one
with its mark, the phase and the envelope. -/
def unswept (pulse : Pulse) : UInt8 × Nat × Bool × BitVec 3 × Envelope :=
  (pulse.voice.registers.first, pulse.voice.registers.fourth.toNat / 8, pulse.voice.pending.fourth,
    pulse.phase, pulse.envelope)

theorem unswept_setPeriod (period : Nat) : (pulse.setPeriod period).unswept = pulse.unswept := by
  have hbyte := pulse.voice.registers.fourth.toNat_lt
  have hhigh : (pulse.setPeriod period).voice.registers.fourth.toNat / 8 =
      pulse.voice.registers.fourth.toNat / 8 := by
    unfold setPeriod
    simp only [UInt8.toNat_ofNat']
    omega
  unfold unswept
  rw [hhigh]
  rfl

theorem unswept_clockSweep : pulse.clockSweep.unswept = pulse.unswept := by
  have hswept : pulse.swept.unswept = pulse.unswept := by
    unfold swept
    split
    · exact pulse.unswept_setPeriod _
    · rfl
  rcases pulse.clockSweep_cases with ⟨_, hclock⟩ | ⟨_, _, hclock⟩ | ⟨_, _, hclock⟩
  · rw [hclock, ← hswept]
    rfl
  · rw [hclock]
    rfl
  · rw [hclock]
    rfl

/-- What the divider of a sweep reads and keeps. -/
def sweeper (pulse : Pulse) : UInt8 × Bool × Int :=
  (pulse.voice.registers.second, pulse.voice.pending.second, pulse.sweepDelay)

theorem sweeper_clockSweep :
    pulse.clockSweep.sweeper =
      (pulse.voice.registers.second, false,
        if pulse.sweepDelay ≤ 0 ∨ pulse.voice.pending.second = true then
          (delayOf pulse.voice.registers.second : Int)
        else pulse.sweepDelay - 1) := by
  rcases pulse.clockSweep_cases with
    ⟨hexpired, hclock⟩ | ⟨_, hwritten, hclock⟩ | ⟨hwaiting, hwritten, hclock⟩
  · have hsecond : pulse.swept.voice.registers.second = pulse.voice.registers.second := by
      unfold swept
      split <;> rfl
    rw [hclock, if_pos (.inl hexpired), ← hsecond]
    rfl
  · rw [hclock, if_pos (.inr hwritten)]
    rfl
  · rw [hclock, if_neg (by simp [hwritten, hwaiting]), ← hwritten]
    rfl

theorem sweeper_clockEnvelope : pulse.clockEnvelope.sweeper = pulse.sweeper := by
  unfold clockEnvelope sweeper
  dsimp only
  rw [Envelope.clock_snd]
  rfl

/-- A clock of the length changes nothing else. -/
theorem clockLength_eq :
    pulse.clockLength =
      { pulse with
        voice := { pulse.voice with length := (pulse.voice.clockLength 0x20).length } } := by
  unfold clockLength Voice.clockLength
  split <;> rfl

theorem sweeper_clockHalf :
    pulse.clockLength.clockSweep.sweeper = pulse.clockSweep.sweeper := by
  rw [sweeper_clockSweep, sweeper_clockSweep, clockLength_eq]

theorem unswept_clockHalf : pulse.clockLength.clockSweep.unswept = pulse.unswept := by
  rw [unswept_clockSweep, clockLength_eq]
  rfl

theorem period_clockHalf :
    pulse.clockLength.clockSweep.voice.period = pulse.clockSweep.voice.period := by
  apply Int.ofNat.inj
  have hclocked := pulse.clockLength.period_clockSweep
  rw [clockLength_eq] at hclocked ⊢
  exact hclocked.trans pulse.period_clockSweep.symm

/-- Of the events, half-frame clocks, resets and writes to its register concern the sweep. -/
theorem sweeper_act (channel : Channel) (event : Tones.Event) :
    (pulse.act channel event).sweeper =
      if event.isHalf then pulse.clockSweep.sweeper
      else
        let byte := event.byteTo channel .second
        (byte.getD pulse.voice.registers.second, byte.isSome || pulse.voice.pending.second,
          if event = .reset then 0 else pulse.sweepDelay) := by
  cases event with
  | clock beat =>
    obtain ⟨quarter, half⟩ := beat
    cases half with
    | false => cases quarter with
      | false => rfl
      | true => exact pulse.sweeper_clockEnvelope
    | true => cases quarter with
      | false => exact pulse.sweeper_clockHalf
      | true => exact (sweeper_clockEnvelope _).trans pulse.sweeper_clockHalf
  | write written slot value enabled =>
    unfold act Tones.Event.byteTo sweeper
    dsimp only [Tones.Event.isHalf]
    by_cases hwritten : written = channel
    · rw [if_pos hwritten]
      dsimp only
      rw [Voice.registers_writeTone, Voice.pending_writeTone]
      cases slot <;> simp [hwritten, Bank.set]
    · simp [hwritten]
  | enable enables =>
    unfold act
    dsimp only
    split <;> rfl
  | run | settle | reset => rfl

end Pulse

/-! ### Histories -/

namespace Tones

/-- The byte that a history left in a register of a channel. -/
def lastByte (channel : Channel) (slot : Slot) (history : List Event) : UInt8 :=
  (history.findSome? (·.byteTo channel slot)).getD 0

/-- Whether a history wrote a register of a channel since its last half-frame clock. -/
def isFresh (channel : Channel) (slot : Slot) (history : List Event) : Bool :=
  (history.takeWhile (!·.isHalf)).any fun event => (event.byteTo channel slot).isSome

/-- The half-frame clocks since the last reload of a sweep's divider, and the delay that the reload
latched. -/
structure Divider where
  clocks : Nat := 0
  latched : Nat := 0

/-- Whether the next clock expires the divider: it is the one after as many as were latched. -/
def Divider.expires (divider : Divider) : Prop := divider.clocks + 1 = divider.latched + 1

instance (divider : Divider) : Decidable divider.expires :=
  inferInstanceAs (Decidable (divider.clocks + 1 = divider.latched + 1))

/-- The divider of a channel's sweep after a history.  The clock that expires it reloads it, and so
does the first one after a write to the sweep register. -/
def divider (channel : Channel) : List Event → Divider
  | [] => {}
  | event :: past =>
    if event = .reset then {}
    else if event.isHalf then
      if (divider channel past).expires ∨ isFresh channel .second past then
        { latched := Pulse.delayOf (lastByte channel .second past) }
      else { divider channel past with clocks := (divider channel past).clocks + 1 }
    else divider channel past

section Cons

variable (channel : Channel) (slot : Slot) (event : Event) (past : List Event)

theorem lastByte_cons :
    lastByte channel slot (event :: past) =
      (event.byteTo channel slot).getD (lastByte channel slot past) := by
  unfold lastByte
  rw [List.findSome?_cons]
  cases event.byteTo channel slot <;> rfl

theorem isFresh_cons :
    isFresh channel slot (event :: past) =
      (!event.isHalf && ((event.byteTo channel slot).isSome || isFresh channel slot past)) := by
  unfold isFresh
  rw [List.takeWhile_cons]
  cases event.isHalf <;> rfl

variable {event}

theorem divider_of_half (h : event.isHalf = true) :
    divider channel (event :: past) =
      if (divider channel past).expires ∨ isFresh channel .second past then
        { latched := Pulse.delayOf (lastByte channel .second past) }
      else { divider channel past with clocks := (divider channel past).clocks + 1 } := by
  have hreset : event ≠ .reset := by
    rintro rfl
    exact Bool.noConfusion h
  rw [divider, if_neg hreset, if_pos h]

theorem divider_of_not_half (hreset : event ≠ .reset) (h : event.isHalf = false) :
    divider channel (event :: past) = divider channel past := by
  rw [divider, if_neg hreset, h]
  rfl

end Cons

/-- The divider counts down what it counts up in its history. -/
theorem sweeper_undergo {history : List Event} {channel : Channel} {pulse : Pulse}
    (h : (({} : Tones).undergo history).pulse? channel = some pulse) :
    let divider := divider channel history
    pulse.sweeper =
        (lastByte channel .second history, isFresh channel .second history,
          (divider.latched : Int) - divider.clocks) ∧
      divider.clocks ≤ divider.latched := by
  -- The bound belongs to the induction: with it, a delay of zero is an expiry and nothing else is.
  induction history generalizing pulse with
  | nil => cases channel <;> cases h <;> exact ⟨rfl, Nat.le_refl 0⟩
  | cons event past ih =>
    rw [undergo, pulse?_act, Option.map_eq_some_iff] at h
    obtain ⟨before, hbefore, rfl⟩ := h
    obtain ⟨hsweeper, hle⟩ := ih hbefore
    obtain ⟨hbyte, hsweeper⟩ := Prod.mk.inj hsweeper
    obtain ⟨hfresh, hdelay⟩ := Prod.mk.inj hsweeper
    dsimp only at hle hdelay ⊢
    rw [Pulse.sweeper_act, lastByte_cons, isFresh_cons]
    by_cases hhalf : event.isHalf = true
    · have hnone : event.byteTo channel .second = none := by
        cases event <;> first | rfl | exact Bool.noConfusion hhalf
      rw [if_pos hhalf, Pulse.sweeper_clockSweep, divider_of_half channel past hhalf, hbyte, hfresh,
        hdelay, hnone, hhalf]
      have hreload : ((divider channel past).latched - (divider channel past).clocks : Int) ≤ 0 ↔
          (divider channel past).expires := by
        unfold Divider.expires
        omega
      by_cases hreloads : (divider channel past).expires ∨ isFresh channel .second past = true
      · rw [if_pos hreloads, if_pos (hreloads.imp_left hreload.mpr)]
        exact ⟨Prod.ext rfl (Prod.ext rfl (Int.sub_zero _).symm), Nat.zero_le _⟩
      · have hcounts := mt Or.inl hreloads
        unfold Divider.expires at hcounts
        rw [if_neg hreloads, if_neg fun h => hreloads (h.imp_left hreload.mp)]
        refine ⟨Prod.ext rfl (Prod.ext rfl ?_), ?_⟩
        · dsimp only
          omega
        · dsimp only
          omega
    · have hhalf := Bool.eq_false_iff.mpr hhalf
      rw [hhalf]
      by_cases hreset : event = .reset
      · subst hreset
        exact ⟨Prod.ext hbyte (Prod.ext hfresh rfl), Nat.le_refl 0⟩
      · rw [divider_of_not_half channel past hreset hhalf, if_neg Bool.false_ne_true]
        dsimp only
        rw [hbyte, hfresh, hdelay, if_neg hreset]
        exact ⟨rfl, hle⟩

/-! ### From a reload on -/

/-- Whether an event leaves the divider of a channel's sweep to its course. -/
def Event.leavesSweep (channel : Channel) (event : Event) : Bool :=
  event ≠ .reset && (event.byteTo channel .second).isNone

/-- From a reload on, and while the sweep register is not written, the divider counts round and
round. -/
theorem divider_of_reload {channel : Channel} {history later : List Event} {event : Event}
    (hhalf : event.isHalf = true)
    (hreload : (divider channel history).expires ∨ isFresh channel .second history = true)
    (hleaves : ∀ event ∈ later, event.leavesSweep channel = true) :
    let delay := Pulse.delayOf (lastByte channel .second history)
    divider channel (later ++ event :: history) =
        { clocks := later.countP (·.isHalf) % (delay + 1), latched := delay } ∧
      lastByte channel .second (later ++ event :: history) = lastByte channel .second history ∧
      isFresh channel .second (later ++ event :: history) = false := by
  intro delay
  induction later with
  | nil =>
    have hnone : event.byteTo channel .second = none := by
      cases event <;> first | rfl | exact Bool.noConfusion hhalf
    rw [List.nil_append, divider_of_half channel history hhalf, if_pos hreload, lastByte_cons,
      isFresh_cons, hnone, hhalf]
    exact ⟨by simp [delay], rfl, rfl⟩
  | cons next later ih =>
    obtain ⟨hdivider, hbyte, hfresh⟩ := ih fun event hmem => hleaves event (.tail _ hmem)
    have hnext := hleaves next (.head _)
    simp only [Event.leavesSweep, Bool.and_eq_true, decide_eq_true_eq, Option.isNone_iff_eq_none]
      at hnext
    obtain ⟨hreset, hnone⟩ := hnext
    rw [List.cons_append, lastByte_cons, isFresh_cons, hnone, hbyte, hfresh]
    refine ⟨?_, rfl, by simp⟩
    by_cases hcount : next.isHalf = true
    · rw [divider_of_half channel _ hcount, hdivider, hbyte, hfresh, List.countP_cons_of_pos hcount]
      unfold Divider.expires
      dsimp only
      by_cases hlast : later.countP (·.isHalf) % (delay + 1) = delay
      · rw [if_pos (.inl (by omega)), (Countdown.of_last hlast).2]
      · rw [if_neg (by simp [hlast]), (Countdown.of_not_last hlast).2]
    · have hcount := Bool.eq_false_iff.mpr hcount
      rw [divider_of_not_half channel _ hreset hcount, hdivider,
        List.countP_cons_of_neg (by simp [hcount])]

/-! ### The law of the sweep -/

section Undergone

variable {history : List Event} {channel : Channel} {pulse : Pulse}
  (h : (({} : Tones).undergo history).pulse? channel = some pulse)
include h

theorem pulse?_clockHalf :
    (({} : Tones).undergo history).clockHalf.pulse? channel =
      some pulse.clockLength.clockSweep := by
  cases channel <;> cases h <;> rfl

/-- The first pulse alone has the ones' complement. -/
theorem negation_undergo : pulse.negation = .onesComplement ↔ channel = .pulse1 := by
  obtain ⟨hpulse1, hpulse2⟩ := Prod.mk.inj (negations_undergo {} history)
  cases channel <;> cases h
  · exact iff_of_true hpulse1 rfl
  · exact iff_of_false (by rw [hpulse2]; decide) (by decide)

theorem expires_iff : (divider channel history).expires ↔ pulse.sweepDelay ≤ 0 := by
  obtain ⟨hsweeper, hle⟩ := sweeper_undergo h
  have hdelay : pulse.sweepDelay =
      (divider channel history).latched - (divider channel history).clocks :=
    congrArg (·.2.2) hsweeper
  unfold Divider.expires
  omega

end Undergone

/-- After every history, a half-frame clock moves the period of a pulse just if it expires the
divider, the sweep is on and has a shift, the period is 8 or more and the target fits eleven bits.  It
moves the period to the target, which is never below 3 on the first pulse and 4 on the second, and
leaves the rest of the fourth register, its mark, the phase and the envelope alone.  From a reload on,
the clocks that expire the divider are those whose number is a multiple of the latched delay plus
one. -/
theorem sweep_follows_divider {history : List Event} {channel : Channel} {pulse : Pulse}
    (h : (({} : Tones).undergo history).pulse? channel = some pulse) :
    ∃ next, (({} : Tones).undergo history).clockHalf.pulse? channel = some next ∧
      let byte := lastByte channel .second history
      let period := pulse.voice.period
      let distance := period >>> (byte.toNat % 8)
      let target : Int :=
        if Voice.bit byte 3 then period - distance - (if channel = .pulse1 then 1 else 0)
        else period + distance
      let moves := (divider channel history).expires ∧ Voice.bit byte 7 = true ∧
        byte.toNat % 8 ≠ 0 ∧ 8 ≤ period ∧ target < 0x800
      period ≤ 0x7FF ∧ next.voice.period ≤ 0x7FF ∧
      (moves → (next.voice.period : Int) = target ∧
        (if channel = .pulse1 then 3 else 4) ≤ next.voice.period) ∧
      (¬moves → next.voice.period = period) ∧
      next.voice.registers.fourth.toNat / 8 = pulse.voice.registers.fourth.toNat / 8 ∧
      next.voice.pending.fourth = pulse.voice.pending.fourth ∧
      next.phase = pulse.phase ∧ next.envelope = pulse.envelope ∧
      ∀ event later, event.isHalf = true →
        ((divider channel history).expires ∨ isFresh channel .second history = true) →
        (∀ other ∈ later, Event.leavesSweep channel other = true) →
        ((divider channel (later ++ event :: history)).expires ↔
          later.countP (·.isHalf) % (Pulse.delayOf byte + 1) = Pulse.delayOf byte) := by
  refine ⟨_, pulse?_clockHalf h, ?_⟩
  intro byte period distance target moves
  have hbyte : pulse.voice.registers.second = byte := congrArg (·.1) (sweeper_undergo h).1
  have htarget : pulse.negation.aim byte period = target := by
    rw [Negation.aim_eq]
    simp only [negation_undergo h]
    rfl
  have hperiod : (pulse.clockLength.clockSweep.voice.period : Int) =
      if moves then target else period := by
    rw [pulse.period_clockHalf, pulse.period_clockSweep, hbyte]
    simp only [moves, expires_iff h, ← htarget, period]
  have hunswept := pulse.unswept_clockHalf
  simp only [Pulse.unswept, Prod.mk.injEq] at hunswept
  obtain ⟨_, hhigh, hmark, hphase, henvelope⟩ := hunswept
  refine ⟨pulse.period_le, Pulse.period_le _, ?moves, ?stays, hhigh, hmark, hphase, henvelope,
    ?reload⟩
  case moves =>
    intro hmoves
    rw [if_pos hmoves] at hperiod
    have hleast := pulse.negation.le_aim hmoves.2.2.1 hmoves.2.2.2.1
    simp only [negation_undergo h] at hleast
    rw [htarget, ← hperiod] at hleast
    refine ⟨hperiod, ?_⟩
    by_cases hchannel : channel = .pulse1
    · rw [if_pos hchannel] at hleast ⊢
      exact Int.ofNat_le.mp hleast
    · rw [if_neg hchannel] at hleast ⊢
      exact Int.ofNat_le.mp hleast
  case stays =>
    intro hstays
    rw [if_neg hstays] at hperiod
    exact Int.ofNat.inj hperiod
  case reload =>
    intro event later hhalf hreload hleaves
    obtain ⟨hdivider, -, -⟩ := divider_of_reload hhalf hreload hleaves
    rw [hdivider]
    exact Nat.add_right_cancel_iff

/-- The first clock after power-on takes pulse 1 from 0x100 to 0x7F, and with a delay of one the
divider expires again two clocks later. -/
theorem sweep_follows_divider_of_fall :
    let half := Event.clock { quarter := false, half := true }
    let history : List Event := [.write .pulse1 .fourth 1 false, .write .pulse1 .second 0x99 false]
    ∃ next, (({} : Tones).undergo history).clockHalf.pulse? .pulse1 = some next ∧
      next.voice.period = 0x7F ∧ (divider .pulse1 ([half] ++ half :: history)).expires := by
  intro half history
  have hpulse : (({} : Tones).undergo history).pulse? .pulse1 =
      some (({} : Tones).undergo history).pulse1 := rfl
  obtain ⟨next, hnext, _, _, hmoves, _, _, _, _, _, hdivider⟩ := sweep_follows_divider hpulse
  obtain ⟨hperiod, _⟩ := hmoves (by decide)
  refine ⟨next, hnext, Int.ofNat.inj (hperiod.trans (by decide)), ?_⟩
  exact (hdivider half [half] rfl (.inl (by decide)) (by decide)).mpr (by decide)

end Tones

end Chiptune
