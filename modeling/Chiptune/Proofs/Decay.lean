import Chiptune.Proofs.Sweep

/-! The decay of an envelope.  A write to the fourth register leaves a mark, and the next quarter-frame
clock takes it and starts over at 15.  From then on the level falls by one whenever the delay has run
out, which is every `delay + 1` clocks.  `Envelope.decayed` counts this in closed form, one clock is
`Envelope.Decaying.clock`, and `Tones.Decays` follows it through a history.  The main result is
`decay_falls_from_fifteen`. -/

namespace Chiptune

/-! ### The unit -/

namespace Envelope

/-- The level of a decay that has fallen `falls` times from 15. -/
def levelAfter (control : UInt8) (falls : Nat) : Int :=
  if Voice.bit control 5 then (15 - falls) % 16 else max 0 (15 - falls)

/-- The unit `clocks` clocks after it started over. -/
def decayed (control : UInt8) (clocks : Nat) : Envelope :=
  let delay := control.toNat % 16
  { level := .ofInt 4 (levelAfter control (clocks / (delay + 1)))
    delay := delay - (clocks % (delay + 1) : Nat) }

section Levels

variable (control : UInt8) (falls : Nat)

theorem levelAfter_bounds : 0 ≤ levelAfter control falls ∧ levelAfter control falls < 16 := by
  unfold levelAfter
  split <;> omega

theorem toNat_levelAfter :
    ((BitVec.ofInt 4 (levelAfter control falls)).toNat : Int) = levelAfter control falls := by
  have hbounds := levelAfter_bounds control falls
  rw [BitVec.toNat_ofInt]
  omega

/-- A fall from 0 stays there, or goes round to 15 if the decay loops. -/
theorem levelAfter_succ :
    let level := BitVec.ofInt 4 (levelAfter control falls)
    (if level ≠ 0 ∨ Voice.bit control 5 = true then level - 1 else level) =
      BitVec.ofInt 4 (levelAfter control (falls + 1)) := by
  intro level
  have hlevel : (level.toNat : Int) = levelAfter control falls := toNat_levelAfter control falls
  have hnext := toNat_levelAfter control (falls + 1)
  have hdown : (level - 1).toNat = (level.toNat + 15) % 16 := by
    rw [BitVec.toNat_sub, Nat.add_comm]
    rfl
  apply BitVec.eq_of_toNat_eq
  unfold levelAfter at hlevel hnext ⊢
  cases hloops : Voice.bit control 5 with
  | true =>
    simp only [hloops, if_true] at hlevel hnext ⊢
    rw [if_pos (.inr trivial), hdown]
    omega
  | false =>
    simp only [hloops, Bool.false_eq_true, if_false, or_false] at hlevel hnext ⊢
    by_cases hzero : level = 0
    · have hempty : level.toNat = 0 := congrArg BitVec.toNat hzero
      rw [if_neg (not_not.mpr hzero)]
      omega
    · have hpos : level.toNat ≠ 0 := fun h => hzero (BitVec.eq_of_toNat_eq h)
      rw [if_pos hzero, hdown]
      omega

end Levels

section Clocks

variable {voice : Voice}

theorem clock_of_mark (envelope : Envelope) (h : voice.pending.fourth = true) :
    (envelope.clock voice).1 = decayed voice.registers.first 0 := by
  have hlevel : levelAfter voice.registers.first 0 = 15 := by
    unfold levelAfter
    split <;> rfl
  unfold clock decayed
  dsimp only
  rw [if_pos h, Nat.zero_div, hlevel, Nat.zero_mod]
  exact congrArg (mk 15) (Int.sub_zero _).symm

theorem clock_decayed (clocks : Nat) (h : voice.pending.fourth = false) :
    ((decayed voice.registers.first clocks).clock voice).1 =
      decayed voice.registers.first (clocks + 1) := by
  unfold clock decayed
  rw [if_neg (Bool.eq_false_iff.mp h)]
  dsimp only
  have hdecay : decay voice = voice.registers.first.toNat % 16 := rfl
  rw [← hdecay]
  generalize decay voice = delay
  have hlt : clocks % (delay + 1) < delay + 1 := Nat.mod_lt clocks (Nat.succ_pos delay)
  by_cases hlast : clocks % (delay + 1) = delay
  · obtain ⟨hfalls, hcount⟩ := Countdown.of_last hlast
    have hexpired : (delay : Int) - (clocks % (delay + 1) : Nat) - 1 < 0 := by omega
    rw [if_pos hexpired, hfalls, hcount, ← levelAfter_succ]
    exact congrArg (mk _) (Int.sub_zero _).symm
  · obtain ⟨hfalls, hcount⟩ := Countdown.of_not_last hlast
    have hwaiting : ¬(delay : Int) - (clocks % (delay + 1) : Nat) - 1 < 0 := by omega
    rw [if_neg hwaiting, hfalls, hcount]
    exact congrArg (mk _) (by omega)

end Clocks

/-- An envelope and its voice at a number of clocks since the last write to the fourth register, while
the first register holds `control`.  Before the first clock the mark is all that is known. -/
def Decaying (control : UInt8) (clocks : Nat) (envelope : Envelope) (voice : Voice) : Prop :=
  voice.registers.first = control ∧
    match clocks with
    | 0 => voice.pending.fourth = true
    | clocks + 1 => voice.pending.fourth = false ∧ envelope = decayed control clocks

theorem Decaying.clock {control : UInt8} {clocks : Nat} {envelope : Envelope} {voice : Voice}
    (h : Decaying control clocks envelope voice) :
    Decaying control (clocks + 1) (envelope.clock voice).1 (envelope.clock voice).2 := by
  obtain ⟨rfl, hstate⟩ := h
  rw [clock_snd]
  refine ⟨rfl, rfl, ?_⟩
  cases clocks with
  | zero => exact clock_of_mark envelope hstate
  | succ clocks =>
    obtain ⟨hmark, rfl⟩ := hstate
    exact clock_decayed clocks hmark

/-- A voice is silent once its length has run out or where the selected level is zero, and else at
that level. -/
theorem volume_eq (envelope : Envelope) (voice : Voice) :
    let selected :=
      if isConstant voice then voice.registers.first.toNat % 16 else envelope.level.toNat
    (envelope.volume voice = 0 ↔ voice.length = 0 ∨ selected = 0) ∧
      (envelope.volume voice ≠ 0 → envelope.volume voice = selected) := by
  intro selected
  have hvolume : envelope.volume voice = if voice.length = 0 then 0 else selected := rfl
  rw [hvolume]
  by_cases hlength : voice.length = 0
  · simp [hlength]
  · simp [hlength]

end Envelope

/-! ### The channels -/

/-- Whether a voice comes out of an event with what that wrote to the first register and with a mark if
it wrote to the fourth one. -/
def Voice.Takes (channel : Channel) (event : Tones.Event) (voice after : Voice) : Prop :=
  after.registers.first = (event.byteTo channel .first).getD voice.registers.first ∧
    after.pending.fourth = ((event.byteTo channel .fourth).isSome || voice.pending.fourth)

theorem Voice.takes_writeTone (voice : Voice) (channel : Channel) (slot : Slot) (value : UInt8)
    (enabled : Bool) :
    voice.Takes channel (.write channel slot value enabled)
      (voice.writeTone slot value enabled) := by
  unfold Takes Tones.Event.byteTo
  rw [registers_writeTone, pending_writeTone]
  cases slot <;> simp [Bank.set]

theorem Voice.takes_write_of_ne (voice : Voice) {channel written : Channel} (h : written ≠ channel)
    (slot : Slot) (value : UInt8) (enabled : Bool) :
    voice.Takes channel (.write written slot value enabled) voice := by
  simp [Takes, Tones.Event.byteTo, h]

/-- What an event does to the decay of a pulse: it may write to the voice, and a quarter-frame clock
then moves the envelope. -/
theorem Pulse.decay_act (pulse : Pulse) (channel : Channel) {event : Tones.Event}
    (h : event ≠ .reset) :
    ∃ voice, ((pulse.act channel event).envelope, (pulse.act channel event).voice) =
        (if event.isQuarter then pulse.envelope.clock voice else (pulse.envelope, voice)) ∧
      pulse.voice.Takes channel event voice := by
  cases event with
  | clock beat =>
    obtain ⟨quarter, half⟩ := beat
    have hunswept := pulse.unswept_clockHalf
    simp only [unswept, Prod.mk.injEq] at hunswept
    obtain ⟨hfirst, _, hmark, _, henvelope⟩ := hunswept
    cases half with
    | false => exact ⟨pulse.voice, by cases quarter <;> rfl, rfl, rfl⟩
    | true =>
      refine ⟨pulse.clockLength.clockSweep.voice, ?_, hfirst, hmark⟩
      rw [← henvelope]
      cases quarter <;> rfl
  | write written slot value enabled =>
    unfold act
    dsimp only
    split
    · rename_i hwritten
      subst hwritten
      exact ⟨_, rfl, pulse.voice.takes_writeTone ..⟩
    · rename_i hwritten
      exact ⟨_, rfl, pulse.voice.takes_write_of_ne hwritten ..⟩
  | enable enables =>
    unfold act
    dsimp only
    split <;> exact ⟨_, rfl, rfl, rfl⟩
  | run | settle => exact ⟨_, rfl, rfl, rfl⟩
  | reset => exact absurd rfl h

theorem Noise.decay_act (noise : Noise) {event : Tones.Event} (h : event ≠ .reset) :
    ∃ voice, ((noise.act event).envelope, (noise.act event).voice) =
        (if event.isQuarter then noise.envelope.clock voice else (noise.envelope, voice)) ∧
      noise.voice.Takes .noise event voice := by
  cases event with
  | clock beat =>
    obtain ⟨quarter, half⟩ := beat
    cases half with
    | false => exact ⟨noise.voice, by cases quarter <;> rfl, rfl, rfl⟩
    | true =>
      refine ⟨noise.clockLength.voice, by cases quarter <;> rfl, ?_⟩
      unfold clockLength Voice.clockLength
      split <;> exact ⟨rfl, rfl⟩
  | write written slot value enabled =>
    unfold act
    dsimp only
    split
    · rename_i hwritten
      subst hwritten
      exact ⟨_, rfl, noise.voice.takes_writeTone ..⟩
    · rename_i hwritten
      exact ⟨_, rfl, noise.voice.takes_write_of_ne hwritten ..⟩
  | enable enables =>
    unfold act
    dsimp only
    split <;> exact ⟨_, rfl, rfl, rfl⟩
  | run | settle => exact ⟨_, rfl, rfl, rfl⟩
  | reset => exact absurd rfl h

namespace Tones

/-- The envelope of a channel that has one, and the voice that it reads. -/
def shaped? (tones : Tones) : Channel → Option (Envelope × Voice)
  | .pulse1 => some (tones.pulse1.envelope, tones.pulse1.voice)
  | .pulse2 => some (tones.pulse2.envelope, tones.pulse2.voice)
  | .noise => some (tones.noise.envelope, tones.noise.voice)
  | _ => none

theorem shaped?_act {tones : Tones} {event : Event} {channel : Channel} {envelope : Envelope}
    {voice : Voice} (h : tones.shaped? channel = some (envelope, voice)) (hreset : event ≠ .reset) :
    ∃ after, (tones.act event).shaped? channel =
        some (if event.isQuarter then envelope.clock after else (envelope, after)) ∧
      voice.Takes channel event after := by
  obtain ⟨hpulse1, hpulse2, hnoise⟩ := tones.act_channels event
  cases channel with
  | pulse1 =>
    cases h
    obtain ⟨after, hact, htakes⟩ := tones.pulse1.decay_act .pulse1 hreset
    exact ⟨after, congrArg some (hpulse1 ▸ hact), htakes⟩
  | pulse2 =>
    cases h
    obtain ⟨after, hact, htakes⟩ := tones.pulse2.decay_act .pulse2 hreset
    exact ⟨after, congrArg some (hpulse2 ▸ hact), htakes⟩
  | noise =>
    cases h
    obtain ⟨after, hact, htakes⟩ := tones.noise.decay_act hreset
    exact ⟨after, congrArg some (hnoise ▸ hact), htakes⟩
  | _ => cases h

/-! ### Histories -/

/-- Whether an event leaves the first register of a channel at `control`. -/
def Event.holds (channel : Channel) (control : UInt8) (event : Event) : Bool :=
  event ≠ .reset && (event.byteTo channel .first).all (· = control)

/-- A channel whose envelope is a number of clocks into its decay. -/
def Decays (channel : Channel) (control : UInt8) (clocks : Nat) (tones : Tones) : Prop :=
  ∃ envelope voice, tones.shaped? channel = some (envelope, voice) ∧
    envelope.Decaying control clocks voice

variable {channel : Channel} {control : UInt8} {clocks : Nat} {tones : Tones}

theorem Decays.act (h : tones.Decays channel control clocks) {event : Event}
    (hholds : event.holds channel control = true)
    (hfourth : clocks = 0 ∨ event.byteTo channel .fourth = none) :
    (tones.act event).Decays channel control (clocks + if event.isQuarter then 1 else 0) := by
  obtain ⟨envelope, voice, hshaped, hcontrol, hstate⟩ := h
  simp only [Event.holds, Bool.and_eq_true, decide_eq_true_eq] at hholds
  obtain ⟨hreset, hfirst⟩ := hholds
  obtain ⟨after, hact, htakes, hmark⟩ := shaped?_act hshaped hreset
  have hdecaying : envelope.Decaying control clocks after := by
    constructor
    · rw [htakes]
      cases hbyte : event.byteTo channel .first with
      | none => exact hcontrol
      | some byte =>
        rw [hbyte] at hfirst
        exact of_decide_eq_true hfirst
    · cases clocks with
      | zero => exact hmark.trans (by rw [hstate, Bool.or_true])
      | succ clocks =>
        obtain ⟨hpending, henvelope⟩ := hstate
        have hnone := hfourth.resolve_left (Nat.succ_ne_zero clocks)
        exact ⟨hmark.trans (by rw [hnone, hpending]; rfl), henvelope⟩
  cases hquarter : event.isQuarter with
  | false =>
    rw [hquarter] at hact
    exact ⟨envelope, after, hact, hdecaying⟩
  | true =>
    rw [hquarter] at hact
    exact ⟨_, _, hact, hdecaying.clock⟩

/-- Before the first clock, further writes to the fourth register change nothing. -/
theorem Decays.before (h : tones.Decays channel control 0) {history : List Event}
    (hhistory : ∀ event ∈ history, event.isQuarter = false ∧ event.holds channel control = true) :
    (tones.undergo history).Decays channel control 0 := by
  induction history with
  | nil => exact h
  | cons event past ih =>
    obtain ⟨hquarter, hholds⟩ := hhistory event (.head _)
    have hpast := ih fun event hmem => hhistory event (.tail _ hmem)
    have hact := hpast.act hholds (.inl rfl)
    rw [hquarter] at hact
    exact hact

/-- Without another write to the fourth register the clocks add up. -/
theorem Decays.undergo (h : tones.Decays channel control clocks) {history : List Event}
    (hhistory : ∀ event ∈ history,
      event.byteTo channel .fourth = none ∧ event.holds channel control = true) :
    (tones.undergo history).Decays channel control
      (clocks + history.countP (·.isQuarter)) := by
  induction history with
  | nil => exact h
  | cons event past ih =>
    obtain ⟨hfourth, hholds⟩ := hhistory event (.head _)
    have hpast := ih fun event hmem => hhistory event (.tail _ hmem)
    have hact := hpast.act hholds (.inr hfourth)
    rw [List.countP_cons, ← Nat.add_assoc]
    exact hact

/-- A write to the fourth register of a channel, from whatever state, and what comes after it while the
first register stays as it is.  Before the first quarter-frame clock there may be more such writes, and
after it there are none.  The envelope is then where the clocks alone have brought it from 15. -/
theorem decay_falls_from_fifteen {tones : Tones} {channel : Channel} {envelope : Envelope}
    {voice : Voice} (h : tones.shaped? channel = some (envelope, voice)) (value : UInt8)
    (enabled : Bool) {earlier later : List Event}
    (hearlier : ∀ event ∈ earlier,
      event.isQuarter = false ∧ event.holds channel voice.registers.first = true)
    (hlater : ∀ event ∈ later, event.byteTo channel .fourth = none ∧
      event.holds channel voice.registers.first = true)
    (hclocks : 0 < later.countP (·.isQuarter)) :
    (∃ after heard,
      ((tones.write channel .fourth value enabled).undergo (later ++ earlier)).shaped? channel =
        some (after, heard) ∧
      let control := voice.registers.first
      let delay := control.toNat % 16
      let past := later.countP (·.isQuarter) - 1
      let falls : Int := (past / (delay + 1) : Nat)
      let level : Int := if Voice.bit control 5 then (15 - falls) % 16 else max 0 (15 - falls)
      heard.registers.first = control ∧
      (after.level.toNat : Int) = level ∧
      after.delay = delay - (past % (delay + 1) : Nat)) ∧
    ∀ (envelope : Envelope) (voice : Voice),
      let selected :=
        if Voice.bit voice.registers.first 4 then voice.registers.first.toNat % 16
        else envelope.level.toNat
      (envelope.volume voice = 0 ↔ voice.length = 0 ∨ selected = 0) ∧
        (envelope.volume voice ≠ 0 → envelope.volume voice = selected) := by
  refine ⟨?_, Envelope.volume_eq⟩
  have hwritten : (tones.write channel .fourth value enabled).Decays channel
      voice.registers.first 0 := by
    have hreset : Event.write channel .fourth value enabled ≠ .reset := nofun
    obtain ⟨after, hact, htakes, hmark⟩ := shaped?_act h hreset
    refine ⟨envelope, after, hact, ?_, ?_⟩
    · rw [htakes]
      simp [Event.byteTo]
    · simp [hmark, Event.byteTo]
  rw [undergo_append]
  have hdecays := (hwritten.before hearlier).undergo hlater
  rw [Nat.zero_add] at hdecays
  obtain ⟨clocks, hcount⟩ : ∃ clocks, later.countP (·.isQuarter) = clocks + 1 :=
    ⟨_, (Nat.succ_pred_eq_of_pos hclocks).symm⟩
  rw [hcount] at hdecays ⊢
  obtain ⟨after, heard, hshaped, hcontrol, _, rfl⟩ := hdecays
  exact ⟨_, heard, hshaped, hcontrol, Envelope.toNat_levelAfter _ _, rfl⟩

/-- With the loop bit and a delay of one, two writes and 35 clocks take the noise once round and to
14. -/
theorem decay_falls_from_fifteen_of_loop :
    let tones := ({} : Tones).write .noise .first 0x21 false
    let clocks := List.replicate 35 (Event.clock { quarter := true, half := true })
    let history := clocks ++ [.write .noise .fourth 0 true]
    ∃ after heard,
      ((tones.write .noise .fourth 8 true).undergo history).shaped? .noise = some (after, heard) ∧
        (after.level.toNat : Int) = 14 ∧ after.delay = 1 := by
  intro tones clocks history
  have hshaped : tones.shaped? .noise = some (tones.noise.envelope, tones.noise.voice) := rfl
  have hwrite : ∀ event ∈ [Event.write .noise .fourth 0 true], event.isQuarter = false ∧
      event.holds .noise tones.noise.voice.registers.first = true := by
    decide
  have hclocks : ∀ event ∈ clocks, event.byteTo .noise .fourth = none ∧
      event.holds .noise tones.noise.voice.registers.first = true := by
    intro event hmem
    rw [List.eq_of_mem_replicate hmem]
    decide
  obtain ⟨⟨after, heard, hafter, _, hlevel, hdelay⟩, _⟩ :=
    decay_falls_from_fifteen hshaped 8 true hwrite hclocks (by decide)
  exact ⟨after, heard, hafter, hlevel.trans (by decide), hdelay.trans (by decide)⟩

end Tones

end Chiptune
