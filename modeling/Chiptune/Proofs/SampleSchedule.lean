import Chiptune.Proofs.SampleRun

/-! What the sample channel predicts.  `Consistent` ties the predicted interrupt to the state and
holds after every event.  Whether the interrupt is raised by a given clock does not change while the
channel runs there (`raisedBy_after`), and a run makes as many fetches as the closed form counts
(`fetchesBy_after`, `countFetches_fst`). -/

namespace Chiptune.Dmc

/-! ### Consistency -/

/-- The channel is enabled exactly while bytes are left, and then a byte waits.  An interrupt is
raised only where one may be, and a sample that raises one does not loop. -/
structure Coherent (dmc : Dmc) : Prop where
  enabled_iff : dmc.enabled = true ↔ dmc.voice.length ≠ 0
  buffered : dmc.voice.length ≠ 0 → dmc.buffer.isSome = true
  ends : dmc.irqEnabled = true → dmc.loops = false
  permitted : dmc.irqFlag = true → dmc.irqEnabled = true

/-- The predicted interrupt comes one clock after the bit at which the last byte is fetched.  The
next bit is due at `due`. -/
structure Consistent (dmc : Dmc) (due : Int) : Prop extends dmc.Coherent where
  predicted : dmc.nextIrq =
    if dmc.irqEnabled = true ∧ dmc.voice.length ≠ 0 then
      some (due + dmc.bitsAhead * dmc.period + 1)
    else none

section Consistent

variable {dmc : Dmc} {bus : Bus} {due now : Int}

theorem Consistent.park (h : dmc.Consistent due) (delay level : Int) :
    (dmc.park delay level).Consistent due :=
  ⟨⟨h.enabled_iff, h.buffered, h.ends, h.permitted⟩, h.predicted⟩

theorem Consistent.rebase (h : dmc.Consistent due) (origin : Int) :
    (dmc.rebase origin).Consistent (due - origin) := by
  refine ⟨⟨h.enabled_iff, h.buffered, h.ends, h.permitted⟩, ?_⟩
  show dmc.nextIrq.map (· - origin) =
    if dmc.irqEnabled = true ∧ dmc.voice.length ≠ 0 then
      some (due - origin + dmc.bitsAhead * dmc.period + 1)
    else none
  rw [h.predicted]
  split
  · rw [Option.map_some]
    congr 1
    omega
  · rfl

theorem Coherent.predictIrq (h : dmc.Coherent) (now : Int) :
    (dmc.predictIrq now).Consistent (now + dmc.voice.delay) :=
  ⟨⟨h.enabled_iff, h.buffered, h.ends, h.permitted⟩, rfl⟩

/-- After a fetch bytes are left, or the sample starts again, or it ends. -/
theorem concluded_cases (dmc : Dmc) :
    (dmc.voice.length ≠ 0 ∧ dmc.concluded = dmc) ∨
    (dmc.voice.length = 0 ∧ dmc.loops = true ∧ dmc.concluded = dmc.rewind) ∨
    (dmc.voice.length = 0 ∧ dmc.loops = false ∧ dmc.concluded =
      { dmc with enabled := false, irqFlag := dmc.irqEnabled, nextIrq := none }) := by
  unfold concluded
  by_cases hlength : dmc.voice.length = 0
  · rw [if_neg (not_not_intro hlength)]
    cases hloops : dmc.loops
    · exact .inr (.inr ⟨hlength, rfl, rfl⟩)
    · exact .inr (.inl ⟨hlength, rfl, rfl⟩)
  · rw [if_pos hlength]
    exact .inl ⟨hlength, rfl⟩

theorem coherent_concluded (henabled : dmc.enabled = true) (hbuffer : dmc.buffer.isSome = true)
    (hends : dmc.irqEnabled = true → dmc.loops = false)
    (hpermitted : dmc.irqFlag = true → dmc.irqEnabled = true) : dmc.concluded.Coherent := by
  rcases concluded_cases dmc with ⟨hlength, heq⟩ | ⟨_, _, heq⟩ | ⟨hlength, _, heq⟩
  · rw [heq]
    exact ⟨⟨fun _ => hlength, fun _ => henabled⟩, fun _ => hbuffer, hends, hpermitted⟩
  · rw [heq]
    exact ⟨⟨fun _ => Nat.succ_ne_zero _, fun _ => henabled⟩, fun _ => hbuffer, hends, hpermitted⟩
  · rw [heq]
    exact ⟨⟨fun h => Bool.noConfusion h, fun h => absurd hlength h⟩, fun _ => hbuffer, hends, id⟩

/-! ### Registers -/

/-- The channel with `value` in its first register. -/
def configured (dmc : Dmc) (value : UInt8) : Dmc :=
  { dmc with
    voice := dmc.voice.write .first value
    rate := .ofNat 4 value.toNat
    irqEnabled := Voice.bit value 7 && !Voice.bit value 6
    irqFlag := dmc.irqFlag && (Voice.bit value 7 && !Voice.bit value 6) }

/-- The channel at the start of its sample, before the first fetch. -/
def restarted (dmc : Dmc) : Dmc := { dmc with enabled := true }.rewind

theorem setEnabled_of_idle {dmc : Dmc} (h : dmc.enabled = false) (bus : Bus) (now : Int) :
    dmc.setEnabled true bus now =
      ((dmc.restarted.fill bus).1.predictIrq now, (dmc.restarted.fill bus).2) := by
  unfold setEnabled
  rw [if_neg (by decide), if_neg (by rw [h]; decide)]
  rfl

theorem setEnabled_of_enabled {dmc : Dmc} (h : dmc.enabled = true) (bus : Bus) (now : Int) :
    dmc.setEnabled true bus now = (dmc, bus) := by
  unfold setEnabled
  rw [if_neg (by decide), if_pos h]

theorem predictIrq_rebase (dmc : Dmc) (origin now : Int) :
    (dmc.rebase origin).predictIrq (now - origin) = (dmc.predictIrq now).rebase origin := by
  have htime : now - origin + dmc.voice.delay + dmc.bitsAhead * dmc.period + 1 =
      now + dmc.voice.delay + dmc.bitsAhead * dmc.period + 1 - origin := by
    omega
  have hirq (p : Prop) [Decidable p] :
      (if p then some (now - origin + dmc.voice.delay + dmc.bitsAhead * dmc.period + 1) else none) =
        (if p then some (now + dmc.voice.delay + dmc.bitsAhead * dmc.period + 1) else none).map
          (· - origin) := by
    rw [htime]
    split <;> rfl
  exact congrArg (fun nextIrq => { dmc with nextIrq })
    (hirq (dmc.irqEnabled = true ∧ dmc.voice.length ≠ 0))

theorem write_rebase (dmc : Dmc) (slot : Slot) (value : UInt8) (origin now : Int) :
    (dmc.rebase origin).write slot value (now - origin) =
      (dmc.write slot value now).rebase origin := by
  cases slot with
  | first => exact predictIrq_rebase (dmc.configured value) origin now
  | second => rfl
  | third => rfl
  | fourth => rfl

theorem setEnabled_rebase (dmc : Dmc) (enabled : Bool) (bus : Bus) (origin now : Int) :
    (dmc.rebase origin).setEnabled enabled bus (now - origin) =
      Prod.map (rebase · origin) id (dmc.setEnabled enabled bus now) := by
  cases enabled with
  | false => rfl
  | true =>
    cases henabled : dmc.enabled
    · have hfill : (dmc.rebase origin).restarted.fill bus =
          Prod.map (rebase · origin) id (dmc.restarted.fill bus) :=
        fill_rebase dmc.restarted bus origin
      rw [setEnabled_of_idle henabled, setEnabled_of_idle (by exact henabled), hfill,
        Prod.map_apply, Prod.map_apply, predictIrq_rebase]
    · rw [setEnabled_of_enabled henabled, setEnabled_of_enabled (by exact henabled)]
      rfl

theorem delay_write (dmc : Dmc) (slot : Slot) (value : UInt8) (now : Int) :
    (dmc.write slot value now).voice.delay = dmc.voice.delay := by
  cases slot <;> rfl

theorem Coherent.configured (h : dmc.Coherent) (value : UInt8) :
    (dmc.configured value).Coherent := by
  refine ⟨h.enabled_iff, h.buffered, ?_, fun hflag => (Bool.and_eq_true_iff.mp hflag).2⟩
  intro hirq
  show Voice.bit value 6 = false
  simpa using (Bool.and_eq_true_iff.mp hirq).2

theorem Consistent.write (h : dmc.Consistent (now + dmc.voice.delay)) (slot : Slot)
    (value : UInt8) :
    (dmc.write slot value now).Consistent (now + (dmc.write slot value now).voice.delay) := by
  rw [delay_write]
  cases slot with
  | first => exact (h.toCoherent.configured value).predictIrq now
  | second => exact ⟨⟨h.enabled_iff, h.buffered, h.ends, h.permitted⟩, h.predicted⟩
  | third => exact ⟨⟨h.enabled_iff, h.buffered, h.ends, h.permitted⟩, h.predicted⟩
  | fourth => exact ⟨⟨h.enabled_iff, h.buffered, h.ends, h.permitted⟩, h.predicted⟩

theorem consistent_disabled (hends : dmc.irqEnabled = true → dmc.loops = false)
    (hpermitted : dmc.irqFlag = true → dmc.irqEnabled = true) (bus : Bus) (due : Int) :
    (dmc.setEnabled false bus now).1.Consistent due :=
  ⟨⟨⟨fun h => Bool.noConfusion h, fun h => absurd rfl h⟩, fun h => absurd rfl h, hends, hpermitted⟩,
    (if_neg fun h => h.2 rfl).symm⟩

theorem Coherent.fill_restarted (h : dmc.Coherent) (bus : Bus) :
    (dmc.restarted.fill bus).1.Coherent := by
  rw [fill_eq]
  split
  · rename_i hfull
    have hbuffer : dmc.buffer.isSome = true := hfull.resolve_right (Nat.succ_ne_zero _)
    exact ⟨⟨fun _ => Nat.succ_ne_zero _, fun _ => rfl⟩, fun _ => hbuffer, h.ends, h.permitted⟩
  · exact coherent_concluded rfl rfl h.ends h.permitted

theorem setup_setEnabled (dmc : Dmc) (enabled : Bool) (bus : Bus) (now : Int) :
    (dmc.setEnabled enabled bus now).1.setup = dmc.setup := by
  cases enabled with
  | false => rfl
  | true =>
    cases henabled : dmc.enabled
    · rw [setEnabled_of_idle henabled]
      exact setup_fill dmc.restarted bus
    · rw [setEnabled_of_enabled henabled]

theorem delay_setEnabled (dmc : Dmc) (enabled : Bool) (bus : Bus) (now : Int) :
    (dmc.setEnabled enabled bus now).1.voice.delay = dmc.voice.delay :=
  congrArg Setup.delay (setup_setEnabled ..)

theorem Consistent.setEnabled (h : dmc.Consistent (now + dmc.voice.delay)) (enabled : Bool)
    (bus : Bus) :
    (dmc.setEnabled enabled bus now).1.Consistent
      (now + (dmc.setEnabled enabled bus now).1.voice.delay) := by
  cases enabled with
  | false => exact consistent_disabled h.ends h.permitted bus _
  | true =>
    cases henabled : dmc.enabled
    · rw [setEnabled_of_idle henabled]
      exact (h.toCoherent.fill_restarted bus).predictIrq now
    · rwa [setEnabled_of_enabled henabled]

theorem Consistent.clearIrq (h : dmc.Consistent due) : dmc.clearIrq.Consistent due :=
  ⟨⟨h.enabled_iff, h.buffered, h.ends, fun hflag => Bool.noConfusion hflag⟩, h.predicted⟩

/-! ### Events -/

theorem nextByte_cases (dmc : Dmc) (hbuffer : dmc.voice.length ≠ 0 → dmc.buffer.isSome = true)
    (bus : Bus) :
    (dmc.voice.length = 0 ∧ ∃ shifter silent buffer,
      dmc.nextByte bus = ({ dmc with shifter, silent, buffer }, bus)) ∨
    (dmc.voice.length ≠ 0 ∧ ∃ shifter byte,
      dmc.nextByte bus =
        (({ dmc with shifter, silent := false }.taken byte).concluded,
          (bus.read dmc.fetchAddress).2)) := by
  rcases Option.eq_none_or_eq_some dmc.buffer with hbyte | ⟨byte, hbyte⟩
  · have hlength : dmc.voice.length = 0 := by
      by_cases hlength : dmc.voice.length = 0
      · exact hlength
      · simpa [hbyte] using hbuffer hlength
    exact .inl ⟨hlength, dmc.shifter, true, dmc.buffer, nextByte_of_none hbyte bus⟩
  · rw [nextByte_of_some hbyte, fill_eq]
    by_cases hlength : dmc.voice.length = 0
    · rw [if_pos (.inr hlength)]
      exact .inl ⟨hlength, byte, false, none, rfl⟩
    · rw [if_neg (by simp [loaded, hlength])]
      exact .inr ⟨hlength, byte, _, rfl⟩

/-- An event plays a bit.  It fetches a byte exactly when the last bit of a byte is played and bytes
of the sample are left. -/
theorem tick_cases (hbuffer : dmc.voice.length ≠ 0 → dmc.buffer.isSome = true) (bus : Bus) :
    (∃ dac shifter silent buffer,
      (dmc.bitsLeft ≠ 0 ∧ buffer = dmc.buffer ∨ dmc.voice.length = 0) ∧
        dmc.tick bus =
          ({ dmc with dac, shifter, silent, buffer, bitsLeft := dmc.bitsLeft - 1 }, bus)) ∨
    (dmc.bitsLeft = 0 ∧ dmc.voice.length ≠ 0 ∧ ∃ dac shifter byte,
      dmc.tick bus =
        (({ dmc with dac, shifter, silent := false, bitsLeft := dmc.bitsLeft - 1 }.taken
            byte).concluded,
          (bus.read dmc.fetchAddress).2)) := by
  obtain ⟨dac, shifter, hplay⟩ := dmc.exists_playBit
  unfold tick
  rw [hplay]
  by_cases hbits : dmc.bitsLeft = 0
  · rw [if_pos hbits]
    rcases nextByte_cases { dmc with dac, shifter, bitsLeft := dmc.bitsLeft - 1 } hbuffer bus with
      ⟨hlength, shifter, silent, buffer, hnext⟩ | ⟨hlength, shifter, byte, hnext⟩
    · exact .inl ⟨dac, shifter, silent, buffer, .inr hlength, hnext⟩
    · exact .inr ⟨hbits, hlength, dac, shifter, byte, hnext⟩
  · rw [if_neg hbits]
    exact .inl ⟨dac, shifter, dmc.silent, dmc.buffer, .inl ⟨hbits, rfl⟩, rfl⟩

theorem Coherent.tick (h : dmc.Coherent) (bus : Bus) : (dmc.tick bus).1.Coherent := by
  rcases tick_cases h.buffered bus with ⟨dac, shifter, silent, buffer, hcase, htick⟩ |
    ⟨hbits, hlength, dac, shifter, byte, htick⟩
  · rw [htick]
    refine ⟨h.enabled_iff, ?_, h.ends, h.permitted⟩
    rcases hcase with ⟨_, rfl⟩ | hlength
    · exact h.buffered
    · exact fun hleft => absurd hlength hleft
  · rw [htick]
    exact coherent_concluded (h.enabled_iff.mpr hlength) rfl h.ends h.permitted

/-- After a fetch the prediction need only be right where an interrupt is to come. -/
theorem predicted_concluded (hends : dmc.irqEnabled = true → dmc.loops = false)
    (hquiet : dmc.irqEnabled = false → dmc.nextIrq = none)
    (hpredicted : dmc.irqEnabled = true → dmc.voice.length ≠ 0 →
      dmc.nextIrq = some (due + dmc.bitsAhead * dmc.period + 1)) :
    dmc.concluded.nextIrq =
      if dmc.concluded.irqEnabled = true ∧ dmc.concluded.voice.length ≠ 0 then
        some (due + dmc.concluded.bitsAhead * dmc.concluded.period + 1)
      else none := by
  rcases concluded_cases dmc with ⟨hlength, heq⟩ | ⟨_, hloops, heq⟩ | ⟨hlength, _, heq⟩
  · rw [heq]
    cases hirq : dmc.irqEnabled
    · simp [hquiet hirq]
    · simp [hlength, hpredicted hirq hlength]
  · have hirq : dmc.irqEnabled = false := by
      cases hirq : dmc.irqEnabled
      · rfl
      · rw [hends hirq] at hloops
        cases hloops
    rw [heq]
    simp [rewind, hirq, hquiet hirq]
  · rw [heq]
    simp [hlength]

/-- The prediction stays right through an event. -/
theorem Consistent.tick (h : dmc.Consistent due) (bus : Bus) :
    (dmc.tick bus).1.Consistent (due + dmc.period) := by
  have hpredicted := h.predicted
  refine ⟨h.toCoherent.tick bus, ?_⟩
  rcases tick_cases h.buffered bus with ⟨dac, shifter, silent, buffer, hcase, htick⟩ |
    ⟨hbits, hlength, dac, shifter, byte, htick⟩
  · rw [htick]
    show dmc.nextIrq =
      if dmc.irqEnabled = true ∧ dmc.voice.length ≠ 0 then
        some (due + dmc.period +
          (((dmc.voice.length - 1) * 8 + (dmc.bitsLeft - 1).toNat : Nat) : Int) * dmc.period + 1)
      else none
    rw [hpredicted]
    split
    · rename_i hirq
      have hbits : dmc.bitsLeft ≠ 0 := (hcase.resolve_right hirq.2).1
      have hahead : dmc.bitsAhead =
          (dmc.voice.length - 1) * 8 + (dmc.bitsLeft - 1).toNat + 1 := by
        have hpos : dmc.bitsLeft.toNat ≠ 0 := fun h => hbits (BitVec.eq_of_toNat_eq h)
        rw [bitsLeft_pred, if_neg hbits, bitsAhead]
        omega
      rw [hahead, Int.natCast_add, Int.add_mul _ _ (dmc.period : Int), Int.natCast_one, Int.one_mul]
      congr 1
      omega
    · rfl
  · rw [htick]
    refine predicted_concluded h.ends ?_ ?_
    · intro hirq
      show dmc.nextIrq = none
      rw [hpredicted]
      exact if_neg fun hand => by simp [show dmc.irqEnabled = false from hirq] at hand
    · intro hirq hleft
      show dmc.nextIrq = some (due + dmc.period +
        (((dmc.voice.length - 1 - 1) * 8 + (dmc.bitsLeft - 1).toNat : Nat) : Int) * dmc.period + 1)
      have hahead : dmc.bitsAhead =
          (dmc.voice.length - 1 - 1) * 8 + (dmc.bitsLeft - 1).toNat + 1 := by
        have hleft : dmc.voice.length - 1 ≠ 0 := hleft
        rw [bitsLeft_pred, if_pos hbits, bitsAhead, hbits]
        show (dmc.voice.length - 1) * 8 + 0 = _
        omega
      rw [hpredicted, if_pos ⟨hirq, hlength⟩, hahead, Int.natCast_add,
        Int.add_mul _ _ (dmc.period : Int), Int.natCast_one, Int.one_mul]
      congr 1
      omega

/-! ### The interrupt -/

/-- Whether the interrupt is raised or predicted not to come after `stop`. -/
def RaisedBy (dmc : Dmc) (stop : Int) : Prop :=
  dmc.irqFlag = true ∨ ∃ t, dmc.nextIrq = some t ∧ t ≤ stop

/-- At the last fetch of a sample that may raise the interrupt it is due one clock later. -/
theorem Consistent.nextIrq_of_last (h : dmc.Consistent due) (hbits : dmc.bitsLeft = 0)
    (hlength : dmc.voice.length = 1) :
    dmc.nextIrq = if dmc.irqEnabled = true then some (due + 1) else none := by
  have hahead : dmc.bitsAhead = 0 := by
    rw [bitsAhead, hlength, hbits]
    rfl
  rw [h.predicted, hahead, hlength]
  simp

theorem Consistent.raisedBy_tick (h : dmc.Consistent due) (bus : Bus) {stop : Int}
    (hdue : due < stop) : (dmc.tick bus).1.RaisedBy stop ↔ dmc.RaisedBy stop := by
  rcases tick_cases h.buffered bus with ⟨dac, shifter, silent, buffer, _, htick⟩ |
    ⟨hbits, hlength, dac, shifter, byte, htick⟩
  · rw [htick]
    rfl
  · rw [htick]
    rcases concluded_cases ({ dmc with dac, shifter, silent := false, bitsLeft := dmc.bitsLeft - 1 :
      Dmc }.taken byte) with ⟨_, heq⟩ | ⟨_, _, heq⟩ | ⟨hzero, _, heq⟩
    · rw [heq]
      rfl
    · rw [heq]
      rfl
    · have hlast := h.nextIrq_of_last hbits (by
        have hzero : dmc.voice.length - 1 = 0 := hzero
        omega)
      rw [heq]
      show dmc.irqEnabled = true ∨ (∃ t, none = some t ∧ t ≤ stop) ↔ dmc.RaisedBy stop
      unfold RaisedBy
      rw [hlast]
      cases hirq : dmc.irqEnabled
      · have hflag : ¬dmc.irqFlag = true := by
          intro hflag
          rw [h.permitted hflag] at hirq
          cases hirq
        simp [hflag]
      · exact ⟨fun _ => .inr ⟨due + 1, rfl, by omega⟩, fun _ => .inl rfl⟩

theorem Consistent.after (h : dmc.Consistent (now + dmc.voice.delay)) (stop : Int) (bus : Bus) :
    (dmc.after now stop bus).1.Consistent (stop + (dmc.after now stop bus).1.voice.delay) :=
  after_invariant dmc now stop bus (P := fun due s => s.1.Consistent due)
    (fun _ s _ hs => hs.tick s.2) (fun _ _ delay level hs => hs.park delay level) h

theorem Consistent.lt (h : dmc.Consistent due) {t : Int} (ht : dmc.nextIrq = some t) : due < t := by
  have hahead : 0 ≤ (dmc.bitsAhead : Int) * dmc.period :=
    Int.mul_nonneg (Int.natCast_nonneg _) (Int.natCast_nonneg _)
  rw [h.predicted] at ht
  split at ht
  · cases ht
    omega
  · cases ht

theorem Consistent.raisedBy_after (h : dmc.Consistent (now + dmc.voice.delay)) {mid stop : Int}
    (hmid : mid ≤ stop) (bus : Bus) :
    (dmc.after now mid bus).1.RaisedBy stop ↔ dmc.RaisedBy stop := by
  refine (after_invariant dmc now mid bus
    (P := fun due s => s.1.Consistent due ∧ (s.1.RaisedBy stop ↔ dmc.RaisedBy stop))
    ?_ ?_ ⟨h, Iff.rfl⟩).2
  · intro due s hdue hs
    exact ⟨hs.1.tick s.2, (hs.1.raisedBy_tick s.2 (by omega)).trans hs.2⟩
  · intro due s delay level hs
    exact ⟨hs.1.park delay level, hs.2⟩

/-! ### Fetches -/

/-- The time of the next fetch of a channel whose next bit is due at `due`. -/
def fetchDue (dmc : Dmc) (due : Int) : Int := due + (dmc.bitsLeft.toNat * dmc.period : Nat)

/-- The number of fetches before `stop` of a channel whose next bit is due at `due`. -/
def fetchesBefore (dmc : Dmc) (due stop : Int) : Nat :=
  if dmc.voice.length = 0 then 0
  else
    let ahead := Timer.count (dmc.period * 8) (dmc.fetchDue due) stop
    if dmc.loops then ahead else min ahead dmc.voice.length

theorem bytePeriod_pos (dmc : Dmc) : 0 < (dmc.period : Int) * 8 :=
  Int.mul_pos dmc.period_pos (by decide)

theorem le_fetchDue (dmc : Dmc) (due : Int) : due ≤ dmc.fetchDue due :=
  Int.le_add_of_nonneg_right (Int.natCast_nonneg _)

theorem fetchesBefore_of_le {stop : Int} (h : stop ≤ dmc.fetchDue due) :
    dmc.fetchesBefore due stop = 0 := by
  have hcount := Timer.count_eq_zero dmc.bytePeriod_pos h
  unfold fetchesBefore
  simp only [hcount, Nat.zero_min, ite_self]

theorem fetchesBefore_mono {stop stop' : Int} (h : stop ≤ stop') :
    dmc.fetchesBefore due stop ≤ dmc.fetchesBefore due stop' := by
  have hcount := Timer.count_mono dmc.bytePeriod_pos (dmc.fetchDue due) h
  unfold fetchesBefore
  simp only
  split
  · exact Nat.le_refl 0
  · split
    · exact hcount
    · omega

theorem fetchesBefore_rebase (origin stop : Int) :
    (dmc.rebase origin).fetchesBefore (due - origin) (stop - origin) =
      dmc.fetchesBefore due stop := by
  have hfirst : (dmc.rebase origin).fetchDue (due - origin) = dmc.fetchDue due - origin := by
    show due - origin + (dmc.bitsLeft.toNat * dmc.period : Nat) = _
    unfold fetchDue
    omega
  have hcount := Timer.count_rebase (dmc.period * 8) origin (dmc.fetchDue due) stop
  unfold fetchesBefore
  rw [hfirst, ← hcount]
  rfl

/-- A fetch at `due` leaves one fetch less to make. -/
theorem fetchesBefore_concluded (dmc dmc' : Dmc) {stop : Int} (hdue : due < stop)
    (hbits : dmc.bitsLeft = 0) (hlength : dmc.voice.length = dmc'.voice.length + 1)
    (hloops : dmc'.loops = dmc.loops) (hperiod : dmc'.period = dmc.period)
    (hbits' : dmc'.bitsLeft = 7) :
    dmc'.concluded.fetchesBefore (due + dmc.period) stop + 1 = dmc.fetchesBefore due stop := by
  have hfirst : dmc.fetchDue due = due := by
    unfold fetchDue
    rw [hbits]
    simp
  have hnext : dmc'.fetchDue (due + dmc.period) = due + dmc.period * 8 := by
    unfold fetchDue
    rw [hbits', hperiod]
    show due + dmc.period + (7 * dmc.period : Nat) = _
    omega
  have hcount := Timer.count_succ dmc.bytePeriod_pos hdue
  rw [← hnext, ← hperiod] at hcount
  have hall : dmc.fetchesBefore due stop =
      let ahead := Timer.count (dmc'.period * 8) (dmc'.fetchDue (due + dmc'.period)) stop
      if dmc'.loops then ahead + 1 else min (ahead + 1) (dmc'.voice.length + 1) := by
    rw [fetchesBefore, if_neg (by omega), hfirst, ← hperiod, hcount, hlength, hloops]
  rw [hall, ← hperiod]
  rcases concluded_cases dmc' with ⟨hleft, heq⟩ | ⟨_, hagain, heq⟩ | ⟨hzero, hstop, heq⟩
  · rw [heq, fetchesBefore, if_neg hleft]
    simp only
    split
    · rfl
    · omega
  · rw [heq, fetchesBefore, if_neg (by exact Nat.succ_ne_zero _)]
    simp only [hagain, if_true]
    rw [if_pos (by exact hagain)]
    rfl
  · rw [heq, fetchesBefore, if_pos (by exact hzero), hzero]
    simp [hstop]

/-- The fetches that were made and those that are ahead. -/
def fetchesBy (stop due : Int) (s : Dmc × Bus) : Nat :=
  s.2.fetched.size + s.1.fetchesBefore due stop

theorem Coherent.fetchesBy_tick (h : dmc.Coherent) (bus : Bus) {stop : Int} (hdue : due < stop) :
    fetchesBy stop (due + dmc.period) (dmc.tick bus) = fetchesBy stop due (dmc, bus) := by
  rcases tick_cases h.buffered bus with ⟨dac, shifter, silent, buffer, hcase, htick⟩ |
    ⟨hbits, hlength, dac, shifter, byte, htick⟩
  · rw [htick]
    refine congrArg (bus.fetched.size + ·) ?_
    by_cases hlength : dmc.voice.length = 0
    · rw [fetchesBefore, fetchesBefore, if_pos (by exact hlength), if_pos hlength]
    · have hbits := (hcase.resolve_right hlength).1
      have hfirst : due + dmc.period + ((dmc.bitsLeft - 1).toNat * dmc.period : Nat) =
          dmc.fetchDue due := by
        have hpos : dmc.bitsLeft.toNat ≠ 0 := fun h => hbits (BitVec.eq_of_toNat_eq h)
        have hpred : dmc.bitsLeft.toNat = (dmc.bitsLeft - 1).toNat + 1 := by
          rw [bitsLeft_pred, if_neg hbits]
          omega
        rw [fetchDue, hpred, Nat.add_mul]
        omega
      unfold fetchesBefore
      rw [← hfirst]
      rfl
  · have hrestart : dmc.bitsLeft - 1 = 7 := by
      rw [hbits]
      rfl
    have hconcluded := fetchesBefore_concluded dmc
      ({ dmc with dac, shifter, silent := false, bitsLeft := dmc.bitsLeft - 1 : Dmc }.taken byte)
      hdue hbits (Nat.sub_one_add_one hlength).symm rfl rfl hrestart
    have hsize : (bus.read dmc.fetchAddress).2.fetched.size = bus.fetched.size + 1 :=
      Array.size_push _
    rw [htick, fetchesBy, fetchesBy, ← hconcluded]
    simp only
    omega

/-- A run makes the fetches that were ahead. -/
theorem Consistent.fetchesBy_after (h : dmc.Consistent (now + dmc.voice.delay)) {mid stop : Int}
    (hmid : mid ≤ stop) (bus : Bus) :
    fetchesBy stop (mid + (dmc.after now mid bus).1.voice.delay) (dmc.after now mid bus) =
      fetchesBy stop (now + dmc.voice.delay) (dmc, bus) := by
  refine (after_invariant dmc now mid bus
    (P := fun due s => s.1.Consistent due ∧
      fetchesBy stop due s = fetchesBy stop (now + dmc.voice.delay) (dmc, bus)) ?_ ?_ ⟨h, rfl⟩).2
  · intro due s hdue hs
    exact ⟨hs.1.tick s.2, (hs.1.fetchesBy_tick s.2 (by omega)).trans hs.2⟩
  · intro due s delay level hs
    exact ⟨hs.1.park delay level, hs.2⟩

theorem nextFetch?_eq (dmc : Dmc) (now : Int) :
    dmc.nextFetch? now =
      if dmc.voice.length = 0 then none else some (dmc.fetchDue (now + dmc.voice.delay)) := rfl

/-- The fetches to come by `stop`, as many as the sample has. -/
theorem fetchesBefore_succ {n : Nat} {stop : Int} (h : dmc.fetchesBefore due stop = n + 1) :
    dmc.fetchesBefore due (dmc.fetchDue due + n * (dmc.period * 8)) = n ∧
      dmc.fetchesBefore due (dmc.fetchDue due + n * (dmc.period * 8) + 1) = n + 1 := by
  obtain ⟨hbefore, hafter⟩ := Timer.count_event dmc.bytePeriod_pos (dmc.fetchDue due) n
  unfold fetchesBefore at h ⊢
  simp only at h ⊢
  rw [hbefore, hafter]
  by_cases hlength : dmc.voice.length = 0
  · rw [if_pos hlength] at h
    cases h
  · rw [if_neg hlength] at h ⊢
    rw [if_neg hlength]
    split
    · exact ⟨rfl, rfl⟩
    · rename_i hloops
      rw [if_neg hloops] at h
      omega

theorem countFetches_fst (dmc : Dmc) (time now : Int) :
    (dmc.countFetches time now).1 = dmc.fetchesBefore (now + dmc.voice.delay) time := by
  unfold countFetches
  rw [nextFetch?_eq]
  by_cases hlength : dmc.voice.length = 0
  · rw [if_pos hlength, fetchesBefore, if_pos hlength]
  · rw [if_neg hlength]
    simp only
    by_cases htime : time ≤ dmc.fetchDue (now + dmc.voice.delay)
    · rw [if_pos htime, fetchesBefore_of_le htime]
    · rw [if_neg htime, fetchesBefore, if_neg hlength, Timer.count_eq dmc.bytePeriod_pos]

/-- The time that the look-ahead gives is the clock after its last fetch. -/
theorem countFetches_snd (dmc : Dmc) (time now : Int) {n : Nat}
    (h : (dmc.countFetches time now).1 = n + 1) :
    (dmc.countFetches time now).2 =
      dmc.fetchDue (now + dmc.voice.delay) + n * (dmc.period * 8) + 1 := by
  unfold countFetches at h ⊢
  rw [nextFetch?_eq] at h ⊢
  by_cases hlength : dmc.voice.length = 0
  · simp [hlength] at h
  · rw [if_neg hlength] at h ⊢
    simp only at h ⊢
    by_cases htime : time ≤ dmc.fetchDue (now + dmc.voice.delay)
    · simp [htime] at h
    · rw [if_neg htime] at h ⊢
      simp only at h ⊢
      rw [h]
      congr 3
      omega

end Consistent

end Chiptune.Dmc
