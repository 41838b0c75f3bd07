import Chiptune.Proofs.ChipRun

/-! What holds of a chip in every state.  `Steady` says that nothing is overdue and that both
predictions of the interrupt are right; it holds through runs, writes and status reads.
`Consistent` adds that the next interrupt is announced, as it is after a reset. -/

namespace Chiptune

namespace Chip

/-- No event of the chip is overdue, and its two predictions of the interrupt are right. -/
structure Steady (chip : Chip) : Prop where
  time_nonneg : 0 ≤ chip.time
  tones : chip.tones.Ready
  dmc_delay : 0 ≤ chip.dmc.voice.delay
  dmc : chip.dmc.Consistent (chip.time + chip.dmc.voice.delay)
  sequencer_delay : 0 ≤ chip.sequencer.delay
  sequencer : chip.sequencer.Predicts (chip.time + chip.sequencer.delay)

/-- A steady chip whose next interrupt is the one that was announced. -/
structure Consistent (chip : Chip) : Prop extends chip.Steady where
  current : chip.earliestIrq = chip.nextIrq

theorem Consistent.announced_eq {chip : Chip} (h : chip.Consistent) : chip.announced = chip := by
  unfold announced
  rw [← h.current]

namespace Steady

variable {chip : Chip} (h : chip.Steady)
include h

theorem announced : chip.announced.Consistent :=
  ⟨⟨h.time_nonneg, h.tones, h.dmc_delay, h.dmc, h.sequencer_delay, h.sequencer⟩, rfl⟩

theorem after {stop : Int} (hstop : chip.time ≤ stop) (bus : Bus) :
    (chip.after stop bus).1.Steady where
  time_nonneg := Int.le_trans h.time_nonneg hstop
  tones := Tones.Ready.play ..
  dmc_delay := chip.dmc.delay_after_nonneg ..
  dmc := h.dmc.after stop bus
  sequencer_delay := chip.sequencer.delay_after_nonneg ..
  sequencer := h.sequencer.after stop

theorem shift {origin : Int} (horigin : origin ≤ chip.time) : (chip.shift origin).Consistent := by
  have hdue (delay : Int) : chip.time - origin + delay = chip.time + delay - origin := by omega
  refine announced ⟨?_, h.tones, h.dmc_delay, ?_, h.sequencer_delay, ?_⟩
  · show 0 ≤ chip.time - origin
    omega
  · show (chip.dmc.rebase origin).Consistent (chip.time - origin + chip.dmc.voice.delay)
    rw [hdue]
    exact h.dmc.rebase origin
  · show (chip.sequencer.rebase origin).Predicts (chip.time - origin + chip.sequencer.delay)
    rw [hdue]
    exact h.sequencer.rebase origin

/-- The steps of a run lie within its span. -/
theorem time_of_mem_steps {stop : Int} (hstop : chip.time ≤ stop) {bus : Bus} {channel : Channel}
    {step : Step} (hstep : step ∈ chip.steps stop bus channel) :
    chip.time ≤ step.time ∧ step.time ≤ stop := by
  have hbeats := Sequencer.beats_ordered chip.sequencer h.sequencer_delay hstop
  cases channel with
  | dmc => exact chip.dmc.time_of_mem_steps h.dmc_delay hstop hstep
  | _ => exact h.tones.time_of_mem_playSteps hbeats hstep

theorem write_dmc (slot : Slot) (value : UInt8) :
    ({ chip with dmc := chip.dmc.write slot value chip.time } : Chip).Steady where
  time_nonneg := h.time_nonneg
  tones := h.tones
  dmc_delay := by
    show 0 ≤ (chip.dmc.write slot value chip.time).voice.delay
    rw [Dmc.delay_write]
    exact h.dmc_delay
  dmc := h.dmc.write slot value
  sequencer_delay := h.sequencer_delay
  sequencer := h.sequencer

theorem write_tones {tones : Tones} (htones : tones.Ready) : ({ chip with tones } : Chip).Steady :=
  ⟨h.time_nonneg, htones, h.dmc_delay, h.dmc, h.sequencer_delay, h.sequencer⟩

end Steady

/-! ### The predicted interrupt -/

/-- A time of which none comes before `origin` is not cut off there. -/
theorem map_max_sub {irq : Option Int} {origin : Int} (h : ∀ t, irq = some t → origin ≤ t) :
    (irq.map fun t => max (t - origin) 0) = irq.map (· - origin) := by
  cases irq with
  | none => rfl
  | some t =>
    have ht := h t rfl
    rw [Option.map_some, Option.map_some]
    congr 1
    omega

theorem nextIrq_shift (chip : Chip) (origin : Int) :
    (chip.shift origin).nextIrq =
      if chip.irqPending then some 0 else chip.nextIrq.map (· - origin) := by
  have hpending : (chip.shift origin).irqPending = chip.irqPending := rfl
  have hdmc : (chip.shift origin).dmc.nextIrq = chip.dmc.nextIrq.map (· - origin) := rfl
  have hsequencer : (chip.shift origin).sequencer.nextIrq =
      chip.sequencer.nextIrq.map (· - origin) := rfl
  unfold nextIrq
  rw [hpending, hdmc, hsequencer]
  cases chip.irqPending
  · cases chip.dmc.nextIrq with
    | none => rfl
    | some a =>
      cases chip.sequencer.nextIrq with
      | none => rfl
      | some b =>
        show some (min (a - origin) (b - origin)) = some (min a b - origin)
        congr 1
        omega
  · rfl

/-- Unless an interrupt is raised, the next one is the earlier of the two that are predicted. -/
theorem nextIrq_le_iff {chip : Chip} (h : chip.irqPending = false) (stop : Int) :
    (∃ t, chip.nextIrq = some t ∧ t ≤ stop) ↔
      (∃ t, chip.dmc.nextIrq = some t ∧ t ≤ stop) ∨
        ∃ t, chip.sequencer.nextIrq = some t ∧ t ≤ stop := by
  unfold nextIrq
  rw [h]
  cases chip.dmc.nextIrq with
  | none => simp
  | some a =>
    cases chip.sequencer.nextIrq with
    | none => simp
    | some b =>
      simp only [Bool.false_eq_true, if_false, Option.some.injEq, exists_eq_left']
      omega

theorem Steady.lt_nextIrq {chip : Chip} (h : chip.Steady) (hpending : chip.irqPending = false)
    {t : Int} (ht : chip.nextIrq = some t) : chip.time < t := by
  have hdmc := h.dmc_delay
  have hsequencer := h.sequencer_delay
  rcases (nextIrq_le_iff hpending t).mp ⟨t, ht, Int.le_refl t⟩ with ⟨a, ha, hle⟩ | ⟨b, hb, hle⟩
  · have hlt := h.dmc.lt ha
    omega
  · have hlt := h.sequencer.lt hb
    omega

/-- The end of a frame only moves the origin of time: no prediction is cut off. -/
theorem Consistent.rebase_eq_shift {chip : Chip} (h : chip.Consistent) :
    chip.rebase chip.time = chip.shift chip.time := by
  have hdmc : chip.dmc.endFrame chip.time = chip.dmc.rebase chip.time := by
    refine congrArg (fun nextIrq => { chip.dmc with nextIrq }) (map_max_sub ?_)
    intro t ht
    have hlt := h.dmc.lt ht
    have hdelay := h.dmc_delay
    omega
  have hsequencer : chip.sequencer.endFrame chip.time = chip.sequencer.rebase chip.time := by
    refine congrArg (fun nextIrq => { chip.sequencer with nextIrq }) (map_max_sub ?_)
    intro t ht
    have hlt := h.sequencer.lt ht
    have hdelay := h.sequencer_delay
    omega
  have hcurrent : (chip.earliestIrq.map fun irq => max (irq - chip.time) 0) =
      (chip.shift chip.time).nextIrq := by
    rw [h.current, nextIrq_shift]
    cases hpending : chip.irqPending
    · exact map_max_sub fun t ht => Int.le_of_lt (h.lt_nextIrq hpending ht)
    · have htime := h.time_nonneg
      have hnow : chip.nextIrq = some 0 := by
        unfold nextIrq
        rw [hpending]
        rfl
      rw [hnow, Option.map_some, if_pos rfl]
      congr 1
      omega
  unfold rebase
  rw [hdmc, hsequencer, hcurrent]
  rfl

end Chip

namespace Session

theorem steady_applyWrite {session : Session} (h : session.chip.Steady) {time : Int}
    (htime : time = session.chip.time) (location : Location) (value : UInt8) :
    (session.applyWrite time location value).chip.Steady := by
  subst htime
  cases location with
  | voice channel slot =>
    cases channel with
    | dmc => exact h.write_dmc slot value
    | _ => exact h.write_tones (h.tones.write ..)
  | status =>
    refine ⟨h.time_nonneg, h.tones.enable _, ?_, ?_, h.sequencer_delay, h.sequencer⟩
    · show 0 ≤ (session.chip.dmc.clearIrq.setEnabled (Status.enables value).dmc session.bus
        session.chip.time).1.voice.delay
      rw [Dmc.delay_setEnabled]
      exact h.dmc_delay
    · exact h.dmc.clearIrq.setEnabled ..
  | mode =>
    refine ⟨h.time_nonneg, h.tones, h.dmc_delay, h.dmc, ?_, ?_⟩
    · exact Sequencer.delay_writeMode_nonneg ..
    · exact Sequencer.predicts_writeMode ..
  | idle => exact h

theorem consistent_runTo {session : Session} (h : session.chip.Consistent) (stop : Int) :
    (session.runTo stop).chip.Consistent := by
  by_cases hstop : stop ≤ session.chip.time
  · rwa [runTo_of_le hstop]
  · rw [runTo_chip (Int.not_le.mp hstop)]
    exact (h.toSteady.after (by omega) session.bus).announced

theorem write_of_none {address : UInt16} (h : Location.ofAddress? address = none)
    (session : Session) (time : Int) (value : UInt8) :
    session.write time address value = session := by
  unfold write
  rw [h]

theorem write_of_some {address : UInt16} {location : Location}
    (h : Location.ofAddress? address = some location) (session : Session) (time : Int)
    (value : UInt8) :
    session.write time address value =
      ((session.runTo time).applyWrite time location value).announce := by
  unfold write
  rw [h]

theorem consistent_write {session : Session} (h : session.chip.Consistent) {time : Int}
    (htime : session.chip.time ≤ time) (address : UInt16) (value : UInt8) :
    (session.write time address value).chip.Consistent := by
  cases hlocation : Location.ofAddress? address with
  | none => rwa [write_of_none hlocation]
  | some location =>
    have hreached : time = (session.runTo time).chip.time := by
      rw [runTo_time]
      omega
    rw [write_of_some hlocation, announce_chip]
    exact (steady_applyWrite (consistent_runTo h time).toSteady hreached location value).announced

theorem steady_clearIrq {session : Session} (h : session.chip.Steady) :
    ({ session.chip with sequencer := session.chip.sequencer.clearIrq } : Chip).Steady :=
  ⟨h.time_nonneg, h.tones, h.dmc_delay, h.dmc, h.sequencer_delay, h.sequencer⟩

theorem consistent_readStatus {session : Session} (h : session.chip.Consistent) (time : Int) :
    (session.readStatus time).2.chip.Consistent := by
  have hnow := consistent_runTo
    (consistent_runTo h (max (time - 1) session.chip.time)) time
  unfold readStatus
  simp only
  split
  · rw [announce_chip]
    exact (steady_clearIrq hnow.toSteady).announced
  · exact hnow

theorem consistent_endFrame {session : Session} (h : session.chip.Consistent) {time : Int}
    (htime : session.chip.time ≤ time) :
    (session.endFrame time).chip = (session.runTo time).chip.shift time ∧
      (session.endFrame time).chip.Consistent := by
  have hran := consistent_runTo h time
  have hreached : (session.runTo time).chip.time = time := by
    rw [runTo_time]
    omega
  have hrebase := hran.rebase_eq_shift
  rw [hreached] at hrebase
  refine ⟨hrebase, ?_⟩
  show ((session.runTo time).chip.rebase time).Consistent
  rw [hrebase]
  exact hran.toSteady.shift (by omega)

end Session

/-! ### Addresses -/

theorem Channel.index_of_ofIndex? {n : Nat} {channel : Channel}
    (h : Channel.ofIndex? n = some channel) : channel.index = n := by
  match n, h with
  | 0, h | 1, h | 2, h | 3, h | 4, h =>
    cases h
    rfl

/-- The number of a register among those of its channel. -/
def Slot.offset : Slot → Nat
  | .first => 0
  | .second => 1
  | .third => 2
  | .fourth => 3

theorem Slot.offset_ofAddress (n : Nat) : (Slot.ofAddress n).offset = n % 4 := by
  unfold Slot.ofAddress offset
  have hlow : n % 4 < 4 := Nat.mod_lt n (by decide)
  grind

namespace Location

theorem ofAddress?_cases {address : UInt16} {location : Location}
    (h : ofAddress? address = some location) :
    (location = .status ∧ address = 0x4015) ∨ (location = .mode ∧ address = 0x4017) ∨
      location = .idle ∨
      ∃ channel, location = .voice channel (Slot.ofAddress address.toNat) ∧
        address.toNat / 4 = 0x1000 + channel.index := by
  unfold ofAddress? at h
  split at h
  · cases h
  · rename_i hrange
    split at h
    · rename_i hstatus
      exact .inl ⟨(Option.some.inj h).symm, hstatus⟩
    · split at h
      · rename_i hmode
        exact .inr (.inl ⟨(Option.some.inj h).symm, hmode⟩)
      · dsimp only at h
        split at h
        · rename_i channel hchannel
          have hfirst : firstAddress.toNat = 0x4000 := rfl
          have hindex := Channel.index_of_ofIndex? hchannel
          have hlow : 0x4000 ≤ address.toNat := by
            have hnot := mt Or.inl hrange
            rwa [UInt16.lt_iff_toNat_lt, Nat.not_lt, hfirst] at hnot
          have hslot : Slot.ofAddress (address.toNat - firstAddress.toNat) =
              Slot.ofAddress address.toNat := by
            have hmod : (address.toNat - 0x4000) % 4 = address.toNat % 4 := by omega
            rw [hfirst, Slot.ofAddress, Slot.ofAddress, hmod]
          refine .inr (.inr (.inr ⟨channel, ?_, by omega⟩))
          rw [← hslot]
          exact (Option.some.inj h).symm
        · exact .inr (.inr (.inl (Option.some.inj h).symm))

theorem eq_of_ofAddress?_status {address : UInt16} (h : ofAddress? address = some .status) :
    address = 0x4015 := by
  rcases ofAddress?_cases h with ⟨_, haddress⟩ | ⟨hmode, _⟩ | hidle | ⟨_, hvoice, _⟩
  · exact haddress
  · cases hmode
  · cases hidle
  · cases hvoice

theorem eq_of_ofAddress?_mode {address : UInt16} (h : ofAddress? address = some .mode) :
    address = 0x4017 := by
  rcases ofAddress?_cases h with ⟨hstatus, _⟩ | ⟨_, haddress⟩ | hidle | ⟨_, hvoice, _⟩
  · cases hstatus
  · exact haddress
  · cases hidle
  · cases hvoice

theorem toNat_of_ofAddress?_voice {address : UInt16} {channel : Channel} {slot : Slot}
    (h : ofAddress? address = some (.voice channel slot)) :
    address.toNat / 4 = 0x1000 + channel.index ∧ Slot.ofAddress address.toNat = slot := by
  rcases ofAddress?_cases h with ⟨hstatus, _⟩ | ⟨hmode, _⟩ | hidle | ⟨_, hvoice, hindex⟩
  · cases hstatus
  · cases hmode
  · cases hidle
  · cases hvoice
    exact ⟨hindex, rfl⟩

theorem range_of_ofAddress?_dmc {address : UInt16} {slot : Slot}
    (h : ofAddress? address = some (.voice .dmc slot)) : 0x4010 ≤ address ∧ address ≤ 0x4013 := by
  obtain ⟨hindex, _⟩ := toNat_of_ofAddress?_voice h
  have hindex : address.toNat / 4 = 0x1004 := hindex
  constructor
  · show 0x4010 ≤ address.toNat
    omega
  · show address.toNat ≤ 0x4013
    omega

theorem toNat_of_ofAddress?_dmc {address : UInt16} {slot : Slot}
    (h : ofAddress? address = some (.voice .dmc slot)) :
    address.toNat = 0x4010 + slot.offset := by
  obtain ⟨hindex, rfl⟩ := toNat_of_ofAddress?_voice h
  have hindex : address.toNat / 4 = 0x1004 := hindex
  rw [Slot.offset_ofAddress]
  omega

theorem eq_of_ofAddress?_rate {address : UInt16}
    (h : ofAddress? address = some (.voice .dmc .first)) : address = 0x4010 :=
  UInt16.toNat_inj.mp (toNat_of_ofAddress?_dmc h)

end Location

/-! ### The time of a chip -/

namespace Session

@[simp] theorem applyWrite_time (session : Session) (time : Int) (location : Location)
    (value : UInt8) :
    (session.applyWrite time location value).chip.time = session.chip.time := by
  cases location with
  | voice channel slot => cases channel <;> rfl
  | _ => rfl

theorem write_time {address : UInt16} {location : Location}
    (h : Location.ofAddress? address = some location) (session : Session) (time : Int)
    (value : UInt8) :
    (session.write time address value).chip.time = max session.chip.time time := by
  rw [write_of_some h, announce_chip]
  show ((session.runTo time).applyWrite time location value).chip.time = _
  rw [applyWrite_time, runTo_time]

theorem readStatus_time (session : Session) (time : Int) :
    (session.readStatus time).2.chip.time = max session.chip.time time := by
  have htime : ((session.runTo (max (time - 1) session.chip.time)).runTo time).chip.time =
      max session.chip.time time := by
    rw [runTo_time, runTo_time]
    omega
  rw [← htime]
  unfold readStatus
  simp only
  split
  · rw [announce_chip]
    rfl
  · rfl

theorem endFrame_time {session : Session} {time : Int} (h : session.chip.time ≤ time) :
    (session.endFrame time).chip.time = 0 := by
  have htime := session.runTo_time time
  show (session.runTo time).chip.time - time = 0
  omega

end Session

/-! ### Power-on -/

namespace Chip

/-- The chip before its power-on writes. -/
def blank (chip : Chip) : Chip :=
  { tones := chip.tones.reset
    dmc := chip.dmc.reset
    sequencer := .powerOn chip.region }

end Chip

namespace Session

theorem write_now {session : Session} {address : UInt16} {location : Location}
    (h : Location.ofAddress? address = some location) {time : Int}
    (htime : time ≤ session.chip.time) (value : UInt8) :
    (session.write time address value).chip =
      (session.applyWrite time location value).chip.announced := by
  rw [write_of_some h, announce_chip, runTo_of_le htime]

/-- The first two power-on writes, to the mode and to the status, make the chip consistent. -/
theorem consistent_of_first_writes {session : Session} {chip : Chip}
    (h : session.chip = chip.blank) :
    ((session.write 0 Location.modeAddress 0).write 0 Location.statusAddress 0).chip.Consistent ∧
      ((session.write 0 Location.modeAddress 0).write 0
        Location.statusAddress 0).chip.time = 0 := by
  have hmode : (session.write 0 Location.modeAddress 0).chip =
      Chip.announced { chip.blank with sequencer := chip.blank.sequencer.writeMode 0 0 } := by
    have hlocation : Location.ofAddress? Location.modeAddress = some .mode := by decide
    rw [write_now hlocation (by rw [h]; exact Int.le_refl 0), ← h]
    rfl
  generalize session.write 0 Location.modeAddress 0 = session at hmode
  have hlocation : Location.ofAddress? Location.statusAddress = some .status := by decide
  have hdisabled : (Status.enables 0).dmc = false := by decide
  have htime : session.chip.time = 0 := by
    rw [hmode]
    rfl
  have htones : session.chip.tones.Ready := by
    rw [hmode]
    exact Tones.Ready.reset chip.tones
  rw [write_now hlocation (Int.le_of_eq htime.symm)]
  refine ⟨Chip.Steady.announced ⟨?_, ?_, ?_, ?_, ?_, ?_⟩, htime⟩
  · exact Int.le_of_eq htime.symm
  · exact htones.enable (Status.enables 0)
  · show 0 ≤ (session.chip.dmc.clearIrq.setEnabled (Status.enables 0).dmc session.bus
      session.chip.time).1.voice.delay
    rw [Dmc.delay_setEnabled, hmode]
    exact Int.le_refl 0
  · show (session.chip.dmc.clearIrq.setEnabled (Status.enables 0).dmc session.bus
      session.chip.time).1.Consistent _
    rw [hdisabled]
    refine Dmc.consistent_disabled ?_ (fun hflag => Bool.noConfusion hflag) _ _
    intro hirq
    rw [hmode] at hirq
    exact Bool.noConfusion hirq
  · show 0 ≤ session.chip.sequencer.delay
    rw [hmode]
    exact Sequencer.delay_writeMode_nonneg ..
  · show session.chip.sequencer.Predicts (session.chip.time + session.chip.sequencer.delay)
    rw [hmode]
    exact Sequencer.predicts_writeMode ..

theorem time_write_zero {session : Session} (h : session.chip.time = 0) (address : UInt16)
    (value : UInt8) : (session.write 0 address value).chip.time = 0 := by
  cases hlocation : Location.ofAddress? address with
  | none => rwa [write_of_none hlocation]
  | some location =>
    rw [write_now hlocation (Int.le_of_eq h.symm)]
    cases location with
    | voice channel slot => cases channel <;> exact h
    | _ => exact h

theorem consistent_writes (writes : List (UInt16 × UInt8)) {session : Session}
    (h : session.chip.Consistent ∧ session.chip.time = 0) :
    (writes.foldl (fun session (address, value) => session.write 0 address value)
        session).chip.Consistent ∧
      (writes.foldl (fun session (address, value) => session.write 0 address value)
        session).chip.time = 0 := by
  induction writes generalizing session with
  | nil => exact h
  | cons write writes ih =>
    exact ih ⟨consistent_write h.1 (Int.le_of_eq h.2) _ _, time_write_zero h.2 _ _⟩

end Session

namespace Chip

/-- The session of the power-on writes. -/
def started (chip : Chip) : Session :=
  powerOnWrites.foldl (fun session (address, value) => session.write 0 address value)
    { chip := chip.blank, bus := .unconnected 0 }

theorem consistent_started (chip : Chip) :
    chip.started.chip.Consistent ∧ chip.started.chip.time = 0 := by
  unfold started powerOnWrites
  rw [List.foldl_cons, List.foldl_cons]
  exact Session.consistent_writes _ (Session.consistent_of_first_writes rfl)

theorem reset_fst (chip : Chip) :
    chip.reset.1 = { chip.started.chip with
      tones := { chip.started.chip.tones with
        triangle := chip.started.chip.tones.triangle.settle }
      dmc := chip.started.chip.dmc.settle } := by
  unfold reset
  dsimp only
  rw [started, blank]

theorem consistent_reset (chip : Chip) : chip.reset.1.Consistent ∧ chip.reset.1.time = 0 := by
  have h := chip.consistent_started
  rw [reset_fst]
  generalize chip.started.chip = started at *
  obtain ⟨h, htime⟩ := h
  refine ⟨⟨⟨h.time_nonneg, ?_, h.dmc_delay, ?_, h.sequencer_delay, h.sequencer⟩, h.current⟩, htime⟩
  · exact ⟨h.tones.pulse1, h.tones.pulse2, h.tones.triangle, h.tones.noise⟩
  · exact ⟨⟨h.dmc.enabled_iff, h.dmc.buffered, h.dmc.ends, h.dmc.permitted⟩, h.dmc.predicted⟩

end Chip

end Chiptune
