import Chiptune.Dmc
import Chiptune.Proofs.Timer

/-! The runs of the sample channel.  Its state changes with every event of its timer (`tick`), and
the bus changes with it.  A run plays its events in every case (`run_eq`, `toList_run`), so it can
be cut at any clock (`after_after`, `steps_split`), and the start of the frame shows only in the
predicted interrupt (`after_rebase`, `steps_rebase`). -/

namespace Chiptune.Dmc

/-! ### Fetching -/

/-- The address of the next fetch. -/
def fetchAddress (dmc : Dmc) : UInt16 := 0x8000 ||| UInt16.ofNat dmc.address.toNat

theorem fetchAddress_eq (dmc : Dmc) :
    dmc.fetchAddress = UInt16.ofNat (0x8000 + dmc.address.toNat) := by
  have hlt : dmc.address.toNat < 2 ^ 15 := dmc.address.isLt
  have hor : 2 ^ 15 * 1 + dmc.address.toNat = 2 ^ 15 * 1 ||| dmc.address.toNat :=
    Nat.two_pow_add_eq_or_of_lt hlt 1
  refine UInt16.toNat_inj.mp ?_
  unfold fetchAddress
  rw [UInt16.toNat_or, UInt16.toNat_ofNat', UInt16.toNat_ofNat',
    Nat.mod_eq_of_lt (show dmc.address.toNat < 2 ^ 16 by omega),
    Nat.mod_eq_of_lt (show 0x8000 + dmc.address.toNat < 2 ^ 16 by omega)]
  exact hor.symm

/-- The channel with a fetched byte in its buffer. -/
def taken (dmc : Dmc) (byte : UInt8) : Dmc :=
  { dmc with
    buffer := some byte
    address := dmc.address + 1
    stall := dmc.stall + fetchStall
    voice := { dmc.voice with length := dmc.voice.length - 1 } }

/-- The end of a sample of which no byte is left: it starts again, or the channel is disabled. -/
def concluded (dmc : Dmc) : Dmc :=
  if dmc.voice.length ≠ 0 then dmc
  else if dmc.loops then dmc.rewind
  else { dmc with enabled := false, irqFlag := dmc.irqEnabled, nextIrq := none }

theorem fill_eq (dmc : Dmc) (bus : Bus) :
    dmc.fill bus =
      if dmc.buffer.isSome ∨ dmc.voice.length = 0 then (dmc, bus)
      else
        ((dmc.taken (bus.read dmc.fetchAddress).1).concluded,
          (bus.read dmc.fetchAddress).2) := by
  rw [concluded, apply_ite (Prod.mk · (bus.read dmc.fetchAddress).2),
    apply_ite (Prod.mk · (bus.read dmc.fetchAddress).2)]
  rfl

/-- The channel with `byte` taken from its buffer into its shifter. -/
def loaded (dmc : Dmc) (byte : UInt8) : Dmc :=
  { dmc with silent := false, shifter := byte, buffer := none }

theorem nextByte_of_some {dmc : Dmc} {byte : UInt8} (h : dmc.buffer = some byte) (bus : Bus) :
    dmc.nextByte bus = (dmc.loaded byte).fill bus := by
  unfold nextByte
  rw [h]
  rfl

theorem nextByte_of_none {dmc : Dmc} (h : dmc.buffer = none) (bus : Bus) :
    dmc.nextByte bus = ({ dmc with silent := true }, bus) := by
  unfold nextByte
  rw [h]

theorem exists_playBit (dmc : Dmc) : ∃ dac shifter, dmc.playBit = { dmc with dac, shifter } := by
  unfold playBit
  split
  · exact ⟨dmc.dac, dmc.shifter, rfl⟩
  · exact ⟨_, _, rfl⟩

/-- No bit of a byte is lost: eight are counted down. -/
theorem bitsLeft_pred (bits : BitVec 3) :
    (bits - 1).toNat = if bits = 0 then 7 else bits.toNat - 1 := by
  revert bits
  decide

/-! ### What an event does not read -/

/-- The channel with changed delay, level put out and predicted interrupt. -/
def revised (dmc : Dmc) (delay level : Int → Int) (irq : Option Int → Option Int) : Dmc :=
  { dmc with
    voice := { dmc.voice with delay := delay dmc.voice.delay, level := level dmc.voice.level }
    nextIrq := irq dmc.nextIrq }

section Revised

variable (dmc : Dmc) (bus : Bus) (delay level : Int → Int) {irq : Option Int → Option Int}
  (hirq : irq none = none)
include hirq

theorem concluded_revised :
    (dmc.revised delay level irq).concluded = dmc.concluded.revised delay level irq := by
  unfold concluded
  rw [apply_ite (revised · delay level irq), apply_ite (revised · delay level irq)]
  conv => rhs; unfold revised; simp only [hirq]
  rfl

theorem fill_revised :
    (dmc.revised delay level irq).fill bus =
      Prod.map (revised · delay level irq) id (dmc.fill bus) := by
  rw [fill_eq, fill_eq, apply_ite (Prod.map (revised · delay level irq) id), Prod.map_apply,
    Prod.map_apply, ← concluded_revised _ _ _ hirq]
  rfl

theorem nextByte_revised :
    (dmc.revised delay level irq).nextByte bus =
      Prod.map (revised · delay level irq) id (dmc.nextByte bus) := by
  cases h : dmc.buffer with
  | none =>
    have h' : (dmc.revised delay level irq).buffer = none := h
    rw [nextByte_of_none h, nextByte_of_none h']
    rfl
  | some byte =>
    have h' : (dmc.revised delay level irq).buffer = some byte := h
    rw [nextByte_of_some h, nextByte_of_some h', ← fill_revised _ _ _ _ hirq]
    rfl

theorem tick_revised :
    (dmc.revised delay level irq).tick bus =
      Prod.map (revised · delay level irq) id (dmc.tick bus) := by
  have hplay : (dmc.revised delay level irq).playBit = dmc.playBit.revised delay level irq := by
    unfold playBit
    rw [apply_ite (revised · delay level irq)]
    rfl
  unfold tick
  rw [apply_ite (Prod.map (revised · delay level irq) id), ← nextByte_revised _ _ _ _ hirq, hplay]
  rfl

end Revised

/-- The channel with another delay and another level put out. -/
def park (dmc : Dmc) (delay level : Int) : Dmc :=
  { dmc with voice := { dmc.voice with delay, level } }

theorem tick_park (dmc : Dmc) (bus : Bus) (delay level : Int) :
    (dmc.park delay level).tick bus = Prod.map (park · delay level) id (dmc.tick bus) :=
  tick_revised dmc bus (fun _ => delay) (fun _ => level) (rfl : id none = none)

/-- The channel as it is seen from a frame that starts at `origin`. -/
def rebase (dmc : Dmc) (origin : Int) : Dmc :=
  { dmc with nextIrq := dmc.nextIrq.map (· - origin) }

theorem tick_rebase (dmc : Dmc) (bus : Bus) (origin : Int) :
    (dmc.rebase origin).tick bus = Prod.map (rebase · origin) id (dmc.tick bus) :=
  tick_revised dmc bus id id (rfl : Option.map (· - origin) none = none)

theorem fill_rebase (dmc : Dmc) (bus : Bus) (origin : Int) :
    (dmc.rebase origin).fill bus = Prod.map (rebase · origin) id (dmc.fill bus) :=
  fill_revised dmc bus id id (rfl : Option.map (· - origin) none = none)

/-! ### Runs -/

theorem bitPeriod_pos (region : Region) (rate : BitVec 4) : 0 < bitPeriod region rate := by
  revert rate
  cases region <;> decide

theorem period_pos (dmc : Dmc) : 0 < (dmc.period : Int) :=
  Int.natCast_pos.mpr (bitPeriod_pos dmc.region dmc.rate)

/-- An event of the timer. -/
def event (s : Dmc × Bus) : Dmc × Bus := s.1.tick s.2

/-- The level of the channel. -/
def output (s : Dmc × Bus) : Int := s.1.dac.toNat

/-- The channel and its bus after the events of a run. -/
def eventsAfter (dmc : Dmc) (time stop : Int) (bus : Bus) : Dmc × Bus :=
  Timer.skip event (Timer.count dmc.period (time + dmc.voice.delay) stop) (dmc, bus)

/-- The channel and its bus after a run. -/
def after (dmc : Dmc) (time stop : Int) (bus : Bus) : Dmc × Bus :=
  let s := dmc.eventsAfter time stop bus
  (s.1.park (Timer.left dmc.period (time + dmc.voice.delay) stop) (output s), s.2)

/-- The steps of a run. -/
def steps (dmc : Dmc) (time stop : Int) (bus : Bus) : List Step :=
  Timer.sound event output dmc.period dmc.voice.level time dmc.voice.delay stop (dmc, bus)

theorem event_park (delay level : Int) (s : Dmc × Bus) :
    event (Prod.map (park · delay level) id s) = Prod.map (park · delay level) id (event s) :=
  s.1.tick_park s.2 delay level

theorem event_rebase (origin : Int) (s : Dmc × Bus) :
    event (Prod.map (rebase · origin) id s) = Prod.map (rebase · origin) id (event s) :=
  s.1.tick_rebase s.2 origin

theorem tick_of_silent {dmc : Dmc} (h : dmc.silent = true ∧ dmc.buffer = none) (bus : Bus) :
    dmc.tick bus = ({ dmc with bitsLeft := dmc.bitsLeft - 1 }, bus) := by
  have hplay : dmc.playBit = dmc := by
    unfold playBit
    rw [if_pos h.1]
  unfold tick
  rw [hplay]
  split
  · have hnone : ({ dmc with bitsLeft := dmc.bitsLeft - 1 } : Dmc).buffer = none := h.2
    refine (nextByte_of_none hnone bus).trans ?_
    rw [← h.1]
  · rfl

/-- Events of a silent channel without a waiting byte only count bits. -/
theorem skip_of_silent {dmc : Dmc} (h : dmc.silent = true ∧ dmc.buffer = none) (bus : Bus)
    (n : Nat) :
    Timer.skip event n (dmc, bus) =
      ({ dmc with bitsLeft := dmc.bitsLeft - BitVec.ofNat 3 n }, bus) := by
  induction n generalizing dmc with
  | zero => simp [Timer.skip]
  | succ n ih =>
    have hbits : dmc.bitsLeft - 1 - BitVec.ofNat 3 n = dmc.bitsLeft - BitVec.ofNat 3 (n + 1) := by
      rw [BitVec.sub_sub, BitVec.ofNat_add, BitVec.add_comm]
      rfl
    rw [Timer.skip, event, tick_of_silent h, ih (by exact h), hbits]

theorem trace_of_silent {dmc : Dmc} (h : dmc.silent = true ∧ dmc.buffer = none) (bus : Bus)
    (period : Int) (n : Nat) (time : Int) :
    Timer.trace event output period n time (dmc, bus) = [] := by
  refine Timer.trace_eq_nil (P := fun s => s.1.silent = true ∧ s.1.buffer = none) ?_ n time h
  intro s hs
  rw [event, tick_of_silent hs]
  exact ⟨hs, rfl⟩

/-- The channel as its run starts: with its level put out. -/
def started (dmc : Dmc) : Dmc := dmc.park dmc.voice.delay dmc.dac.toNat

theorem run_of_sounding {dmc : Dmc} (h : ¬(dmc.silent = true ∧ dmc.buffer = none))
    (time stop : Int) (bus : Bus) (all : Array Step) :
    dmc.run time stop bus all =
      let first := time + dmc.voice.delay
      let (s, steps) := Timer.play event output dmc.period (Timer.count dmc.period first stop) first
        (dmc.started, bus) (Step.record all time (dmc.dac.toNat - dmc.voice.level))
      (s.1.park (Timer.left dmc.period first stop) (output s), s.2, steps) := by
  unfold run
  simp only [Voice.moveTo, Option.isNone_iff_eq_none, if_neg h]
  rfl

theorem run_eq (dmc : Dmc) (time stop : Int) (bus : Bus) (all : Array Step) :
    ((dmc.run time stop bus all).1, (dmc.run time stop bus all).2.1) = dmc.after time stop bus := by
  by_cases h : dmc.silent = true ∧ dmc.buffer = none
  · unfold run after eventsAfter
    rw [skip_of_silent h]
    simp [h, Voice.moveTo, park, output, Timer.left]
  · have hskip := Timer.skip_comm (event_park dmc.voice.delay dmc.dac.toNat)
      (Timer.count dmc.period (time + dmc.voice.delay) stop) (dmc, bus)
    rw [run_of_sounding h]
    simp only [Timer.play_fst]
    exact congrArg
      (fun s => (park s.1 (Timer.left dmc.period (time + dmc.voice.delay) stop) (output s), s.2))
      hskip

theorem toList_run (dmc : Dmc) (time stop : Int) (bus : Bus) (all : Array Step) :
    (dmc.run time stop bus all).2.2.toList = all.toList ++ dmc.steps time stop bus := by
  by_cases h : dmc.silent = true ∧ dmc.buffer = none
  · unfold run steps Timer.sound
    rw [trace_of_silent h]
    simp [h, Voice.moveTo, Step.toList_record, output]
  · have htrace (n : Nat) (time : Int) : Timer.trace event output dmc.period n time
        (dmc.started, bus) = Timer.trace event output dmc.period n time (dmc, bus) :=
      Timer.trace_comm (event_park dmc.voice.delay dmc.dac.toNat) (fun _ => rfl) n time (dmc, bus)
    rw [run_of_sounding h]
    simp only [Timer.toList_play, Step.toList_record, List.append_assoc, htrace]
    rfl

/-! ### Runs cut in two -/

/-- What a tick and its fetch leave as it is. -/
structure Setup where
  region : Region
  rate : BitVec 4
  delay : Int
  level : Int

/-- The setup of a channel. -/
def setup (dmc : Dmc) : Setup := ⟨dmc.region, dmc.rate, dmc.voice.delay, dmc.voice.level⟩

theorem period_of_setup {dmc dmc' : Dmc} (h : dmc'.setup = dmc.setup) :
    dmc'.period = dmc.period :=
  congrArg (fun setup : Setup => bitPeriod setup.region setup.rate) h

/-- A view of the channel that a fetch and the taking of a byte leave as it is. -/
structure Untouched {α : Type} (view : Dmc → α) : Prop where
  taken : ∀ dmc byte, view (dmc.taken byte) = view dmc
  rewind : ∀ dmc, view dmc.rewind = view dmc
  ended : ∀ dmc, view { dmc with enabled := false, irqFlag := dmc.irqEnabled, nextIrq := none } =
    view dmc
  loaded : ∀ dmc byte, view (dmc.loaded byte) = view dmc
  silenced : ∀ dmc, view { dmc with silent := true } = view dmc

namespace Untouched

variable {α : Type} {view : Dmc → α} (h : Untouched view) (dmc : Dmc) (bus : Bus)
include h

theorem fill : view (dmc.fill bus).1 = view dmc := by
  rw [fill_eq, concluded]
  split
  · rfl
  · split
    · exact h.taken _ _
    · split
      · rw [h.rewind, h.taken]
      · rw [h.ended, h.taken]

theorem nextByte : view (dmc.nextByte bus).1 = view dmc := by
  cases hbyte : dmc.buffer with
  | none => rw [nextByte_of_none hbyte, h.silenced]
  | some byte => rw [nextByte_of_some hbyte, h.fill, h.loaded]

theorem tick : view (dmc.tick bus).1 = view { dmc.playBit with bitsLeft := dmc.bitsLeft - 1 } := by
  unfold Dmc.tick
  split
  · exact h.nextByte _ _
  · rfl

end Untouched

theorem untouched_setup : Untouched setup :=
  ⟨fun _ _ => rfl, fun _ => rfl, fun _ => rfl, fun _ _ => rfl, fun _ => rfl⟩

theorem setup_fill (dmc : Dmc) (bus : Bus) : (dmc.fill bus).1.setup = dmc.setup :=
  untouched_setup.fill dmc bus

theorem setup_tick (dmc : Dmc) (bus : Bus) : (dmc.tick bus).1.setup = dmc.setup := by
  obtain ⟨dac, shifter, hplay⟩ := dmc.exists_playBit
  rw [untouched_setup.tick, hplay]
  rfl

theorem setup_skip (n : Nat) (s : Dmc × Bus) : (Timer.skip event n s).1.setup = s.1.setup := by
  induction n generalizing s with
  | zero => rfl
  | succ n ih => rw [Timer.skip, ih, event, setup_tick]

theorem setup_eventsAfter (dmc : Dmc) (time stop : Int) (bus : Bus) :
    (dmc.eventsAfter time stop bus).1.setup = dmc.setup :=
  setup_skip _ (dmc, bus)

theorem region_after (dmc : Dmc) (time stop : Int) (bus : Bus) :
    (dmc.after time stop bus).1.region = dmc.region :=
  congrArg Setup.region (dmc.setup_eventsAfter time stop bus)

theorem period_after (dmc : Dmc) (time stop : Int) (bus : Bus) :
    (dmc.after time stop bus).1.period = dmc.period :=
  have hevents := period_of_setup (dmc.setup_eventsAfter time stop bus)
  hevents

theorem eventsAfter_split (dmc : Dmc) (time : Int) {mid stop : Int} (bus : Bus) (h : mid ≤ stop) :
    (dmc.after time mid bus).1.eventsAfter mid stop (dmc.after time mid bus).2 =
      Prod.map (park · (Timer.left dmc.period (time + dmc.voice.delay) mid)
        (output (dmc.eventsAfter time mid bus))) id (dmc.eventsAfter time stop bus) := by
  have hcount := Timer.count_split dmc.period_pos (time + dmc.voice.delay) h
  unfold eventsAfter at *
  rw [hcount, Timer.skip_add, period_after]
  exact Timer.skip_comm (event_park _ _) _ _

theorem after_after (dmc : Dmc) (time : Int) {mid stop : Int} (bus : Bus) (h : mid ≤ stop) :
    (dmc.after time mid bus).1.after mid stop (dmc.after time mid bus).2 =
      dmc.after time stop bus := by
  have hleft := Timer.left_split dmc.period_pos (time + dmc.voice.delay) h
  rw [after, eventsAfter_split dmc time bus h, period_after]
  exact congrArg (fun left => (park (dmc.eventsAfter time stop bus).1 left _, _)) hleft

theorem steps_split (dmc : Dmc) (time : Int) {mid stop : Int} (bus : Bus) (h : mid ≤ stop) :
    dmc.steps time stop bus =
      dmc.steps time mid bus ++
        (dmc.after time mid bus).1.steps mid stop (dmc.after time mid bus).2 := by
  unfold steps
  rw [Timer.sound_split dmc.period_pos _ time _ _ h, period_after]
  exact congrArg _ (Timer.sound_comm (event_park _ _) (fun _ => rfl) _ _ _ _ _).symm

/-! ### Frames -/

theorem count_rebase (dmc : Dmc) (origin time stop : Int) :
    Timer.count dmc.period (time - origin + dmc.voice.delay) (stop - origin) =
        Timer.count dmc.period (time + dmc.voice.delay) stop ∧
      Timer.left dmc.period (time - origin + dmc.voice.delay) (stop - origin) =
        Timer.left dmc.period (time + dmc.voice.delay) stop := by
  have hfirst : time - origin + dmc.voice.delay = time + dmc.voice.delay - origin := by omega
  rw [hfirst, Timer.count_rebase, Timer.left_rebase]
  exact ⟨rfl, rfl⟩

theorem eventsAfter_rebase (dmc : Dmc) (origin time stop : Int) (bus : Bus) :
    (dmc.rebase origin).eventsAfter (time - origin) (stop - origin) bus =
      Prod.map (rebase · origin) id (dmc.eventsAfter time stop bus) := by
  unfold eventsAfter
  rw [← (dmc.count_rebase origin time stop).1]
  exact Timer.skip_comm (event_rebase origin) _ (dmc, bus)

theorem after_rebase (dmc : Dmc) (origin time stop : Int) (bus : Bus) :
    (dmc.rebase origin).after (time - origin) (stop - origin) bus =
      Prod.map (rebase · origin) id (dmc.after time stop bus) := by
  unfold after
  rw [eventsAfter_rebase, ← (dmc.count_rebase origin time stop).2]
  rfl

theorem steps_rebase (dmc : Dmc) (origin time stop : Int) (bus : Bus) :
    (dmc.rebase origin).steps (time - origin) (stop - origin) bus =
      (dmc.steps time stop bus).map (Step.rebase origin) := by
  unfold steps
  rw [← Timer.sound_rebase]
  exact Timer.sound_comm (event_rebase origin) (fun _ => rfl) _ _ _ _ (dmc, bus)

/-- What every event before `stop` preserves holds after a run to `stop`.  `P` may speak of the time
at which the next event is due, and the delay and the level put out must not matter to it. -/
theorem after_invariant (dmc : Dmc) (time stop : Int) (bus : Bus) {P : Int → Dmc × Bus → Prop}
    (htick : ∀ due s, due < stop → P due s → P (due + s.1.period) (event s))
    (hpark : ∀ due s delay level, P due s → P due (s.1.park delay level, s.2))
    (h : P (time + dmc.voice.delay) (dmc, bus)) :
    P (stop + (dmc.after time stop bus).1.voice.delay) (dmc.after time stop bus) := by
  have hevents : (dmc.eventsAfter time stop bus).1.period = dmc.period ∧
      P (stop + Timer.left dmc.period (time + dmc.voice.delay) stop)
        (dmc.eventsAfter time stop bus) := by
    refine Timer.skip_invariant dmc.period_pos
      (P := fun due s => s.1.period = dmc.period ∧ P due s) ?_ ⟨rfl, h⟩
    intro due s hdue hs
    refine ⟨(period_of_setup (s.1.setup_tick s.2)).trans hs.1, ?_⟩
    rw [← hs.1]
    exact htick due s hdue hs.2
  exact hpark _ _ _ _ hevents.2

theorem delay_after_nonneg (dmc : Dmc) (time stop : Int) (bus : Bus) :
    0 ≤ (dmc.after time stop bus).1.voice.delay :=
  Timer.left_nonneg dmc.period_pos _ _

theorem time_of_mem_steps (dmc : Dmc) {time stop : Int} {bus : Bus} (hdelay : 0 ≤ dmc.voice.delay)
    (h : time ≤ stop) {step : Step} (hstep : step ∈ dmc.steps time stop bus) :
    time ≤ step.time ∧ step.time ≤ stop :=
  Timer.time_of_mem_sound dmc.period_pos hdelay h hstep

end Chiptune.Dmc
