import Chiptune.Proofs.Gauges
import Chiptune.Proofs.PowerOn
import Chiptune.Proofs.Stops

/-! Which channels may be at work.  The last bytes written to the status and to the rate of the sample
channel decide it: a run only ever takes from a length what it does not reload, so nothing but a write
to an enabled channel brings a length above zero, and a status byte ends the lengths of all channels
that it does not enable. -/

namespace Chiptune

/-! ### Lengths -/

namespace Tones

/-- What a tone channel has left to play. -/
def remaining (tones : Tones) : Channel → Nat
  | .pulse1 => tones.pulse1.voice.length
  | .pulse2 => tones.pulse2.voice.length
  | .triangle => tones.triangle.voice.length
  | .noise => tones.noise.voice.length
  | .dmc => 0

variable (tones : Tones) (channel : Channel)

theorem remaining_eq_gauge : tones.remaining channel = (tones.gauge channel).length := by
  cases channel <;> rfl

/-- No length grows in a run. -/
theorem remaining_play_le (time stop : Int) (beats : List (Int × Beat)) :
    (tones.play time stop beats).remaining channel ≤ tones.remaining channel := by
  rw [remaining_eq_gauge, remaining_eq_gauge, gauge_play]
  exact Gauge.length_after_le ..

theorem remaining_modifyVoice {f : Voice → Voice} (hf : ∀ voice, (f voice).length = voice.length)
    (changed : Channel) :
    (tones.modifyVoice changed f).remaining channel = tones.remaining channel := by
  cases changed <;> cases channel <;> first | rfl | exact hf _

theorem remaining_restart (restarted : Channel) :
    (tones.restart restarted).remaining channel = tones.remaining channel := by
  rw [remaining_eq_gauge, remaining_eq_gauge, gauge_restart]

/-- Only a write to an enabled channel loads a length, and only its own. -/
theorem remaining_write {written : Channel} {enabled : Bool}
    (h : written ≠ channel ∨ enabled = false) (slot : Slot) (value : UInt8) :
    (tones.write written slot value enabled).remaining channel = tones.remaining channel := by
  rcases h with hne | rfl
  · rw [remaining_eq_gauge, remaining_eq_gauge, gauge_write_of_ne hne]
  · have hwrite := tones.remaining_modifyVoice channel (f := (·.write slot value)) (fun _ => rfl)
      written
    unfold write
    dsimp only
    split
    · rwa [remaining_restart, if_neg Bool.false_ne_true]
    · exact hwrite

/-- Only enabled channels have anything left to play. -/
def Within (tones : Tones) (enables : ByChannel Bool) : Prop :=
  ∀ channel, tones.remaining channel ≠ 0 → enables.get channel = true

variable {tones} {enables : ByChannel Bool}

theorem Within.play (h : tones.Within enables) (time stop : Int) (beats : List (Int × Beat)) :
    (tones.play time stop beats).Within enables := by
  intro channel hleft
  have hle := tones.remaining_play_le channel time stop beats
  exact h channel (by omega)

theorem Within.write (h : tones.Within enables) (written : Channel) (slot : Slot) (value : UInt8) :
    (tones.write written slot value (enables.get written)).Within enables := by
  intro channel hleft
  by_cases hsame : written = channel
  · cases henabled : enables.get written
    · rw [henabled, remaining_write _ _ (.inr rfl)] at hleft
      exact h channel hleft
    · rw [← hsame, henabled]
  · rw [remaining_write _ _ (.inl hsame)] at hleft
    exact h channel hleft

/-- A status byte ends the length of every channel that it does not enable. -/
theorem remaining_enable (tones : Tones) (enables : ByChannel Bool) (channel : Channel) :
    (tones.enable enables).remaining channel =
      if enables.get channel then tones.remaining channel else 0 := by
  unfold enable
  simp only [Channel.all, List.foldl]
  cases channel <;> grind [modifyVoice, remaining]

theorem within_enable (tones : Tones) (enables : ByChannel Bool) :
    (tones.enable enables).Within enables := by
  intro channel hleft
  rw [remaining_enable] at hleft
  split at hleft
  · assumption
  · exact absurd rfl hleft

end Tones

/-! ### The sample channel -/

namespace Dmc

theorem untouched_irqEnabled : Untouched irqEnabled :=
  ⟨fun _ _ => rfl, fun _ => rfl, fun _ => rfl, fun _ _ => rfl, fun _ => rfl⟩

theorem irqEnabled_tick (dmc : Dmc) (bus : Bus) : (dmc.tick bus).1.irqEnabled = dmc.irqEnabled := by
  obtain ⟨dac, shifter, hplay⟩ := dmc.exists_playBit
  rw [untouched_irqEnabled.tick, hplay]

theorem irqEnabled_setEnabled (dmc : Dmc) (enabled : Bool) (bus : Bus) (now : Int) :
    (dmc.setEnabled enabled bus now).1.irqEnabled = dmc.irqEnabled := by
  cases enabled with
  | false => rfl
  | true =>
    cases henabled : dmc.enabled
    · rw [setEnabled_of_idle henabled]
      exact untouched_irqEnabled.fill dmc.restarted bus
    · rw [setEnabled_of_enabled henabled]

variable {dmc : Dmc} {due now : Int}

/-- An event may end the sample, but does not start one. -/
theorem Coherent.enabled_of_tick (h : dmc.Coherent) (bus : Bus)
    (henabled : (dmc.tick bus).1.enabled = true) : dmc.enabled = true := by
  rcases tick_cases h.buffered bus with ⟨dac, shifter, silent, buffer, _, htick⟩ |
    ⟨_, hlength, _⟩
  · rwa [htick] at henabled
  · exact h.enabled_iff.mpr hlength

/-- A run keeps whether the channel may raise its interrupt, and does not enable it. -/
theorem Consistent.kept_after (h : dmc.Consistent (now + dmc.voice.delay)) (stop : Int) (bus : Bus) :
    (dmc.after now stop bus).1.irqEnabled = dmc.irqEnabled ∧
      ((dmc.after now stop bus).1.enabled = true → dmc.enabled = true) := by
  refine (after_invariant dmc now stop bus
    (P := fun due s => s.1.Consistent due ∧ s.1.irqEnabled = dmc.irqEnabled ∧
      (s.1.enabled = true → dmc.enabled = true)) ?_ ?_ ⟨h, rfl, id⟩).2
  · rintro due s _ ⟨hs, hirq, henabled⟩
    exact ⟨hs.tick s.2, (s.1.irqEnabled_tick s.2).trans hirq,
      fun hnext => henabled (hs.toCoherent.enabled_of_tick s.2 hnext)⟩
  · rintro due s delay level ⟨hs, hkept⟩
    exact ⟨hs.park delay level, hkept⟩

end Dmc

/-! ### The chip -/

/-- Whether a byte at the rate of the sample channel allows its interrupt. -/
def Dmc.permits (rate : UInt8) : Bool := Voice.bit rate 7 && !Voice.bit rate 6

/-- What the bytes last written to the status and to the rate of the sample channel say of the
chip. -/
structure Chip.Heeds (chip : Chip) (status rate : UInt8) : Prop where
  enables : chip.enables = Status.enables status
  tones : chip.tones.Within chip.enables
  dmc : chip.dmc.enabled = true → chip.enables.dmc = true
  irqEnabled : chip.dmc.irqEnabled = Dmc.permits rate

theorem Dmc.permits_iff (rate : UInt8) : permits rate = true ↔ rate &&& 0xC0 = 0x80 := by
  have hall : ∀ n : Fin 256, permits (.ofFin n) = true ↔ UInt8.ofFin n &&& 0xC0 = 0x80 := by
    decide +kernel
  exact hall rate.toFin

theorem Chip.Heeds.enabled_of_length {chip : Chip} {status rate : UInt8}
    (h : chip.Heeds status rate) (hdmc : chip.dmc.Coherent) {channel : Channel}
    (hleft : (chip.voice channel).length ≠ 0) : chip.enables.get channel = true := by
  cases channel with
  | dmc => exact h.dmc (hdmc.enabled_iff.mpr hleft)
  | pulse1 => exact h.tones .pulse1 hleft
  | pulse2 => exact h.tones .pulse2 hleft
  | triangle => exact h.tones .triangle hleft
  | noise => exact h.tones .noise hleft

theorem Chip.heeds_reset (chip : Chip) : chip.reset.1.Heeds 0 0x10 := by
  rw [reset_eq_restarted]
  refine ⟨rfl, ?_, fun h => Bool.noConfusion h, rfl⟩
  intro channel hleft
  cases channel <;> exact absurd rfl hleft

namespace Session

variable {session : Session} {status rate : UInt8}

theorem heeds_announce (h : session.chip.Heeds status rate) :
    session.announce.chip.Heeds status rate := by
  rw [announce_chip]
  exact ⟨h.enables, h.tones, h.dmc, h.irqEnabled⟩

theorem heeds_runTo (h : session.chip.Heeds status rate) (hchip : session.chip.Consistent)
    (stop : Int) : (session.runTo stop).chip.Heeds status rate := by
  by_cases hstop : stop ≤ session.chip.time
  · rwa [runTo_of_le hstop]
  · obtain ⟨hirq, henabled⟩ := hchip.dmc.kept_after stop session.bus
    rw [runTo_chip (Int.not_le.mp hstop)]
    exact ⟨h.enables, h.tones.play _ _ _, fun hnext => h.dmc (henabled hnext),
      hirq.trans h.irqEnabled⟩

/-- A byte that is the last one written to its address, of the two that matter. -/
theorem heeds_applyWrite (h : session.chip.Heeds status rate) (time : Int) (location : Location)
    (value : UInt8) :
    (session.applyWrite time location value).chip.Heeds
      (if location = .status then value else status)
      (if location = .voice .dmc .first then value else rate) := by
  cases location with
  | voice channel slot =>
    cases channel with
    | dmc =>
      cases slot with
      | first => exact ⟨h.enables, h.tones, h.dmc, rfl⟩
      | _ => exact ⟨h.enables, h.tones, h.dmc, h.irqEnabled⟩
    | _ => exact ⟨h.enables, h.tones.write _ slot value, h.dmc, h.irqEnabled⟩
  | status =>
    refine ⟨rfl, Tones.within_enable _ _, ?_, ?_⟩
    · intro henabled
      show (Status.enables value).dmc = true
      cases hstatus : (Status.enables value).dmc
      · unfold applyWrite at henabled
        dsimp only at henabled
        rw [hstatus] at henabled
        exact henabled
      · rfl
    · exact (Dmc.irqEnabled_setEnabled ..).trans h.irqEnabled
  | mode => exact ⟨h.enables, h.tones, h.dmc, h.irqEnabled⟩
  | idle => exact h

theorem heeds_readStatus (h : session.chip.Heeds status rate) (hchip : session.chip.Consistent)
    (time : Int) : (session.readStatus time).2.chip.Heeds status rate := by
  have hran : ((session.glance time).runTo time).chip.Heeds status rate :=
    heeds_runTo (heeds_runTo h hchip _) (consistent_runTo hchip _) time
  rw [readStatus_snd]
  split
  · exact heeds_announce ⟨hran.enables, hran.tones, hran.dmc, hran.irqEnabled⟩
  · exact hran

end Session

/-! ### Histories -/

theorem Location.eq_status_iff {address : UInt16} {location : Location}
    (h : ofAddress? address = some location) : location = .status ↔ address = 0x4015 := by
  refine ⟨fun hstatus => eq_of_ofAddress?_status (hstatus ▸ h), ?_⟩
  rintro rfl
  exact (Option.some.inj h).symm

theorem Location.eq_rate_iff {address : UInt16} {location : Location}
    (h : ofAddress? address = some location) :
    location = .voice .dmc .first ↔ address = 0x4010 := by
  refine ⟨fun hrate => eq_of_ofAddress?_rate (hrate ▸ h), ?_⟩
  rintro rfl
  exact (Option.some.inj h).symm

/-- The byte that power-on writes to an address. -/
def Chip.powerOnByte (address : UInt16) : UInt8 := (powerOnWrites.lookup address).getD 0

/-- The bytes last written to the addresses since power-on, after another operation. -/
def Operation.written (bytes : UInt16 → UInt8) : Operation → UInt16 → UInt8
  | .write _ address value => fun other => if address = other then value else bytes other
  | .reset => Chip.powerOnByte
  | _ => bytes

/-- A console with the bytes that it last accepted since its power-on. -/
structure Logged where
  console : Console
  bytes : UInt16 → UInt8 := Chip.powerOnByte

namespace Logged

/-- An operation that is refused writes nothing. -/
def step (logged : Logged) (operation : Operation) : Logged :=
  match logged.console.perform operation with
  | .error _ => logged
  | .ok (_, next) => { console := next, bytes := operation.written logged.bytes }

/-- The chip is consistent and heeds the bytes. -/
structure Sound (logged : Logged) : Prop where
  consistent : logged.console.board.chip.Consistent
  heeds : logged.console.board.chip.Heeds (logged.bytes 0x4015) (logged.bytes 0x4010)

theorem heeds_act {session : Session} {bytes : UInt16 → UInt8}
    (h : session.chip.Heeds (bytes 0x4015) (bytes 0x4010)) (hchip : session.chip.Consistent)
    (operation : Operation) :
    (operation.act session).chip.Heeds (operation.written bytes 0x4015)
      (operation.written bytes 0x4010) := by
  cases operation with
  | write time address value =>
    simp only [Operation.written]
    cases hlocation : Location.ofAddress? address with
    | none =>
      have hstatus : address ≠ 0x4015 := by rintro rfl; cases hlocation
      have hrate : address ≠ 0x4010 := by rintro rfl; cases hlocation
      rwa [Operation.act_of_none _ _ hlocation, if_neg hstatus, if_neg hrate]
    | some location =>
      have hwritten := Session.heeds_applyWrite (Session.heeds_runTo h hchip time) time location value
      simp only [Location.eq_status_iff hlocation, Location.eq_rate_iff hlocation] at hwritten
      rw [Operation.act_of_some _ _ hlocation]
      exact Session.heeds_announce hwritten
  | readStatus time => exact Session.heeds_readStatus h hchip time
  | runFrame time count =>
    have hran := Session.heeds_runTo h hchip time
    exact ⟨hran.enables, hran.tones, hran.dmc, hran.irqEnabled⟩
  | takeStall => exact ⟨h.enables, h.tones, h.dmc, h.irqEnabled⟩
  | reset => exact session.chip.heeds_reset
  | _ => exact h

theorem sound_step {logged : Logged} (h : logged.Sound) (operation : Operation) :
    (logged.step operation).Sound := by
  unfold step
  split
  · exact h
  · rename_i outcome next hperform
    obtain ⟨hchip, _, htime⟩ := Console.perform_ok hperform
    constructor
    · show next.board.chip.Consistent
      rw [hchip]
      exact Operation.consistent_act _ h.consistent fun time ht => (htime time ht).1
    · show next.board.chip.Heeds _ _
      rw [hchip]
      exact heeds_act h.heeds h.consistent operation

theorem sound_run {logged : Logged} (h : logged.Sound) (operations : List Operation) :
    (operations.foldl step logged).Sound := by
  induction operations generalizing logged with
  | nil => exact h
  | cons operation operations ih => exact ih (sound_step h operation)

theorem sound_create {bus : Bus} {configuration : Configuration} {console : Console}
    (hcreate : Console.create bus configuration = .ok console) : Sound { console } := by
  obtain ⟨buffer, _, rfl⟩ := Console.create_ok hcreate
  constructor
  · simp only [Console.reset, Board.reset_chip]
    exact (Chip.consistent_reset _).1
  · simp only [Console.reset, Board.reset_chip]
    exact Chip.heeds_reset _

/-- After every history, refused operations included: only the channels that the last byte at `$4015`
enables have anything left to play; the sample channel is enabled while bytes are left, and then the
next one waits; its interrupt may be raised just if the two high bits at `$4010` are 10, and is
predicted just if it may be and bytes are left, for one clock after the bit at which the last byte is
fetched. -/
theorem activity_follows_bytes {bus : Bus} {configuration : Configuration} {console : Console}
    (hcreate : Console.create bus configuration = .ok console) (operations : List Operation) :
    let logged := operations.foldl step { console }
    let chip := logged.console.board.chip
    let dmc := chip.dmc
    (∀ channel, (chip.voice channel).length ≠ 0 →
      logged.bytes 0x4015 &&& Status.channelBit channel ≠ 0) ∧
    (dmc.voice.length ≠ 0 ↔ dmc.enabled = true) ∧
    (dmc.voice.length ≠ 0 → dmc.buffer.isSome = true) ∧
    (dmc.irqEnabled = true ↔ logged.bytes 0x4010 &&& 0xC0 = 0x80) ∧
    (dmc.irqFlag = true → dmc.irqEnabled = true) ∧
    dmc.nextIrq =
      if dmc.irqEnabled = true ∧ dmc.voice.length ≠ 0 then
        some (chip.time + dmc.voice.delay +
          (((dmc.voice.length - 1) * 8 + dmc.bitsLeft.toNat) * dmc.period : Nat) + 1)
      else none := by
  intro logged chip dmc
  obtain ⟨hconsistent, hheeds⟩ := sound_run (sound_create hcreate) operations
  have hdmc : dmc.Consistent (chip.time + dmc.voice.delay) := hconsistent.dmc
  refine ⟨?_, hdmc.enabled_iff.symm, hdmc.buffered, ?_, hdmc.permitted, ?_⟩
  · intro channel hleft
    have henabled := hheeds.enabled_of_length hdmc.toCoherent hleft
    rwa [hheeds.enables, Status.enables, ByChannel.get_ofFn, decide_eq_true_iff] at henabled
  · rw [← Dmc.permits_iff, ← hheeds.irqEnabled]
  · rw [hdmc.predicted, Dmc.bitsAhead, Int.natCast_mul]

/-- A sample that raises the interrupt and a length for the first pulse, a write that is refused, a
frame and a status read. -/
def pulseAndSample : List Operation :=
  [.write 0 0x4010 0x8F, .write 0 0x4013 1, .write 10 0x4015 0x11, .write 20 0x4003 8,
    .write 15 0x4015 0, .runFrame 2000 0, .readStatus 100]

theorem activity_follows_bytes_of_sample :
    ∃ console, Console.create (.unconnected 0) .standard = .ok console ∧
      let logged := pulseAndSample.foldl step { console }
      let chip := logged.console.board.chip
      logged.bytes 0x4015 &&& 0x01 ≠ 0 ∧ chip.tones.pulse1.voice.length = 254 ∧
        chip.dmc.enabled = true ∧ chip.dmc.buffer.isSome = true ∧
        chip.dmc.nextIrq = some (100 + 6 + ((12 - 1) * 8 + 1) * 54 + 1) := by
  obtain ⟨console, hcreate, hfacts⟩ := exists_ok
    (Console.create (.unconnected 0) .standard)
    (fun console =>
      let logged := pulseAndSample.foldl step { console }
      let chip := logged.console.board.chip
      chip.tones.pulse1.voice.length = 254 && chip.dmc.voice.length = 12 && chip.time = 100 &&
        chip.dmc.voice.delay = 6 && chip.dmc.bitsLeft = 1 && chip.dmc.period = 54 &&
        logged.bytes 0x4010 &&& 0xC0 = 0x80)
    (by decide +kernel)
  simp only [Bool.and_eq_true, decide_eq_true_eq] at hfacts
  obtain ⟨⟨⟨⟨⟨⟨hpulse, hlength⟩, htime⟩, hdelay⟩, hbits⟩, hperiod⟩, hrate⟩ := hfacts
  obtain ⟨hchannels, henabled, hbuffer, hirq, _, hnext⟩ :=
    activity_follows_bytes hcreate pulseAndSample
  have hleft : (pulseAndSample.foldl step { console }).console.board.chip.dmc.voice.length ≠ 0 := by
    rw [hlength]
    decide
  refine ⟨console, hcreate, ?_, hpulse, henabled.mp hleft, hbuffer hleft, ?_⟩
  · refine hchannels .pulse1 ?_
    show (pulseAndSample.foldl step { console }).console.board.chip.tones.pulse1.voice.length ≠ 0
    rw [hpulse]
    decide
  · rw [hnext, if_pos ⟨hirq.mpr hrate, hleft⟩, hlength, htime, hdelay, hbits, hperiod]
    rfl

end Logged

end Chiptune
