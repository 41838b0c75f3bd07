import Chiptune.Proofs.Ledger
import Chiptune.Proofs.Reading
import Chiptune.Proofs.Stops

/-! Silence.  Nothing loads a length while no channel is enabled, and a channel without a length does
not move its level, whatever is written to its registers and however the sequencer clocks it.  So a
chip `AtRest` stays so through every operation that enables no channel, loads no level and switches
none off, and puts out no step; and an output that takes no step hands out nothing but zeros. -/

namespace Chiptune

/-- A level that never leaves the one that was put out makes no step. -/
theorem Timer.sound_eq_nil {σ : Type} {tick : σ → σ} {level : σ → Int} {period heard : Int}
    (h : ∀ s, level s = heard) (time delay stop : Int) (s : σ) :
    sound tick level period heard time delay stop s = [] := by
  have htrace : trace tick level period (count period (time + delay) stop) (time + delay) s = [] :=
    trace_eq_nil (P := fun _ => True) (fun s _ => ⟨trivial, (h _).trans (h s).symm⟩) _ _ trivial
  rw [sound, htrace, h, Int.sub_self, Step.change_zero, List.append_nil]

/-! ### Tone channels -/

/-- A voice with nothing left to play, of which `heard` was put out. -/
structure Voice.AtRest (voice : Voice) (heard : Int) : Prop where
  length : voice.length = 0
  level : voice.level = heard

namespace Voice.AtRest

variable {voice : Voice} {heard : Int} (h : voice.AtRest heard)
include h

theorem write (slot : Slot) (value : UInt8) : (voice.write slot value).AtRest heard :=
  ⟨h.length, h.level⟩

theorem clockLength (haltMask : UInt8) : (voice.clockLength haltMask).AtRest heard := by
  unfold Voice.clockLength
  rw [if_neg (by simp [h.length])]
  exact h

theorem clockEnvelope (envelope : Envelope) : (envelope.clock voice).2.AtRest heard := by
  unfold Envelope.clock
  split
  · exact ⟨h.length, h.level⟩
  · split <;> exact h

theorem disable : ({ voice with length := 0 } : Voice).AtRest heard := ⟨rfl, h.level⟩

end Voice.AtRest

/-- The length is the gate of the volume. -/
theorem Envelope.volume_of_rest {voice : Voice} (h : voice.length = 0) (envelope : Envelope) :
    envelope.volume voice = 0 := by
  unfold volume
  rw [if_pos h]

namespace Pulse

variable {pulse : Pulse} (h : pulse.voice.AtRest 0)
include h

theorem output_of_rest (phase : BitVec 3) : pulse.output phase = 0 := by
  have hvolume : pulse.volume = 0 := pulse.envelope.volume_of_rest h.length
  unfold output
  rw [if_pos (by simp [isSilent, hvolume])]

theorem rest_after (time stop : Int) : (pulse.after time stop).voice.AtRest 0 :=
  ⟨h.length, output_of_rest h _⟩

theorem steps_of_rest (time stop : Int) : pulse.steps time stop = [] := by
  unfold steps
  rw [h.level]
  exact Timer.sound_eq_nil (output_of_rest h) time _ stop _

theorem rest_clockSweep : pulse.clockSweep.voice.AtRest 0 := by
  have hlevel : pulse.clockSweep.voice.level = pulse.voice.level :=
    congrArg Prod.snd pulse.clockSweep_fields.2
  exact ⟨pulse.length_clockSweep.trans h.length, hlevel.trans h.level⟩

end Pulse

namespace Triangle

variable {triangle : Triangle} (h : triangle.voice.AtRest (levelAt triangle.phase))
include h

theorem isHeld_of_rest : triangle.isHeld = true := by
  simp [isHeld, h.length]

theorem rest_after (time stop : Int) :
    (triangle.after time stop).voice.AtRest (levelAt (triangle.after time stop).phase) := by
  rw [after_of_held (isHeld_of_rest h)]
  exact ⟨h.length, rfl⟩

theorem steps_of_rest (time stop : Int) : triangle.steps time stop = [] := by
  rw [steps_of_held (isHeld_of_rest h), h.level, Int.sub_self, Step.change_zero]

end Triangle

namespace Noise

variable {noise : Noise} (h : noise.voice.AtRest 0)
include h

theorem levelAt_of_rest (register : BitVec 15) : noise.levelAt register = 0 :=
  levelAt_of_silent (noise.envelope.volume_of_rest h.length) register

theorem rest_after (time stop : Int) : (noise.after time stop).voice.AtRest 0 :=
  ⟨h.length, levelAt_of_rest h _⟩

theorem steps_of_rest (time stop : Int) : noise.steps time stop = [] := by
  unfold steps
  rw [h.level]
  exact Timer.sound_eq_nil (levelAt_of_rest h) time _ stop _

end Noise

namespace Tones

/-- No tone channel has anything left to play.  The triangle holds the level of its phase. -/
structure AtRest (tones : Tones) : Prop where
  pulse1 : tones.pulse1.voice.AtRest 0
  pulse2 : tones.pulse2.voice.AtRest 0
  triangle : tones.triangle.voice.AtRest (Triangle.levelAt tones.triangle.phase)
  noise : tones.noise.voice.AtRest 0

namespace AtRest

variable {tones : Tones}

theorem after (h : tones.AtRest) (time stop : Int) : (tones.after time stop).AtRest :=
  ⟨Pulse.rest_after h.pulse1 time stop, Pulse.rest_after h.pulse2 time stop,
    Triangle.rest_after h.triangle time stop, Noise.rest_after h.noise time stop⟩

theorem steps (h : tones.AtRest) (time stop : Int) (channel : Channel) :
    tones.steps time stop channel = [] := by
  cases channel with
  | pulse1 => exact Pulse.steps_of_rest h.pulse1 time stop
  | pulse2 => exact Pulse.steps_of_rest h.pulse2 time stop
  | triangle => exact Triangle.steps_of_rest h.triangle time stop
  | noise => exact Noise.steps_of_rest h.noise time stop
  | dmc => rfl

theorem clockHalf (h : tones.AtRest) : tones.clockHalf.AtRest where
  pulse1 := Pulse.rest_clockSweep (h.pulse1.clockLength 0x20)
  pulse2 := Pulse.rest_clockSweep (h.pulse2.clockLength 0x20)
  triangle := h.triangle.clockLength 0x80
  noise := h.noise.clockLength 0x20

theorem clockQuarter (h : tones.AtRest) : tones.clockQuarter.AtRest where
  pulse1 := h.pulse1.clockEnvelope _
  pulse2 := h.pulse2.clockEnvelope _
  triangle := ⟨h.triangle.length, h.triangle.level⟩
  noise := h.noise.clockEnvelope _

theorem clock (h : tones.AtRest) (beat : Beat) : (tones.clock beat).AtRest := by
  unfold Tones.clock
  dsimp only
  split <;> split
  · exact h.clockHalf.clockQuarter
  · exact h.clockQuarter
  · exact h.clockHalf
  · exact h

theorem play (h : tones.AtRest) (time stop : Int) (beats : List (Int × Beat)) :
    (tones.play time stop beats).AtRest := by
  induction beats generalizing tones time with
  | nil => exact h.after time stop
  | cons beat beats ih => exact ih ((h.after time beat.1).clock beat.2) beat.1

theorem playSteps (h : tones.AtRest) (time stop : Int) (channel : Channel)
    (beats : List (Int × Beat)) : tones.playSteps time stop channel beats = [] := by
  induction beats generalizing tones time with
  | nil => exact h.steps time stop channel
  | cons beat beats ih =>
    rw [Tones.playSteps, h.steps, ih ((h.after time beat.1).clock beat.2)]
    rfl

theorem modifyVoice (h : tones.AtRest) (channel : Channel) {f : Voice → Voice}
    (hf : ∀ voice heard, voice.AtRest heard → (f voice).AtRest heard) :
    (tones.modifyVoice channel f).AtRest := by
  cases channel with
  | pulse1 => exact ⟨hf _ _ h.pulse1, h.pulse2, h.triangle, h.noise⟩
  | pulse2 => exact ⟨h.pulse1, hf _ _ h.pulse2, h.triangle, h.noise⟩
  | triangle => exact ⟨h.pulse1, h.pulse2, hf _ _ h.triangle, h.noise⟩
  | noise => exact ⟨h.pulse1, h.pulse2, h.triangle, hf _ _ h.noise⟩
  | dmc => exact h

/-- A write to a register of a channel that is not enabled loads no length. -/
theorem write (h : tones.AtRest) (channel : Channel) (slot : Slot) (value : UInt8) :
    (tones.write channel slot value false).AtRest := by
  have hwritten := h.modifyVoice channel fun voice heard hvoice => hvoice.write slot value
  unfold Tones.write
  split
  · cases channel <;> exact ⟨hwritten.pulse1, hwritten.pulse2, hwritten.triangle, hwritten.noise⟩
  · exact hwritten

theorem enable (h : tones.AtRest) (enables : ByChannel Bool) : (tones.enable enables).AtRest := by
  unfold Tones.enable
  generalize Channel.all = channels
  induction channels generalizing tones with
  | nil => exact h
  | cons channel channels ih =>
    rw [List.foldl_cons]
    split
    · exact ih h
    · exact ih (h.modifyVoice channel fun voice heard hvoice => hvoice.disable)

end AtRest

end Tones

/-! ### The sample channel -/

namespace Dmc

/-- The channel has no byte to fetch or to play, and its level is zero. -/
structure AtRest (dmc : Dmc) : Prop where
  voice : dmc.voice.AtRest 0
  silent : dmc.silent = true
  buffer : dmc.buffer = none
  dac : dmc.dac = 0

namespace AtRest

variable {dmc : Dmc} (h : dmc.AtRest)
include h

/-- A run only counts bits. -/
theorem after (time stop : Int) (bus : Bus) :
    (dmc.after time stop bus).1.AtRest ∧ (dmc.after time stop bus).2 = bus := by
  unfold Dmc.after eventsAfter
  rw [skip_of_silent ⟨h.silent, h.buffer⟩]
  refine ⟨⟨⟨h.voice.length, ?_⟩, h.silent, h.buffer, h.dac⟩, rfl⟩
  show (dmc.dac.toNat : Int) = 0
  rw [h.dac]
  rfl

theorem steps (time stop : Int) (bus : Bus) : dmc.steps time stop bus = [] := by
  unfold Dmc.steps Timer.sound
  rw [trace_of_silent ⟨h.silent, h.buffer⟩, h.voice.level, output, h.dac]
  rfl

theorem disable (bus : Bus) (now : Int) :
    (dmc.clearIrq.setEnabled false bus now).1.AtRest ∧
      (dmc.clearIrq.setEnabled false bus now).2 = bus :=
  ⟨⟨h.voice.disable, h.silent, h.buffer, h.dac⟩, rfl⟩

/-- A write that loads no level, or the level zero. -/
theorem write {slot : Slot} {value : UInt8} (hload : slot = .second → value &&& 0x7F = 0)
    (now : Int) : (dmc.write slot value now).AtRest := by
  cases slot with
  | second =>
    have hmod : value.toNat % 2 ^ 7 = 0 := by
      have hbits := congrArg UInt8.toNat (hload rfl)
      rwa [UInt8.toNat_and, show (0x7F : UInt8).toNat = 2 ^ 7 - 1 from rfl,
        Nat.and_two_pow_sub_one_eq_mod] at hbits
    have hdac : BitVec.ofNat 7 value.toNat = 0 := BitVec.eq_of_toNat_eq hmod
    refine ⟨⟨h.voice.length, ?_⟩, h.silent, h.buffer, hdac⟩
    show ((BitVec.ofNat 7 value.toNat).toNat : Int) -
      (response (BitVec.ofNat 7 value.toNat) - response dmc.dac) = 0
    rw [hdac, h.dac, Int.sub_self]
    rfl
  | _ => exact ⟨h.voice.write _ value, h.silent, h.buffer, h.dac⟩

end AtRest

end Dmc

/-! ### The chip -/

theorem Status.enables_of_clear {value : UInt8} (h : value &&& 0x1F = 0) :
    enables value = .fill false := by
  have hbit (channel : Channel) : value &&& channelBit channel = 0 := by
    have hmask : channelBit channel = 0x1F &&& channelBit channel := by cases channel <;> rfl
    rw [hmask, ← UInt8.and_assoc, h, UInt8.zero_and]
  simp [enables, hbit, ByChannel.ofFn, ByChannel.fill]

/-- No channel is enabled and none has anything left to play. -/
structure Chip.AtRest (chip : Chip) : Prop where
  enables : chip.enables = .fill false
  tones : chip.tones.AtRest
  dmc : chip.dmc.AtRest

theorem Chip.atRest_reset (chip : Chip) : chip.reset.1.AtRest := by
  rw [reset_eq_restarted]
  exact ⟨rfl, ⟨⟨rfl, rfl⟩, ⟨rfl, rfl⟩, ⟨rfl, rfl⟩, ⟨rfl, rfl⟩⟩, ⟨rfl, rfl⟩, rfl, rfl, rfl⟩

theorem Chip.AtRest.active {chip : Chip} (h : chip.AtRest) : chip.active = .fill false := by
  have hlength (channel : Channel) : (chip.voice channel).length = 0 := by
    cases channel with
    | pulse1 => exact h.tones.pulse1.length
    | pulse2 => exact h.tones.pulse2.length
    | triangle => exact h.tones.triangle.length
    | noise => exact h.tones.noise.length
    | dmc => exact h.dmc.voice.length
  simp [Chip.active, hlength, ByChannel.ofFn, ByChannel.fill]

theorem ChannelStep.eq_empty_of_tracks {all : Array ChannelStep}
    (h : ∀ channel, track channel all = []) : all = #[] := by
  rw [← Array.toList_eq_nil_iff]
  cases hsteps : all.toList with
  | nil => rfl
  | cons entry rest =>
    have htrack := h entry.channel
    unfold track at htrack
    rw [hsteps] at htrack
    simp at htrack

/-- A session at rest with `bus` that has put out no step and fetched nothing. -/
structure Session.Hushed (bus : Bus) (session : Session) : Prop where
  chip : session.chip.AtRest
  bus : session.bus = bus
  steps : session.steps = #[]

namespace Session.Hushed

variable {bus : Bus} {session : Session} (h : session.Hushed bus)
include h

theorem announce : session.announce.Hushed bus := by
  refine ⟨?_, ?_, ?_⟩
  · rw [announce_chip]
    exact ⟨h.chip.enables, h.chip.tones, h.chip.dmc⟩
  · rw [announce_bus, h.bus]
  · rw [announce_steps, h.steps]

theorem runTo (stop : Int) : (session.runTo stop).Hushed bus := by
  by_cases hstop : stop ≤ session.chip.time
  · rwa [runTo_of_le hstop]
  · obtain ⟨hdmc, hbus⟩ := h.chip.dmc.after session.chip.time stop session.bus
    have hlt := Int.not_le.mp hstop
    refine ⟨?_, ?_, ChannelStep.eq_empty_of_tracks ?_⟩
    · rw [runTo_chip hlt]
      exact ⟨h.chip.enables, h.chip.tones.play _ _ _, hdmc⟩
    · rw [runTo_bus hlt]
      exact hbus.trans h.bus
    · intro channel
      rw [track_runTo_of_lt hlt, h.steps]
      cases channel with
      | dmc => exact h.chip.dmc.steps _ _ _
      | _ => exact h.chip.tones.playSteps _ _ _ _

/-- A write that enables no channel and loads no level. -/
theorem applyWrite (time : Int) {location : Location} {value : UInt8}
    (hstatus : location = .status → value &&& 0x1F = 0)
    (hload : location = .voice .dmc .second → value &&& 0x7F = 0) :
    (session.applyWrite time location value).Hushed bus := by
  cases location with
  | voice channel slot =>
    cases channel with
    | dmc =>
      have hdmc := h.chip.dmc.write (fun hslot => hload (hslot ▸ rfl)) session.chip.time
      exact ⟨⟨h.chip.enables, h.chip.tones, hdmc⟩, h.bus, h.steps⟩
    | _ =>
      refine ⟨⟨h.chip.enables, ?_, h.chip.dmc⟩, h.bus, h.steps⟩
      unfold Session.applyWrite
      dsimp only
      rw [h.chip.enables]
      exact h.chip.tones.write _ slot value
  | status =>
    have henables := Status.enables_of_clear (hstatus rfl)
    have htones := h.chip.tones.enable (.fill false)
    obtain ⟨hdmc, hbus⟩ := h.chip.dmc.disable session.bus session.chip.time
    unfold Session.applyWrite
    dsimp only
    rw [henables]
    exact ⟨⟨rfl, htones, hdmc⟩, hbus.trans h.bus, h.steps⟩
  | mode => exact ⟨⟨h.chip.enables, h.chip.tones, h.chip.dmc⟩, h.bus, h.steps⟩
  | idle => exact h

theorem readStatus (time : Int) : (session.readStatus time).2.Hushed bus := by
  have hran : ((session.glance time).runTo time).Hushed bus := (h.runTo _).runTo time
  rw [readStatus_snd]
  split
  · refine announce ⟨⟨hran.chip.enables, hran.chip.tones, hran.chip.dmc⟩, hran.bus, hran.steps⟩
  · exact hran

/-- A status read shows no channel. -/
theorem status (time : Int) : (session.readStatus time).1.toByte &&& 0x1F = 0 := by
  have hactive : (session.glance time).chip.active = .fill false := (h.runTo _).chip.active
  rw [readStatus_fst, hactive]
  generalize (session.runTo time).chip.sequencer.irqFlag = frameIrq
  generalize (session.glance time).chip.dmc.irqFlag = dmcIrq
  cases frameIrq <;> cases dmcIrq <;> decide

end Session.Hushed

/-! ### Operations -/

namespace Operation

/-- Whether an operation enables no channel, loads no level into the sample channel and switches no
channel off or on. -/
def isQuiet : Operation → Bool
  | .write _ address value =>
    (address ≠ 0x4015 || value &&& 0x1F = 0) && (address ≠ 0x4011 || value &&& 0x7F = 0)
  | .setMuted _ _ => false
  | _ => true

theorem hushed_act {bus : Bus} {session : Session} (h : session.Hushed bus) {operation : Operation}
    (hquiet : operation.isQuiet = true) : (operation.act session).Hushed bus := by
  cases operation with
  | write time address value =>
    simp only [isQuiet, Bool.and_eq_true, Bool.or_eq_true, decide_eq_true_eq] at hquiet
    obtain ⟨hstatus, hload⟩ := hquiet
    show (session.write time address value).Hushed bus
    cases hlocation : Location.ofAddress? address with
    | none => rwa [Session.write_of_none hlocation]
    | some location =>
      rw [Session.write_of_some hlocation]
      refine ((h.runTo time).applyWrite time ?_ ?_).announce
      · rintro rfl
        have haddress := Location.eq_of_ofAddress?_status hlocation
        exact hstatus.resolve_left (not_not_intro haddress)
      · rintro rfl
        have haddress : address = 0x4011 :=
          UInt16.toNat_inj.mp (Location.toNat_of_ofAddress?_dmc hlocation)
        exact hload.resolve_left (not_not_intro haddress)
  | readStatus time => exact h.readStatus time
  | runFrame time count =>
    have hran := h.runTo time
    exact ⟨⟨hran.chip.enables, hran.chip.tones,
      ⟨hran.chip.dmc.voice, hran.chip.dmc.silent, hran.chip.dmc.buffer, hran.chip.dmc.dac⟩⟩,
      hran.bus, hran.steps⟩
  | takeStall =>
    exact ⟨⟨h.chip.enables, h.chip.tones,
      ⟨h.chip.dmc.voice, h.chip.dmc.silent, h.chip.dmc.buffer, h.chip.dmc.dac⟩⟩, h.bus, h.steps⟩
  | reset =>
    have hrest := session.chip.atRest_reset
    unfold act
    dsimp only
    generalize session.chip.reset.1 = chip at hrest ⊢
    exact ⟨hrest, h.bus, h.steps⟩
  | setMuted position muted => cases hquiet
  | _ => exact h

end Operation

/-! ### The output -/

namespace Resampler

/-- No step waits and none is still heard. -/
structure Blank (r : Resampler) : Prop where
  sum : r.sum = 0
  cell : ∀ i, r.cell i = 0

namespace Blank

variable {r : Resampler}

theorem clear (r : Resampler) : r.clear.Blank := ⟨rfl, fun _ => rfl⟩

theorem endFrame (h : r.Blank) (time : Nat) : (r.endFrame time).Blank := ⟨h.sum, h.cell⟩

theorem carry (h : r.Blank) (n : Nat) : Resampler.carry r.cell r.sum n = 0 := by
  induction n with
  | zero => exact h.sum
  | succ n ih =>
    rw [Resampler.carry, ih, h.cell]
    decide

theorem read (h : r.Blank) (count : Nat) : (r.read count).2.Blank := by
  obtain ⟨_, _, _, hsum⟩ := r.read_snd count
  refine ⟨hsum.trans (h.carry _), ?_⟩
  intro i
  rcases r.cell_read_eq count i with hcell | hcell
  · rw [hcell, h.cell]
  · exact hcell

theorem eq_zero_of_mem_read (h : r.Blank) (count : Nat) {sample : Int16}
    (hsample : sample ∈ (r.read count).1.toList) : sample = 0 := by
  rw [read_fst, render] at hsample
  obtain ⟨i, _, rfl⟩ := List.mem_map.mp hsample
  rw [h.carry]
  decide

end Blank

end Resampler

/-! ### Histories -/

/-- All samples are zero, and no status byte shows a channel. -/
def Outcome.Silent (outcome : Outcome) : Prop :=
  (∀ sample ∈ outcome.taken, sample = 0) ∧
    ∀ status, outcome = .status status → status.toByte &&& 0x1F = 0

namespace Console

/-- A console at rest with `bus`, the output of which is blank. -/
structure Hushed (bus : Bus) (console : Console) : Prop where
  chip : console.board.chip.AtRest
  bus : console.board.bus = bus
  output : console.buffer.resampler.Blank

variable {bus : Bus} {console next : Console}

theorem hushed_create {configuration : Configuration}
    (h : Console.create bus configuration = .ok console) : console.Hushed bus := by
  obtain ⟨buffer, _, rfl⟩ := create_ok h
  refine ⟨?_, reset_bus _, .clear _⟩
  simp only [Console.reset, Board.reset_chip]
  exact Chip.atRest_reset _

namespace Hushed

variable (h : console.Hushed bus) {operation : Operation}
include h

theorem act (hquiet : operation.isQuiet = true) :
    (operation.act console.board.session).Hushed bus :=
  Operation.hushed_act ⟨h.chip, h.bus, rfl⟩ hquiet

theorem delivered (hquiet : operation.isQuiet = true) : console.delivered operation = [] := by
  have hsteps := (h.act hquiet).steps
  cases operation with
  | setMuted position muted => cases hquiet
  -- The mute switches stay, so what is delivered depends on the steps alone.
  | _ => exact congrArg (fun steps => console.board.delivered console.buffer steps.toList) hsteps

theorem perform {outcome : Outcome} (hquiet : operation.isQuiet = true)
    (hperform : console.perform operation = .ok (outcome, next)) : next.Hushed bus := by
  have hact := h.act hquiet
  have hbuffer := perform_buffer hperform
  obtain ⟨hchip, hbus, _⟩ := perform_ok hperform
  rw [h.delivered hquiet] at hbuffer
  refine ⟨?_, ?_, ?_⟩
  · rw [hchip]
    exact hact.chip
  · rw [hbus]
    exact hact.bus
  · rw [hbuffer]
    cases operation with
    | runFrame time count => exact (h.output.endFrame _).read _
    | read count => exact h.output.read count
    | reset => exact .clear _
    | _ => exact h.output

theorem ended (time : Int) : (console.ended time).buffer.resampler.Blank := by
  have hact : ((Operation.runFrame time 0).act console.board.session).Hushed bus := h.act rfl
  have hsteps : (console.board.session.endFrame time).steps = #[] := hact.steps
  have hran := console.absorb_buffer (console.board.session.endFrame time)
  rw [hsteps] at hran
  have hended : (console.ended time).buffer = console.buffer.endFrame time :=
    congrArg (·.endFrame time) hran
  rw [hended]
  exact h.output.endFrame _

theorem outcome {outcome : Outcome}
    (hperform : console.perform operation = .ok (outcome, next)) : outcome.Silent := by
  cases operation with
  | readStatus time =>
    rw [perform_readStatus] at hperform
    obtain ⟨_, _, hnext⟩ := map_eq_ok hperform
    cases hnext
    refine ⟨fun sample hsample => (by cases hsample), ?_⟩
    intro status hstatus
    cases hstatus
    exact Session.Hushed.status ⟨h.chip, h.bus, rfl⟩ time
  | runFrame time count =>
    rw [perform_runFrame] at hperform
    obtain ⟨_, _, hnext⟩ := map_eq_ok hperform
    cases hnext
    exact ⟨fun sample => (h.ended time).eq_zero_of_mem_read _, fun _ hstatus => (by cases hstatus)⟩
  | read count =>
    cases hperform
    exact ⟨fun sample => h.output.eq_zero_of_mem_read _, fun _ hstatus => (by cases hstatus)⟩
  | takeStall | setVolume volume | listen listening | reset =>
    cases hperform
    exact ⟨fun sample hsample => (by cases hsample), fun _ hstatus => (by cases hstatus)⟩
  | write time address value | setMuted position muted =>
    obtain ⟨_, _, hnext⟩ := map_eq_ok hperform
    cases hnext
    exact ⟨fun sample hsample => (by cases hsample), fun _ hstatus => (by cases hstatus)⟩

end Hushed

theorem hushed_attemptAll {operations : List Operation} (h : console.Hushed bus)
    (hquiet : ∀ operation ∈ operations, operation.isQuiet = true) :
    (console.attemptAll operations).Hushed bus ∧
      ∀ outcome, .ok outcome ∈ console.answers operations → outcome.Silent := by
  induction operations generalizing console with
  | nil => exact ⟨h, fun outcome hmem => (by cases hmem)⟩
  | cons operation operations ih =>
    have hrest : ∀ operation ∈ operations, operation.isQuiet = true :=
      fun operation hmem => hquiet operation (.tail _ hmem)
    rw [attemptAll_cons, answers]
    cases hperform : console.perform operation with
    | error fault =>
      rw [attempt_of_error hperform]
      obtain ⟨hlast, hanswers⟩ := ih h hrest
      refine ⟨hlast, ?_⟩
      intro outcome hmem
      rcases List.mem_cons.mp hmem with hfirst | hmem
      · cases hfirst
      · exact hanswers outcome hmem
    | ok result =>
      obtain ⟨first, next⟩ := result
      rw [attempt_of_ok hperform]
      obtain ⟨hlast, hanswers⟩ := ih (h.perform (hquiet operation (.head _)) hperform) hrest
      refine ⟨hlast, ?_⟩
      intro outcome hmem
      rcases List.mem_cons.mp hmem with hfirst | hmem
      · cases hfirst
        exact h.outcome hperform
      · exact hanswers outcome hmem

/-- As long as no operation enables a channel, loads a level into the sample channel or switches a
channel off, all samples are zero, nothing is fetched and no status byte shows a channel, whatever
else is written. -/
theorem silent_until_enabled {configuration : Configuration}
    (hcreate : Console.create bus configuration = .ok console) {operations : List Operation}
    (hquiet : ∀ operation ∈ operations, operation.isQuiet = true) :
    (∀ outcome, .ok outcome ∈ console.answers operations →
      (∀ sample ∈ outcome.taken, sample = 0) ∧
        ∀ status, outcome = .status status → status.toByte &&& 0x1F = 0) ∧
    (console.attemptAll operations).board.bus = bus ∧
    ∀ count, ∀ sample ∈ ((console.attemptAll operations).read count).1, sample = 0 := by
  obtain ⟨hlast, hanswers⟩ := hushed_attemptAll (hushed_create hcreate) hquiet
  refine ⟨hanswers, hlast.bus, ?_⟩
  intro count sample hsample
  exact hlast.output.eq_zero_of_mem_read count (Array.mem_toList_iff.mpr hsample)

/-- Writes to all kinds of registers, with volumes, lengths, a sweep, a sample and five steps, over
two frames with a status read. -/
def busySilence : List Operation :=
  [.write 0 0x4000 0xBF, .write 0 0x4001 0x89, .write 0 0x4003 0x0A, .write 5 0x4010 0xCF,
    .write 5 0x4011 0x80, .write 5 0x4013 0xFF, .write 7 0x4015 0xE0, .write 9 0x4008 0xFF,
    .write 9 0x400A 0x40, .write 9 0x400B 0x18, .write 11 0x400C 0x3F, .write 11 0x400F 0xF8,
    .runFrame 20000 100, .write 30 0x4017 0x80, .readStatus 12000, .runFrame 20000 200]

theorem silent_until_enabled_of_writes :
    ∃ console, Console.create (.unconnected 0xFF) .standard = .ok console ∧
      (∀ operation ∈ busySilence, operation.isQuiet = true) ∧
      ∃ outcome, .ok outcome ∈ console.answers busySilence ∧ outcome.taken.length = 200 ∧
        ∀ sample ∈ outcome.taken, sample = 0 := by
  have hquiet : ∀ operation ∈ busySilence, operation.isQuiet = true := by decide
  obtain ⟨console, hcreate, hfacts⟩ := exists_ok
    (Console.create (.unconnected 0xFF) .standard)
    (fun console => (console.answers busySilence).any fun answer =>
      answer.toOption.any fun outcome => outcome.taken.length = 200)
    (by decide +kernel)
  obtain ⟨answer, hmem, hanswer⟩ := List.any_eq_true.mp hfacts
  obtain ⟨outcome, rfl, hcount⟩ := exists_ok _ _ hanswer
  obtain ⟨hanswers, _, _⟩ := silent_until_enabled hcreate hquiet
  exact ⟨console, hcreate, hquiet, outcome, hmem, of_decide_eq_true hcount, (hanswers _ hmem).1⟩

end Console

end Chiptune
