import Chiptune.Proofs.Operation

/-! The power-on state.  A reset puts out the same chip whatever the chip did before.  The channels
keep registers, marks and lengths in their own resets, so this rests on the writes that follow: with
all channels disabled they write every register of every channel.  What is left is the `wiring` of
the chip, which no operation changes. -/

namespace Chiptune

/-- What a chip is built with: the regions of its sequencer and of its sample channel, and how its
pulses subtract. -/
structure Wiring where
  sequencer : Region
  dmc : Region
  pulse1 : Negation
  pulse2 : Negation
  deriving DecidableEq

/-- The wiring of a chip of a region. -/
def Wiring.standard (region : Region) : Wiring :=
  ⟨region, region, .onesComplement, .twosComplement⟩

namespace Chip

/-- The wiring of the chip. -/
def wiring (chip : Chip) : Wiring :=
  ⟨chip.sequencer.region, chip.dmc.region, chip.tones.pulse1.negation, chip.tones.pulse2.negation⟩

end Chip

/-! ### The writes of power-on -/

/-- A voice after the power-on writes. -/
def Voice.poweredOn : Voice := { registers := ⟨0x10, 0, 0, 0⟩, pending := .fill true }

/-- The tone channels after the power-on writes. -/
def Tones.poweredOn (pulse1 pulse2 : Negation) : Tones :=
  { pulse1 := { negation := pulse1, voice := .poweredOn, phase := 7 }
    pulse2 := { negation := pulse2, voice := .poweredOn, phase := 7 }
    triangle := { voice := .poweredOn }
    noise := { voice := .poweredOn } }

namespace Dmc

theorem write_first_of_quiet {dmc : Dmc} (h : dmc.irqFlag = false) (now : Int) :
    dmc.write .first 0x10 now =
      { dmc with
        voice := dmc.voice.write .first 0x10
        rate := 0
        irqEnabled := false
        irqFlag := false
        nextIrq := none } := by
  unfold write
  simp only [h]
  rfl

theorem write_second_zero {dmc : Dmc} (h : dmc.dac = 0) (now : Int) :
    dmc.write .second 0 now =
      { dmc with voice := { dmc.voice.write .second 0 with level := 0 } } := by
  unfold write
  simp [h]

/-- The sample channel after the power-on writes. -/
def poweredOn (region : Region) : Dmc := { region, voice := .poweredOn }

theorem write_poweredOn (dmc : Dmc) (bus : Bus) (now : Int) :
    ((((dmc.reset.clearIrq.setEnabled false bus now).1.write .first 0x10 now).write .second 0
      now).write .third 0 now).write .fourth 0 now = poweredOn dmc.region := by
  rw [write_first_of_quiet rfl, write_second_zero rfl]
  rfl

end Dmc

namespace Chip

/-- A write to a register of a channel. -/
def writeVoice (chip : Chip) (channel : Channel) (slot : Slot) (value : UInt8) : Chip :=
  match channel with
  | .dmc => { chip with dmc := chip.dmc.write slot value chip.time }
  | channel =>
    { chip with tones := chip.tones.write channel slot value (chip.enables.get channel) }

theorem announced_writeVoice (chip : Chip) (channel : Channel) (slot : Slot) (value : UInt8) :
    (chip.announced.writeVoice channel slot value).announced =
      (chip.writeVoice channel slot value).announced := by
  cases channel <;> rfl

theorem time_writeVoice (chip : Chip) (channel : Channel) (slot : Slot) (value : UInt8) :
    (chip.writeVoice channel slot value).time = chip.time := by
  cases channel <;> rfl

/-- The writes of power-on that reach a channel. -/
def powerOnVoices : List (Channel × Slot × UInt8) :=
  Channel.all.flatMap fun channel =>
    [(channel, .first, 0x10), (channel, .second, 0), (channel, .third, 0), (channel, .fourth, 0)]

end Chip

namespace Session

theorem write_voice {session : Session} {chip : Chip} (h : session.chip = chip.announced)
    (htime : chip.time = 0) {address : UInt16} {channel : Channel} {slot : Slot}
    (haddress : Location.ofAddress? address = some (.voice channel slot)) (value : UInt8) :
    (session.write 0 address value).chip = (chip.writeVoice channel slot value).announced := by
  have hnow : (0 : Int) ≤ session.chip.time := by
    rw [h]
    exact Int.le_of_eq htime.symm
  rw [write_now haddress hnow, ← Chip.announced_writeVoice, ← h]
  cases channel <;> rfl

/-- Writes to registers of channels act on the chip alone. -/
theorem write_voices {writes : List (UInt16 × UInt8)} {voices : List (Channel × Slot × UInt8)}
    (h : writes.map (fun write => (Location.ofAddress? write.1, write.2)) =
      voices.map fun voice => (some (.voice voice.1 voice.2.1), voice.2.2))
    {session : Session} {chip : Chip} (hchip : session.chip = chip.announced)
    (htime : chip.time = 0) :
    (writes.foldl (fun session (address, value) => session.write 0 address value) session).chip =
      (voices.foldl (fun chip voice => chip.writeVoice voice.1 voice.2.1 voice.2.2)
        chip).announced := by
  induction writes generalizing voices session chip with
  | nil =>
    cases voices with
    | nil => exact hchip
    | cons voice voices => cases h
  | cons write writes ih =>
    cases voices with
    | nil => cases h
    | cons voice voices =>
      obtain ⟨address, value⟩ := write
      obtain ⟨channel, slot, value'⟩ := voice
      obtain ⟨hwrite, hwrites⟩ := List.cons.inj h
      obtain ⟨haddress, hvalue⟩ := Prod.mk.inj hwrite
      obtain rfl : value = value' := hvalue
      refine ih hwrites (write_voice hchip htime haddress value) ?_
      rw [Chip.time_writeVoice, htime]

end Session

namespace Chip

theorem powerOnWrites_eq :
    powerOnWrites = (Location.modeAddress, 0) :: (Location.statusAddress, 0) ::
        (powerOnWrites.drop 2) ∧
      (powerOnWrites.drop 2).map (fun write => (Location.ofAddress? write.1, write.2)) =
        powerOnVoices.map fun voice => (some (.voice voice.1 voice.2.1), voice.2.2) :=
  ⟨rfl, by decide⟩

/-- The chip after its first two power-on writes, to the mode and to the status. -/
def silenced (chip : Chip) : Chip :=
  { tones := chip.tones.reset.enable (.fill false)
    dmc := (chip.dmc.reset.clearIrq.setEnabled false (.unconnected 0) 0).1
    sequencer := (Sequencer.powerOn chip.region).writeMode 0 0 }

theorem first_writes (chip : Chip) :
    ((({ chip := chip.blank, bus := .unconnected 0 } : Session).write 0
      Location.modeAddress 0).write 0 Location.statusAddress 0).chip = chip.silenced.announced := by
  have hmode : Location.ofAddress? Location.modeAddress = some .mode := by decide
  have hstatus : Location.ofAddress? Location.statusAddress = some .status := by decide
  have henables : Status.enables 0 = .fill false := by decide
  have hmoded : (({ chip := chip.blank, bus := .unconnected 0 } : Session).write 0
      Location.modeAddress 0).chip =
        announced { chip.blank with sequencer := chip.blank.sequencer.writeMode 0 0 } :=
    Session.write_now hmode (Int.le_refl 0) 0
  rw [Session.write_now hstatus (by rw [hmoded]; exact Int.le_refl 0), Session.applyWrite]
  dsimp only
  rw [henables, hmoded]
  rfl

/-- The chip after all power-on writes. -/
def poweredOn (wiring : Wiring) : Chip :=
  { tones := .poweredOn wiring.pulse1 wiring.pulse2
    dmc := .poweredOn wiring.dmc
    sequencer := (Sequencer.powerOn wiring.sequencer).writeMode 0 0 }

theorem writes_silenced (chip : Chip) :
    powerOnVoices.foldl (fun chip voice => chip.writeVoice voice.1 voice.2.1 voice.2.2)
      chip.silenced = poweredOn chip.wiring := by
  have hdmc := chip.dmc.write_poweredOn (.unconnected 0) 0
  exact congrArg
    (fun dmc => ({ chip.silenced with
      tones := .poweredOn chip.tones.pulse1.negation chip.tones.pulse2.negation
      dmc } : Chip)) hdmc

theorem started_chip (chip : Chip) : chip.started.chip = (poweredOn chip.wiring).announced := by
  obtain ⟨hwrites, hvoices⟩ := powerOnWrites_eq
  unfold started
  rw [hwrites, List.foldl_cons, List.foldl_cons,
    Session.write_voices hvoices chip.first_writes rfl, writes_silenced]

/-- The chip after a reset. -/
def restarted (wiring : Wiring) : Chip :=
  let started := (poweredOn wiring).announced
  { started with
    tones := { started.tones with triangle := started.tones.triangle.settle }
    dmc := started.dmc.settle }

/-- A reset keeps nothing of a chip but its wiring. -/
theorem reset_eq_restarted (chip : Chip) : chip.reset.1 = restarted chip.wiring := by
  rw [reset_fst, started_chip]
  rfl

theorem wiring_restarted (wiring : Wiring) : (restarted wiring).wiring = wiring := rfl

theorem powerOn_eq_restarted (region : Region) :
    powerOn region = restarted (.standard region) :=
  reset_eq_restarted _

end Chip

namespace Console

theorem reset_mix (console : Console) : console.reset.board.mix = console.board.mix :=
  Board.hear_mix ..

theorem reset_muted (console : Console) : console.reset.board.muted = console.board.muted :=
  Board.hear_muted ..

theorem reset_bus (console : Console) : console.reset.board.bus = console.board.bus :=
  Board.reset_bus _

theorem reset_chip (console : Console) :
    console.reset.board.chip = .restarted console.board.chip.wiring :=
  (Board.reset_chip _).trans (Chip.reset_eq_restarted _)

/-- Nothing is muted in a console that was just created. -/
theorem create_unmuted {bus : Bus} {configuration : Configuration} {console : Console}
    (h : Console.create bus configuration = .ok console) :
    console.board.muted = .fill false := by
  obtain ⟨buffer, _, rfl⟩ := create_ok h
  exact reset_muted _

end Console

/-! ### No operation changes the wiring -/

namespace Tones

/-- How the two pulses subtract. -/
def negations (tones : Tones) : Negation × Negation :=
  (tones.pulse1.negation, tones.pulse2.negation)

theorem negations_clock (tones : Tones) (beat : Beat) :
    (tones.clock beat).negations = tones.negations := by
  unfold clock clockHalf clockQuarter negations
  split <;> split <;> simp [Pulse.clockEnvelope, Pulse.clockLength, Pulse.clockSweep_fields]

theorem negations_play (tones : Tones) (time stop : Int) (beats : List (Int × Beat)) :
    (tones.play time stop beats).negations = tones.negations := by
  induction beats generalizing tones time with
  | nil => rfl
  | cons beat beats ih =>
    rw [play, ih, negations_clock]
    rfl

theorem negations_modifyVoice (tones : Tones) (channel : Channel) (f : Voice → Voice) :
    (tones.modifyVoice channel f).negations = tones.negations := by
  cases channel <;> rfl

theorem negations_write (tones : Tones) (channel : Channel) (slot : Slot) (value : UInt8)
    (enabled : Bool) : (tones.write channel slot value enabled).negations = tones.negations :=
  write_invariant (P := fun written => written.negations = tones.negations)
    (fun _ _ _ _ h => (negations_modifyVoice _ _ _).trans h)
    (fun _ channel h => by cases channel <;> exact h) rfl channel slot value enabled

theorem negations_enable (tones : Tones) (enables : ByChannel Bool) :
    (tones.enable enables).negations = tones.negations :=
  enable_invariant (P := fun enabled => enabled.negations = tones.negations)
    (fun _ _ _ _ h => (negations_modifyVoice _ _ _).trans h) rfl enables

end Tones

namespace Dmc

theorem region_setEnabled (dmc : Dmc) (enabled : Bool) (bus : Bus) (now : Int) :
    (dmc.setEnabled enabled bus now).1.region = dmc.region :=
  congrArg Setup.region (setup_setEnabled ..)

theorem region_write (dmc : Dmc) (slot : Slot) (value : UInt8) (now : Int) :
    (dmc.write slot value now).region = dmc.region := by
  cases slot <;> rfl

end Dmc

namespace Sequencer

theorem region_after (sequencer : Sequencer) (now stop : Int) :
    (sequencer.after now stop).region = sequencer.region := by
  induction sequencer, now using due_induction stop with
  | due sequencer now h ih => rw [after_of_due h, ih, (fire_fields sequencer _).1]
  | last sequencer now h =>
    rw [after_of_not_due h]
    rfl

theorem region_writeMode (sequencer : Sequencer) (time : Int) (mode : UInt8) :
    (sequencer.writeMode time mode).region = sequencer.region := by
  unfold writeMode
  dsimp only
  split <;> rfl

end Sequencer

namespace Chip

theorem wiring_congr {chip chip' : Chip} (htones : chip'.tones.negations = chip.tones.negations)
    (hdmc : chip'.dmc.region = chip.dmc.region)
    (hsequencer : chip'.sequencer.region = chip.sequencer.region) :
    chip'.wiring = chip.wiring := by
  obtain ⟨h1, h2⟩ := Prod.mk.inj htones
  unfold wiring
  rw [h1, h2, hdmc, hsequencer]

end Chip

namespace Session

theorem wiring_runTo (session : Session) (stop : Int) :
    (session.runTo stop).chip.wiring = session.chip.wiring := by
  by_cases h : stop ≤ session.chip.time
  · rw [runTo_of_le h]
  · rw [runTo_chip (Int.not_le.mp h)]
    exact Chip.wiring_congr (Tones.negations_play ..) (Dmc.region_after ..)
      (Sequencer.region_after ..)

theorem wiring_applyWrite (session : Session) (time : Int) (location : Location) (value : UInt8) :
    (session.applyWrite time location value).chip.wiring = session.chip.wiring := by
  cases location with
  | voice channel slot =>
    cases channel with
    | dmc => exact Chip.wiring_congr rfl (Dmc.region_write ..) rfl
    | _ => exact Chip.wiring_congr (Tones.negations_write ..) rfl rfl
  | status =>
    exact Chip.wiring_congr (Tones.negations_enable ..) (Dmc.region_setEnabled ..) rfl
  | mode => exact Chip.wiring_congr rfl rfl (Sequencer.region_writeMode ..)
  | idle => rfl

theorem wiring_announce (session : Session) :
    session.announce.chip.wiring = session.chip.wiring := by
  rw [announce_chip]
  rfl

end Session

/-- No operation changes the wiring of the chip. -/
theorem Operation.wiring_act (session : Session) (operation : Operation) :
    (operation.act session).chip.wiring = session.chip.wiring := by
  cases operation with
  | write time address value =>
    show (session.write time address value).chip.wiring = _
    cases hlocation : Location.ofAddress? address with
    | none => rw [Session.write_of_none hlocation]
    | some location =>
      rw [Session.write_of_some hlocation, Session.wiring_announce, Session.wiring_applyWrite,
        Session.wiring_runTo]
  | readStatus time =>
    have hran := ((session.runTo (max (time - 1) session.chip.time)).wiring_runTo time).trans
      (session.wiring_runTo _)
    show (session.readStatus time).2.chip.wiring = _
    unfold Session.readStatus
    dsimp only
    split
    · rw [Session.wiring_announce]
      exact hran
    · exact hran
  | runFrame time count => exact session.wiring_runTo time
  | reset =>
    show session.chip.reset.1.wiring = _
    rw [Chip.reset_eq_restarted, Chip.wiring_restarted]
  | _ => rfl

end Chiptune
