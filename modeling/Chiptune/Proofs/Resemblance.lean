import Chiptune.Proofs.Operation
import Chiptune.Proofs.PowerOn

/-! Two chips side by side, compared within a `Scope`: some of the channels, with or without the frame
interrupt, with or without the registers that no channel reads.  Whatever is done to both keeps them
alike within the scope, because no channel looks at another one and no part of the chip looks at the
frame interrupt or at such a register.  The announced interrupt and the notices are left out: they
follow from the rest. -/

namespace Chiptune

/-- What of two chips is compared: the channels that are heard, the frame interrupt, and the registers
that no channel reads. -/
structure Scope where
  hears : Channel → Bool
  frameIrq : Bool
  unread : Bool

namespace Scope

/-- The scope in which everything is looked at. -/
def full : Scope := ⟨fun _ => true, true, true⟩

/-- Whether all channels are heard, so that the sum of their levels is. -/
def Whole (scope : Scope) : Prop := ∀ channel, scope.hears channel = true

end Scope

/-! ### Registers that nothing reads -/

/-- The voice, with or without its second register. -/
def Voice.strip (unread : Bool) (voice : Voice) : Voice :=
  if unread then voice
  else { voice with
    registers := voice.registers.set .second 0
    pending := voice.pending.set .second false }

namespace Voice

variable {unread : Bool} {voice voice' : Voice}

theorem level_strip (unread : Bool) (voice : Voice) : (voice.strip unread).level = voice.level := by
  cases unread <;> rfl

theorem length_strip (unread : Bool) (voice : Voice) :
    (voice.strip unread).length = voice.length := by
  cases unread <;> rfl

theorem strip_write (h : voice'.strip unread = voice.strip unread) (slot : Slot) (value : UInt8) :
    (voice'.write slot value).strip unread = (voice.write slot value).strip unread := by
  cases unread with
  | true => exact congrArg (·.write slot value) h
  | false => cases slot <;> simp_all [strip, write, Bank.set]

theorem strip_setLength (h : voice'.strip unread = voice.strip unread) (length : Nat) :
    ({ voice' with length } : Voice).strip unread = ({ voice with length } : Voice).strip unread := by
  cases unread with
  | true => exact congrArg (fun voice => { voice with length }) h
  | false => simp_all [strip, Bank.set]

end Voice

theorem Voice.strip_clockLength (unread : Bool) (voice : Voice) (haltMask : UInt8) :
    (voice.clockLength haltMask).strip unread = (voice.strip unread).clockLength haltMask := by
  cases unread with
  | true => rfl
  | false =>
    have hguard : ((voice.strip false).length ≠ 0 ∧
        (voice.strip false).registers.first &&& haltMask = 0) =
      (voice.length ≠ 0 ∧ voice.registers.first &&& haltMask = 0) := rfl
    unfold clockLength
    simp only [hguard]
    split <;> rfl

theorem Envelope.clock_strip (unread : Bool) (envelope : Envelope) (voice : Voice) :
    envelope.clock (voice.strip unread) =
      ((envelope.clock voice).1, (envelope.clock voice).2.strip unread) := by
  cases unread with
  | true => rfl
  | false =>
    have hpending : (voice.strip false).pending.fourth = voice.pending.fourth := rfl
    unfold clock
    rw [hpending]
    split
    · rfl
    · split <;> rfl

/-- The triangle, with or without its second register. -/
def Triangle.strip (unread : Bool) (triangle : Triangle) : Triangle :=
  { triangle with voice := triangle.voice.strip unread }

/-- The noise, with or without its second register. -/
def Noise.strip (unread : Bool) (noise : Noise) : Noise :=
  { noise with voice := noise.voice.strip unread }

namespace Triangle

variable (unread : Bool) (triangle : Triangle)

theorem strip_after (time stop : Int) :
    (triangle.after time stop).strip unread = (triangle.strip unread).after time stop := by
  cases unread with
  | true => rfl
  | false =>
    have hheld : (triangle.strip false).isHeld = triangle.isHeld := rfl
    unfold after
    rw [hheld]
    split <;> rfl

theorem steps_strip (time stop : Int) :
    (triangle.strip unread).steps time stop = triangle.steps time stop := by
  cases unread <;> rfl

theorem strip_clockLinear :
    triangle.clockLinear.strip unread = (triangle.strip unread).clockLinear := by
  cases unread with
  | true => rfl
  | false =>
    have hregister : (triangle.voice.strip false).registers.first =
      triangle.voice.registers.first := rfl
    unfold clockLinear strip
    dsimp only
    rw [hregister]
    split <;> rfl

theorem strip_clockLength :
    triangle.clockLength.strip unread = (triangle.strip unread).clockLength :=
  congrArg (fun voice => { triangle with voice }) (triangle.voice.strip_clockLength unread 0x80)

end Triangle

namespace Noise

variable (unread : Bool) (noise : Noise)

theorem strip_after (time stop : Int) :
    (noise.after time stop).strip unread = (noise.strip unread).after time stop := by
  cases unread <;> rfl

theorem steps_strip (time stop : Int) :
    (noise.strip unread).steps time stop = noise.steps time stop := by
  cases unread <;> rfl

theorem strip_clockEnvelope :
    noise.clockEnvelope.strip unread = (noise.strip unread).clockEnvelope :=
  congrArg (fun clocked : Envelope × Voice => { noise with
    envelope := clocked.1
    voice := clocked.2 }) (noise.envelope.clock_strip unread noise.voice).symm

theorem strip_clockLength :
    noise.clockLength.strip unread = (noise.strip unread).clockLength :=
  congrArg (fun voice => { noise with voice }) (noise.voice.strip_clockLength unread 0x20)

end Noise

/-! ### Tone channels -/

/-- Tone channels that are the same where they are heard. -/
structure Tones.Resembles (scope : Scope) (tones tones' : Tones) : Prop where
  pulse1 : scope.hears .pulse1 = true → tones'.pulse1 = tones.pulse1
  pulse2 : scope.hears .pulse2 = true → tones'.pulse2 = tones.pulse2
  triangle : scope.hears .triangle = true →
    tones'.triangle.strip scope.unread = tones.triangle.strip scope.unread
  noise : scope.hears .noise = true →
    tones'.noise.strip scope.unread = tones.noise.strip scope.unread

namespace Tones.Resembles

variable {scope : Scope} {tones tones' tones'' : Tones}

theorem refl (tones : Tones) : tones.Resembles scope tones :=
  ⟨fun _ => rfl, fun _ => rfl, fun _ => rfl, fun _ => rfl⟩

theorem symm (h : tones.Resembles scope tones') : tones'.Resembles scope tones :=
  ⟨fun hears => (h.pulse1 hears).symm, fun hears => (h.pulse2 hears).symm,
    fun hears => (h.triangle hears).symm, fun hears => (h.noise hears).symm⟩

theorem trans (h : tones.Resembles scope tones') (h' : tones'.Resembles scope tones'') :
    tones.Resembles scope tones'' :=
  ⟨fun hears => (h'.pulse1 hears).trans (h.pulse1 hears),
    fun hears => (h'.pulse2 hears).trans (h.pulse2 hears),
    fun hears => (h'.triangle hears).trans (h.triangle hears),
    fun hears => (h'.noise hears).trans (h.noise hears)⟩

theorem map (h : tones.Resembles scope tones') (f1 f2 : Pulse → Pulse)
    (f3 : Triangle → Triangle) (f4 : Noise → Noise)
    (h3 : ∀ triangle triangle' : Triangle,
      triangle'.strip scope.unread = triangle.strip scope.unread →
      (f3 triangle').strip scope.unread = (f3 triangle).strip scope.unread)
    (h4 : ∀ noise noise' : Noise, noise'.strip scope.unread = noise.strip scope.unread →
      (f4 noise').strip scope.unread = (f4 noise).strip scope.unread) :
    Tones.Resembles scope ⟨f1 tones.pulse1, f2 tones.pulse2, f3 tones.triangle, f4 tones.noise⟩
      ⟨f1 tones'.pulse1, f2 tones'.pulse2, f3 tones'.triangle, f4 tones'.noise⟩ :=
  ⟨fun hears => congrArg f1 (h.pulse1 hears), fun hears => congrArg f2 (h.pulse2 hears),
    fun hears => h3 _ _ (h.triangle hears), fun hears => h4 _ _ (h.noise hears)⟩

/-- The full scope leaves out nothing. -/
theorem eq_of_full (h : tones.Resembles .full tones') : tones' = tones := by
  obtain ⟨pulse1, pulse2, triangle, noise⟩ := tones
  obtain ⟨pulse1', pulse2', triangle', noise'⟩ := tones'
  obtain rfl : pulse1' = pulse1 := h.pulse1 rfl
  obtain rfl : pulse2' = pulse2 := h.pulse2 rfl
  obtain rfl : triangle' = triangle := h.triangle rfl
  obtain rfl : noise' = noise := h.noise rfl
  rfl

theorem after (h : tones.Resembles scope tones') (time stop : Int) :
    (tones.after time stop).Resembles scope (tones'.after time stop) := by
  refine h.map (·.after time stop) (·.after time stop) (·.after time stop) (·.after time stop) ?_ ?_
  · intro triangle triangle' hsame
    rw [Triangle.strip_after, hsame, Triangle.strip_after]
  · intro noise noise' hsame
    rw [Noise.strip_after, hsame, Noise.strip_after]

theorem steps (h : tones.Resembles scope tones') (time stop : Int) {channel : Channel}
    (hears : scope.hears channel = true) :
    tones'.steps time stop channel = tones.steps time stop channel := by
  cases channel with
  | pulse1 => exact congrArg (·.steps time stop) (h.pulse1 hears)
  | pulse2 => exact congrArg (·.steps time stop) (h.pulse2 hears)
  | triangle =>
    have hsame := congrArg (·.steps time stop) (h.triangle hears)
    rwa [Triangle.steps_strip, Triangle.steps_strip] at hsame
  | noise =>
    have hsame := congrArg (·.steps time stop) (h.noise hears)
    rwa [Noise.steps_strip, Noise.steps_strip] at hsame
  | dmc => rfl

theorem clockHalf (h : tones.Resembles scope tones') :
    tones.clockHalf.Resembles scope tones'.clockHalf := by
  refine h.map (·.clockLength.clockSweep) (·.clockLength.clockSweep) (·.clockLength)
    (·.clockLength) ?_ ?_
  · intro triangle triangle' hsame
    rw [Triangle.strip_clockLength, hsame, Triangle.strip_clockLength]
  · intro noise noise' hsame
    rw [Noise.strip_clockLength, hsame, Noise.strip_clockLength]

theorem clockQuarter (h : tones.Resembles scope tones') :
    tones.clockQuarter.Resembles scope tones'.clockQuarter := by
  refine h.map (·.clockEnvelope) (·.clockEnvelope) (·.clockLinear) (·.clockEnvelope) ?_ ?_
  · intro triangle triangle' hsame
    rw [Triangle.strip_clockLinear, hsame, Triangle.strip_clockLinear]
  · intro noise noise' hsame
    rw [Noise.strip_clockEnvelope, hsame, Noise.strip_clockEnvelope]

theorem clock (h : tones.Resembles scope tones') (beat : Beat) :
    (tones.clock beat).Resembles scope (tones'.clock beat) := by
  unfold Tones.clock
  dsimp only
  split <;> split
  · exact h.clockHalf.clockQuarter
  · exact h.clockQuarter
  · exact h.clockHalf
  · exact h

theorem play (h : tones.Resembles scope tones') (time stop : Int) (beats : List (Int × Beat)) :
    (tones.play time stop beats).Resembles scope (tones'.play time stop beats) := by
  induction beats generalizing tones tones' time with
  | nil => exact h.after time stop
  | cons beat beats ih => exact ih ((h.after time beat.1).clock beat.2) beat.1

theorem playSteps (h : tones.Resembles scope tones') (time stop : Int) {channel : Channel}
    (hears : scope.hears channel = true) (beats : List (Int × Beat)) :
    tones'.playSteps time stop channel beats = tones.playSteps time stop channel beats := by
  induction beats generalizing tones tones' time with
  | nil => exact h.steps time stop hears
  | cons beat beats ih =>
    rw [Tones.playSteps, Tones.playSteps, h.steps time beat.1 hears,
      ih ((h.after time beat.1).clock beat.2)]

/-! ### Writes -/

theorem modifyVoice (h : tones.Resembles scope tones') (channel : Channel) {f : Voice → Voice}
    (hf : ∀ voice voice' : Voice, voice'.strip scope.unread = voice.strip scope.unread →
      (f voice').strip scope.unread = (f voice).strip scope.unread) :
    (tones.modifyVoice channel f).Resembles scope (tones'.modifyVoice channel f) := by
  cases channel with
  | pulse1 =>
    exact h.map (fun pulse => { pulse with voice := f pulse.voice }) id id id
      (fun _ _ hsame => hsame) (fun _ _ hsame => hsame)
  | pulse2 =>
    exact h.map id (fun pulse => { pulse with voice := f pulse.voice }) id id
      (fun _ _ hsame => hsame) (fun _ _ hsame => hsame)
  | triangle =>
    refine h.map id id (fun triangle => { triangle with voice := f triangle.voice }) id ?_
      (fun _ _ hsame => hsame)
    intro triangle triangle' hsame
    obtain ⟨hvoice, hphase, hlinear⟩ := Triangle.mk.inj hsame
    exact Triangle.mk.injEq .. ▸ ⟨hf _ _ hvoice, hphase, hlinear⟩
  | noise =>
    refine h.map id id id (fun noise => { noise with voice := f noise.voice })
      (fun _ _ hsame => hsame) ?_
    intro noise noise' hsame
    obtain ⟨hvoice, henvelope, hfeedback⟩ := Noise.mk.inj hsame
    exact Noise.mk.injEq .. ▸ ⟨hf _ _ hvoice, henvelope, hfeedback⟩
  | dmc => exact h

theorem restart (h : tones.Resembles scope tones') (channel : Channel) :
    (tones.restart channel).Resembles scope (tones'.restart channel) := by
  cases channel with
  | pulse1 => exact h.map Pulse.restart id id id (fun _ _ hsame => hsame) (fun _ _ hsame => hsame)
  | pulse2 => exact h.map id Pulse.restart id id (fun _ _ hsame => hsame) (fun _ _ hsame => hsame)
  | _ => exact h

theorem write (h : tones.Resembles scope tones') (channel : Channel) (slot : Slot) (value : UInt8)
    (enabled : Bool) :
    (tones.write channel slot value enabled).Resembles scope
      (tones'.write channel slot value enabled) := by
  have hwrite := h.modifyVoice channel (f := (·.write slot value))
    fun _ _ hsame => Voice.strip_write hsame slot value
  unfold Tones.write
  dsimp only
  split
  · split
    · exact (hwrite.modifyVoice channel
        (f := ({ · with length := lengthOf value }))
        fun _ _ hsame => Voice.strip_setLength hsame _).restart channel
    · exact hwrite.restart channel
  · exact hwrite

theorem enable (h : tones.Resembles scope tones') (enables : ByChannel Bool) :
    (tones.enable enables).Resembles scope (tones'.enable enables) := by
  unfold Tones.enable
  generalize Channel.all = channels
  induction channels generalizing tones tones' with
  | nil => exact h
  | cons channel channels ih =>
    rw [List.foldl_cons, List.foldl_cons]
    refine ih ?_
    split
    · exact h
    · exact h.modifyVoice channel (f := ({ · with length := 0 }))
        fun _ _ hsame => Voice.strip_setLength hsame 0

end Tones.Resembles

/-! ### The sequencer -/

/-- Sequencers that are the same, apart from an interrupt flag that is not looked at. -/
structure Sequencer.Resembles (scope : Scope) (sequencer sequencer' : Sequencer) : Prop where
  rest : sequencer'.clearIrq = sequencer.clearIrq
  irqFlag : scope.frameIrq = true → sequencer'.irqFlag = sequencer.irqFlag

namespace Sequencer

theorem eq_of_clearIrq {sequencer sequencer' : Sequencer}
    (hrest : sequencer'.clearIrq = sequencer.clearIrq)
    (hflag : sequencer'.irqFlag = sequencer.irqFlag) : sequencer' = sequencer :=
  calc sequencer' = { sequencer'.clearIrq with irqFlag := sequencer'.irqFlag } := rfl
    _ = { sequencer.clearIrq with irqFlag := sequencer.irqFlag } := by rw [hrest, hflag]
    _ = sequencer := rfl

theorem clearIrq_fire (sequencer : Sequencer) (time : Int) :
    (sequencer.fire time).clearIrq = (sequencer.clearIrq.fire time).clearIrq := by
  have hguard : (sequencer.clearIrq.next = 0 ∧ !isFiveStep sequencer.clearIrq.mode ∧
      !inhibitsIrq sequencer.clearIrq.mode) =
    (sequencer.next = 0 ∧ !isFiveStep sequencer.mode ∧ !inhibitsIrq sequencer.mode) := rfl
  unfold fire
  simp only [hguard]
  split <;> rfl

/-- The flag is not looked at by a run. -/
theorem run_congr {sequencer sequencer' : Sequencer} (now stop : Int)
    (h : sequencer'.clearIrq = sequencer.clearIrq) :
    sequencer'.beats now stop = sequencer.beats now stop ∧
      (sequencer'.after now stop).clearIrq = (sequencer.after now stop).clearIrq := by
  induction sequencer, now using due_induction stop generalizing sequencer' with
  | due sequencer now hdue ih =>
    have hdelay : sequencer'.delay = sequencer.delay := congrArg (·.delay) h
    have hnext : sequencer'.next = sequencer.next := congrArg (·.next) h
    have hfired : (sequencer'.fire (now + sequencer.delay)).clearIrq =
        (sequencer.fire (now + sequencer.delay)).clearIrq := by
      rw [clearIrq_fire, h, ← clearIrq_fire]
    obtain ⟨hbeats, hafter⟩ := ih hfired
    have hdue' : now + sequencer'.delay < stop := by omega
    rw [beats_of_due hdue, beats_of_due hdue', after_of_due hdue, after_of_due hdue', hdelay, hnext,
      hbeats, hafter]
    exact ⟨rfl, rfl⟩
  | last sequencer now hdue =>
    have hdelay : sequencer'.delay = sequencer.delay := congrArg (·.delay) h
    have hdue' : ¬now + sequencer'.delay < stop := by omega
    rw [beats_of_not_due hdue, beats_of_not_due hdue', after_of_not_due hdue,
      after_of_not_due hdue']
    exact ⟨rfl, congrArg (fun sequencer => sequencer.advance (stop - now)) h⟩

namespace Resembles

variable {scope : Scope} {sequencer sequencer' sequencer'' : Sequencer}

theorem refl (sequencer : Sequencer) : sequencer.Resembles scope sequencer := ⟨rfl, fun _ => rfl⟩

theorem symm (h : sequencer.Resembles scope sequencer') :
    sequencer'.Resembles scope sequencer :=
  ⟨h.rest.symm, fun hflag => (h.irqFlag hflag).symm⟩

theorem trans (h : sequencer.Resembles scope sequencer')
    (h' : sequencer'.Resembles scope sequencer'') : sequencer.Resembles scope sequencer'' :=
  ⟨h'.rest.trans h.rest, fun hflag => (h'.irqFlag hflag).trans (h.irqFlag hflag)⟩

theorem eq (h : sequencer.Resembles scope sequencer') (hscope : scope.frameIrq = true) :
    sequencer' = sequencer :=
  eq_of_clearIrq h.rest (h.irqFlag hscope)

theorem map (h : sequencer.Resembles scope sequencer') {f : Sequencer → Sequencer}
    (hf : ∀ sequencer sequencer' : Sequencer, sequencer'.clearIrq = sequencer.clearIrq →
      (f sequencer').clearIrq = (f sequencer).clearIrq) :
    (f sequencer).Resembles scope (f sequencer') :=
  ⟨hf _ _ h.rest, fun hscope => by rw [h.eq hscope]⟩

theorem after (h : sequencer.Resembles scope sequencer') (now stop : Int) :
    (sequencer.after now stop).Resembles scope (sequencer'.after now stop) :=
  h.map (f := (·.after now stop)) fun _ _ hsame => (run_congr now stop hsame).2

theorem writeMode (h : sequencer.Resembles scope sequencer') (time : Int) (mode : UInt8) :
    (sequencer.writeMode time mode).Resembles scope (sequencer'.writeMode time mode) := by
  have hclear (sequencer : Sequencer) : (sequencer.writeMode time mode).clearIrq =
      (sequencer.clearIrq.writeMode time mode).clearIrq := by
    unfold Sequencer.writeMode
    dsimp only
    split <;> rfl
  refine h.map (f := (·.writeMode time mode)) ?_
  intro sequencer sequencer' hsame
  rw [hclear, hsame, ← hclear]

theorem endFrame (h : sequencer.Resembles scope sequencer') (time : Int) :
    (sequencer.endFrame time).Resembles scope (sequencer'.endFrame time) :=
  h.map (f := (·.endFrame time)) fun _ _ hsame => congrArg (·.endFrame time) hsame

theorem clearIrq (h : sequencer.Resembles scope sequencer') :
    sequencer.clearIrq.Resembles scope sequencer'.clearIrq :=
  h.map (f := (·.clearIrq)) fun _ _ hsame => hsame

end Resembles

end Sequencer

/-! ### Sessions -/

namespace Session

/-- The steps of the sequencer that happen in a run. -/
def fires (session : Session) (stop : Int) : List (Int × Beat) :=
  if stop ≤ session.chip.time then []
  else session.chip.sequencer.beats session.chip.time stop

/-- Sessions whose chips agree within a scope.  The bus belongs to the sample channel. -/
structure Resembles (scope : Scope) (session session' : Session) : Prop where
  tones : session.chip.tones.Resembles scope session'.chip.tones
  dmc : scope.hears .dmc = true → session'.chip.dmc = session.chip.dmc
  bus : scope.hears .dmc = true → session'.bus = session.bus
  sequencer : session.chip.sequencer.Resembles scope session'.chip.sequencer
  enables : session'.chip.enables = session.chip.enables
  time : session'.chip.time = session.chip.time

namespace Resembles

variable {scope : Scope} {session session' session'' : Session}

theorem refl (session : Session) : session.Resembles scope session :=
  ⟨.refl _, fun _ => rfl, fun _ => rfl, .refl _, rfl, rfl⟩

theorem symm (h : session.Resembles scope session') : session'.Resembles scope session :=
  ⟨h.tones.symm, fun hears => (h.dmc hears).symm, fun hears => (h.bus hears).symm,
    h.sequencer.symm, h.enables.symm, h.time.symm⟩

theorem trans (h : session.Resembles scope session') (h' : session'.Resembles scope session'') :
    session.Resembles scope session'' :=
  ⟨h.tones.trans h'.tones, fun hears => (h'.dmc hears).trans (h.dmc hears),
    fun hears => (h'.bus hears).trans (h.bus hears), h.sequencer.trans h'.sequencer,
    h'.enables.trans h.enables, h'.time.trans h.time⟩

/-- The full scope leaves out nothing but the announced interrupt. -/
theorem chip_eq (h : session.Resembles .full session') :
    session'.chip = { session.chip with earliestIrq := session'.chip.earliestIrq } := by
  have htones := h.tones.eq_of_full
  have hdmc := h.dmc rfl
  have hsequencer := h.sequencer.eq rfl
  have henables := h.enables
  have htime := h.time
  cases hchip : session'.chip
  simp_all

/-- The announced interrupt is in no scope. -/
theorem of_announced (hchip : session'.chip.announced = session.chip.announced)
    (hbus : session'.bus = session.bus) : session.Resembles scope session' := by
  obtain ⟨htones, hdmc, hsequencer, henables, htime, _⟩ := Chip.mk.inj hchip
  refine ⟨?_, fun _ => hdmc, fun _ => hbus, ?_, henables, htime⟩
  · rw [htones]
    exact .refl _
  · rw [hsequencer]
    exact .refl _

theorem announce (session : Session) : session.Resembles scope session.announce :=
  of_announced (by rw [announce_chip]; rfl) (announce_bus session)

theorem of_eq (hchip : session'.chip = session.chip) (hbus : session'.bus = session.bus) :
    session.Resembles scope session' :=
  of_announced (congrArg Chip.announced hchip) hbus

/-! ### Runs -/

theorem fires (h : session.Resembles scope session') (stop : Int) :
    session'.fires stop = session.fires stop := by
  unfold Session.fires
  rw [h.time, (Sequencer.run_congr session.chip.time stop h.sequencer.rest).1]

theorem runTo (h : session.Resembles scope session') (stop : Int) :
    (session.runTo stop).Resembles scope (session'.runTo stop) := by
  have htime := h.time
  by_cases hstop : stop ≤ session.chip.time
  · rwa [runTo_of_le hstop, runTo_of_le (by omega)]
  · have hbeats := (Sequencer.run_congr session.chip.time stop h.sequencer.rest).1
    have hlt' : session'.chip.time < stop := by omega
    have hchip' := runTo_chip hlt'
    have hbus' := runTo_bus hlt'
    unfold Chip.after at hchip' hbus'
    rw [htime] at hchip' hbus'
    refine ⟨?_, ?_, ?_, ?_, ?_, ?_⟩
    · rw [runTo_chip (Int.not_le.mp hstop), hchip', hbeats]
      exact h.tones.play ..
    · intro hears
      rw [runTo_chip (Int.not_le.mp hstop), hchip', h.dmc hears, h.bus hears]
      rfl
    · intro hears
      rw [runTo_bus (Int.not_le.mp hstop), hbus', h.dmc hears, h.bus hears]
      rfl
    · rw [runTo_chip (Int.not_le.mp hstop), hchip']
      exact h.sequencer.after ..
    · rw [runTo_chip (Int.not_le.mp hstop), hchip']
      exact h.enables
    · rw [runTo_time, runTo_time, htime]

theorem emits (h : session.Resembles scope session') (stop : Int) {channel : Channel}
    (hears : scope.hears channel = true) :
    session'.emits stop channel = session.emits stop channel := by
  have hbeats := (Sequencer.run_congr session.chip.time stop h.sequencer.rest).1
  unfold Session.emits
  rw [h.time]
  split
  · rfl
  · unfold Chip.steps
    rw [h.time, hbeats]
    cases channel with
    | dmc => simp only [h.dmc hears, h.bus hears]
    | _ => exact h.tones.playSteps _ _ hears _

/-! ### What is seen of a channel -/

theorem voice (h : session.Resembles scope session') {channel : Channel}
    (hears : scope.hears channel = true) :
    (session'.chip.voice channel).strip scope.unread =
      (session.chip.voice channel).strip scope.unread := by
  cases channel with
  | pulse1 => exact congrArg (·.voice.strip scope.unread) (h.tones.pulse1 hears)
  | pulse2 => exact congrArg (·.voice.strip scope.unread) (h.tones.pulse2 hears)
  | triangle => exact congrArg Triangle.voice (h.tones.triangle hears)
  | noise => exact congrArg Noise.voice (h.tones.noise hears)
  | dmc => exact congrArg (·.voice.strip scope.unread) (h.dmc hears)

theorem level (h : session.Resembles scope session') {channel : Channel}
    (hears : scope.hears channel = true) :
    session'.chip.level channel = session.chip.level channel := by
  have hlevel := congrArg Voice.level (h.voice hears)
  rwa [Voice.level_strip, Voice.level_strip] at hlevel

theorem active (h : session.Resembles scope session') (hwhole : scope.Whole) :
    session'.chip.active = session.chip.active := by
  refine congrArg ByChannel.ofFn ?_
  funext channel
  have hlength := congrArg Voice.length (h.voice (hwhole channel))
  rw [Voice.length_strip, Voice.length_strip] at hlength
  rw [hlength]

/-! ### Operations -/

theorem applyWrite (h : session.Resembles scope session') (time : Int) (location : Location)
    (value : UInt8) :
    (session.applyWrite time location value).Resembles scope
      (session'.applyWrite time location value) := by
  cases location with
  | voice channel slot =>
    cases channel with
    | dmc =>
      refine ⟨h.tones, fun hears => ?_, h.bus, h.sequencer, h.enables, h.time⟩
      show session'.chip.dmc.write slot value session'.chip.time =
        session.chip.dmc.write slot value session.chip.time
      rw [h.dmc hears, h.time]
    | _ =>
      refine ⟨?_, h.dmc, h.bus, h.sequencer, h.enables, h.time⟩
      unfold Session.applyWrite
      dsimp only
      rw [h.enables]
      exact h.tones.write ..
  | status =>
    have hset (hears : scope.hears .dmc = true) :
        session'.chip.dmc.clearIrq.setEnabled (Status.enables value).dmc session'.bus
            session'.chip.time =
          session.chip.dmc.clearIrq.setEnabled (Status.enables value).dmc session.bus
            session.chip.time := by
      rw [h.dmc hears, h.bus hears, h.time]
    exact ⟨h.tones.enable _, fun hears => congrArg Prod.fst (hset hears),
      fun hears => congrArg Prod.snd (hset hears), h.sequencer, rfl, h.time⟩
  | mode => exact ⟨h.tones, h.dmc, h.bus, h.sequencer.writeMode time value, h.enables, h.time⟩
  | idle => exact h

theorem clearIrq (h : session.Resembles scope session') :
    Resembles scope
      { session with chip := { session.chip with sequencer := session.chip.sequencer.clearIrq } }
      { session' with
        chip := { session'.chip with sequencer := session'.chip.sequencer.clearIrq } } :=
  ⟨h.tones, h.dmc, h.bus, h.sequencer.clearIrq, h.enables, h.time⟩

theorem rebase (h : session.Resembles scope session') (time : Int) :
    Resembles scope { session with chip := session.chip.rebase time }
      { session' with chip := session'.chip.rebase time } := by
  refine ⟨h.tones, fun hears => ?_, h.bus, h.sequencer.endFrame time, h.enables, ?_⟩
  · show session'.chip.dmc.endFrame time = session.chip.dmc.endFrame time
    rw [h.dmc hears]
  · show session'.chip.time - time = session.chip.time - time
    rw [h.time]

theorem takeStall (h : session.Resembles scope session') :
    Resembles scope
      { session with chip := { session.chip with dmc := session.chip.dmc.takeStall.2 } }
      { session' with chip := { session'.chip with dmc := session'.chip.dmc.takeStall.2 } } := by
  refine ⟨h.tones, fun hears => ?_, h.bus, h.sequencer, h.enables, h.time⟩
  show session'.chip.dmc.takeStall.2 = session.chip.dmc.takeStall.2
  rw [h.dmc hears]

theorem reset (h : session.Resembles scope session') :
    Resembles scope { session with chip := session.chip.reset.1 }
      { session' with chip := session'.chip.reset.1 } := by
  have hregion : session'.chip.sequencer.region = session.chip.sequencer.region :=
    congrArg (·.region) h.sequencer.rest
  rw [Chip.reset_eq_restarted, Chip.reset_eq_restarted]
  refine ⟨⟨fun hears => ?_, fun hears => ?_, fun _ => rfl, fun _ => rfl⟩, fun hears => ?_, h.bus, ?_,
    rfl, rfl⟩
  · exact congrArg (fun pulse : Pulse =>
      ({ negation := pulse.negation, voice := .poweredOn, phase := 7 } : Pulse)) (h.tones.pulse1 hears)
  · exact congrArg (fun pulse : Pulse =>
      ({ negation := pulse.negation, voice := .poweredOn, phase := 7 } : Pulse)) (h.tones.pulse2 hears)
  · exact congrArg (fun dmc : Dmc => (Dmc.poweredOn dmc.region).settle) (h.dmc hears)
  · show Sequencer.Resembles scope
      ((Sequencer.powerOn session.chip.sequencer.region).writeMode 0 0)
      ((Sequencer.powerOn session'.chip.sequencer.region).writeMode 0 0)
    rw [hregion]
    exact .refl _

end Resembles

end Session

end Chiptune
