import Mathlib.Data.Nat.Bitwise
import Mathlib.Logic.Function.Iterate
import Chiptune.Proofs.Clockwork
import Chiptune.Proofs.Progress

/-! The feedback register of the noise clock by clock.  `shifted` is its shift in plain numbers, and
`registerAt` makes the shifts one clock at a time.  How the register moves on depends on its `timer`
alone, which no volume, length or sound is part of.  So however a span is cut into runs, and
whatever a history of operations does to the chip between them, the register is shifted at the same
clocks. -/

namespace Chiptune

namespace Noise

/-- The shift of the register as a number.  Its top bit is set if bit 0 and the tapped bit
differ. -/
def shifted (short : Bool) (register : Nat) : Nat :=
  register / 2 + if register % 2 = register / 2 ^ (if short then 6 else 1) % 2 then 0 else 2 ^ 14

/-- What is heard of a noise while its register holds a number. -/
def heard (noise : Noise) (register : Nat) : Int :=
  if register % 2 = 1 then noise.volume else 0

/-- The register at a clock, shifted clock by clock since `time`. -/
def registerAt (noise : Noise) (time clock : Int) : Nat :=
  let start : Clockwork Nat := ⟨noise.voice.delay.toNat, noise.feedback.toNat⟩
  start.stateAt (shifted noise.isShort) noise.timerPeriod time clock

/-- The second noise is the first one some clocks later: every shift that came due before the last
of them was made, and no other one. -/
def MovesOn (clocks : Int) (noise later : Noise) : Prop :=
  ∃ n : Nat, (∀ k : Nat, k < n ↔ noise.voice.delay + k * noise.timerPeriod < clocks) ∧
    later.feedback.toNat = (shifted noise.isShort)^[n] noise.feedback.toNat ∧
    clocks + later.voice.delay = noise.voice.delay + n * noise.timerPeriod

/-! ### The shift -/

theorem toNat_shift (short : Bool) (register : BitVec 15) :
    (shift short register).toNat = shifted short register.toNat := by
  have hlt := register.isLt
  -- Only the lowest bit of the feedback is left after a shift by fourteen, in the top bit.
  have htop (tapped : Nat) : (register.toNat ^^^ tapped) <<< 14 % 2 ^ 15 =
      (register.toNat + tapped) % 2 * 2 ^ 14 := by
    rw [Nat.shiftLeft_eq, show 2 ^ 15 = 2 * 2 ^ 14 from rfl, Nat.mul_mod_mul_right,
      Nat.xor_mod_two_eq]
  have hor (top : Nat) :
      top * 2 ^ 14 ||| register.toNat / 2 = top * 2 ^ 14 + register.toNat / 2 := by
    rw [← Nat.shiftLeft_eq, Nat.shiftLeft_add_eq_or_of_lt (by omega)]
  unfold shift shifted tapBit
  rw [BitVec.toNat_or, BitVec.toNat_shiftLeft, BitVec.toNat_xor, BitVec.toNat_ushiftRight,
    BitVec.toNat_ushiftRight, Nat.shiftRight_eq_div_pow, Nat.shiftRight_eq_div_pow, htop, hor]
  generalize register.toNat / 2 ^ (if short then 6 else 1) = tapped
  split <;> omega

theorem levelAt_eq_heard (noise : Noise) (register : BitVec 15) :
    noise.levelAt register = noise.heard register.toNat := by
  simp [levelAt, heard, BitVec.getLsbD]

theorem toNat_skip_shift (short : Bool) (n : Nat) (register : BitVec 15) :
    (Timer.skip (shift short) n register).toNat = (shifted short)^[n] register.toNat := by
  induction n generalizing register with
  | zero => rfl
  | succ n ih => rw [Timer.skip, ih, toNat_shift, Function.iterate_succ_apply]

/-! ### Runs -/

section Runs

variable (noise : Noise)

theorem registerAt_eq (hdelay : 0 ≤ noise.voice.delay) {time clock : Int} (h : time ≤ clock + 1) :
    noise.registerAt time clock = (noise.feedbackAfter time (clock + 1)).toNat := by
  have hpos : 0 < noise.timerPeriod := Int.natCast_pos.mp noise.timerPeriod_pos
  have hstate := Clockwork.stateAt_eq (shifted noise.isShort) hpos
    ⟨noise.voice.delay.toNat, noise.feedback.toNat⟩ h
  rw [Int.toNat_of_nonneg hdelay] at hstate
  refine hstate.trans (Timer.skip_related (R := fun (s : BitVec 15) t => t = s.toNat) ?_ _ rfl)
  rintro register _ rfl
  exact (toNat_shift noise.isShort register).symm

/-- The register is shifted at the clocks that are a number of periods after the first event. -/
theorem registerAt_step (hdelay : 0 ≤ noise.voice.delay) {time clock : Int} (h : time ≤ clock) :
    (∀ k : Nat, clock = time + noise.voice.delay + k * noise.timerPeriod →
      noise.registerAt time clock = shifted noise.isShort (noise.registerAt time (clock - 1))) ∧
    ((∀ k : Nat, clock ≠ time + noise.voice.delay + k * noise.timerPeriod) →
      noise.registerAt time clock = noise.registerAt time (clock - 1)) := by
  have hpos : 0 < noise.timerPeriod := Int.natCast_pos.mp noise.timerPeriod_pos
  have hstep := Clockwork.stateAt_step (shifted noise.isShort) hpos
    ⟨noise.voice.delay.toNat, noise.feedback.toNat⟩ h
  rwa [Int.toNat_of_nonneg hdelay] at hstep

/-- A run of the noise. -/
def runOn (time stop : Int) (noise : Noise) (all : Array Step) : Noise × Array Step :=
  noise.run time stop all

theorem divisible_runOn :
    Divisible runOn (fun time stop noise => noise.after time stop)
      (fun time stop noise => noise.steps time stop) where
  state time stop noise all := noise.run_fst time stop all
  steps time stop noise all := noise.toList_run time stop all
  state_split time _ _ noise h := noise.after_after time h
  steps_split time _ _ noise h := noise.steps_split time h

theorem heard_at (hdelay : 0 ≤ noise.voice.delay) {time clock stop : Int} (htime : time ≤ clock)
    (hstop : clock < stop) :
    noise.voice.level + Step.total ((noise.steps time stop).filter fun step => step.time ≤ clock) =
      noise.heard (noise.registerAt time clock) := by
  unfold steps
  rw [Timer.level_at noise.timerPeriod_pos htime hstop, levelAt_eq_heard,
    registerAt_eq noise hdelay (Int.le_add_one htime)]
  rfl

theorem movesOn_after (time stop : Int) :
    noise.MovesOn (stop - time) (noise.after time stop) := by
  have hpos := noise.timerPeriod_pos
  have hnext : stop + (noise.after time stop).voice.delay = time + noise.voice.delay +
      Timer.count noise.timerPeriod (time + noise.voice.delay) stop * noise.timerPeriod :=
    Timer.add_left ..
  refine ⟨Timer.count noise.timerPeriod (time + noise.voice.delay) stop, ?_, ?_, ?_⟩
  · intro k
    rw [Timer.lt_count_iff hpos]
    omega
  · exact toNat_skip_shift ..
  · omega

end Runs

/-! ### Histories -/

/-- What decides when and how the register is shifted. -/
def timer (noise : Noise) : UInt8 × BitVec 15 × Int :=
  (noise.voice.registers.third, noise.feedback, noise.voice.delay)

theorem MovesOn.of_timer {clocks : Int} {noise later later' : Noise}
    (h : noise.MovesOn clocks later) (htimer : later'.timer = later.timer) :
    noise.MovesOn clocks later' := by
  obtain ⟨_, hfeedback, hdelay⟩ : _ ∧ later'.feedback = later.feedback ∧
      later'.voice.delay = later.voice.delay := by
    simpa [timer] using htimer
  unfold MovesOn at h ⊢
  rwa [hfeedback, hdelay]

theorem timer_after {noise noise' : Noise} (h : noise'.timer = noise.timer) (time stop : Int) :
    (noise'.after time stop).timer = (noise.after time stop).timer := by
  obtain ⟨hthird, hfeedback, hdelay⟩ : noise'.voice.registers.third = noise.voice.registers.third ∧
      noise'.feedback = noise.feedback ∧ noise'.voice.delay = noise.voice.delay := by
    simpa [timer] using h
  have hperiod : noise'.timerPeriod = noise.timerPeriod := by
    unfold timerPeriod
    rw [hthird]
  have hshort : noise'.isShort = noise.isShort := by
    unfold isShort
    rw [hthird]
  show (noise'.voice.registers.third, noise'.feedbackAfter time stop,
    Timer.left noise'.timerPeriod (time + noise'.voice.delay) stop) = _
  unfold feedbackAfter
  rw [hthird, hfeedback, hdelay, hperiod, hshort]
  rfl

theorem timer_after_now {noise : Noise} (hdelay : 0 ≤ noise.voice.delay) (time : Int) :
    (noise.after time time).timer = noise.timer := by
  have hcount : Timer.count noise.timerPeriod (time + noise.voice.delay) time = 0 :=
    Timer.count_eq_zero noise.timerPeriod_pos (by omega)
  have hleft := Timer.add_left noise.timerPeriod (time + noise.voice.delay) time
  have hfeedback : noise.feedbackAfter time time = noise.feedback := by
    unfold feedbackAfter
    rw [hcount]
    rfl
  show (noise.voice.registers.third, noise.feedbackAfter time time,
    Timer.left noise.timerPeriod (time + noise.voice.delay) time) = _
  rw [hcount] at hleft
  rw [hfeedback, show Timer.left noise.timerPeriod (time + noise.voice.delay) time =
    noise.voice.delay by omega]
  rfl

theorem timer_clockEnvelope (noise : Noise) : noise.clockEnvelope.timer = noise.timer := by
  unfold clockEnvelope Envelope.clock
  dsimp only
  split
  · rfl
  · split <;> rfl

theorem timer_clockLength (noise : Noise) : noise.clockLength.timer = noise.timer := by
  unfold clockLength Voice.clockLength
  split <;> rfl

end Noise

namespace Tones

theorem timer_clock (tones : Tones) (beat : Beat) :
    (tones.clock beat).noise.timer = tones.noise.timer := by
  have hhalf : tones.clockHalf.noise.timer = tones.noise.timer := tones.noise.timer_clockLength
  unfold clock
  dsimp only
  split <;> split
  · exact (Noise.timer_clockEnvelope _).trans hhalf
  · exact Noise.timer_clockEnvelope _
  · exact hhalf
  · rfl

/-- The beats of a run do not change when or how the register is shifted. -/
theorem timer_play (tones : Tones) {time stop : Int} {beats : List (Int × Beat)}
    (h : Sequencer.Ordered stop time beats) :
    (tones.play time stop beats).noise.timer = (tones.noise.after time stop).timer := by
  induction beats generalizing tones time with
  | nil => rfl
  | cons beat beats ih =>
    have hclock := timer_clock (tones.after time beat.1) beat.2
    have hafter := tones.noise.after_after time h.2.le
    rw [play, ih _ h.2, Noise.timer_after hclock, ← hafter]
    rfl

theorem timer_modifyVoice (tones : Tones) (channel : Channel) {f : Voice → Voice}
    (hf : ∀ voice, (f voice).registers.third = voice.registers.third ∧
      (f voice).delay = voice.delay) :
    (tones.modifyVoice channel f).noise.timer = tones.noise.timer := by
  cases channel with
  | noise =>
    obtain ⟨hthird, hdelay⟩ := hf tones.noise.voice
    show ((f tones.noise.voice).registers.third, tones.noise.feedback,
      (f tones.noise.voice).delay) = _
    rw [hthird, hdelay]
    rfl
  | _ => rfl

/-- Only the third register of the noise has a part in its shifts. -/
theorem timer_write (tones : Tones) {channel : Channel} {slot : Slot}
    (h : ¬(channel = .noise ∧ slot = .third)) (value : UInt8) (enabled : Bool) :
    (tones.write channel slot value enabled).noise.timer = tones.noise.timer := by
  have hrestart (tones : Tones) : (tones.restart channel).noise.timer = tones.noise.timer := by
    cases channel <;> rfl
  have hlength (tones : Tones) :
      (tones.modifyVoice channel ({ · with length := lengthOf value })).noise.timer =
        tones.noise.timer :=
    tones.timer_modifyVoice channel fun _ => ⟨rfl, rfl⟩
  have hwrite : (tones.modifyVoice channel (·.write slot value)).noise.timer =
      tones.noise.timer := by
    by_cases hchannel : channel = .noise
    · have hslot : slot ≠ .third := fun hslot => h ⟨hchannel, hslot⟩
      refine tones.timer_modifyVoice channel fun voice => ⟨?_, rfl⟩
      exact voice.registers.get_set_ne value hslot
    · cases channel <;> first | rfl | exact absurd rfl hchannel
  unfold write
  dsimp only
  split
  · rw [hrestart]
    split
    · rw [hlength, hwrite]
    · exact hwrite
  · exact hwrite

theorem timer_enable (tones : Tones) (enables : ByChannel Bool) :
    (tones.enable enables).noise.timer = tones.noise.timer := by
  unfold enable
  generalize Channel.all = channels
  induction channels generalizing tones with
  | nil => rfl
  | cons channel channels ih =>
    rw [List.foldl_cons, ih]
    split
    · rfl
    · exact tones.timer_modifyVoice channel fun _ => ⟨rfl, rfl⟩

end Tones

theorem Location.eq_of_ofAddress?_noise_third {address : UInt16}
    (h : ofAddress? address = some (.voice .noise .third)) : address = 0x400E := by
  obtain ⟨hindex, hslot⟩ := toNat_of_ofAddress?_voice h
  have hindex : address.toNat / 4 = 0x1003 := hindex
  have hoffset := Slot.offset_ofAddress address.toNat
  rw [hslot] at hoffset
  have hoffset : 2 = address.toNat % 4 := hoffset
  refine UInt16.toNat_inj.mp ?_
  show address.toNat = 0x400E
  omega

namespace Session

theorem timer_runTo (session : Session) (h : session.chip.Consistent) (stop : Int) :
    (session.runTo stop).chip.tones.noise.timer =
      (session.chip.tones.noise.after session.chip.time (max session.chip.time stop)).timer := by
  by_cases hstop : stop ≤ session.chip.time
  · rw [runTo_of_le hstop, Int.max_eq_left hstop, Noise.timer_after_now h.tones.noise]
  · have hlt := Int.not_le.mp hstop
    have hordered := session.chip.sequencer.beats_ordered h.sequencer_delay (Int.le_of_lt hlt)
    rw [runTo_chip hlt, Int.max_eq_right (Int.le_of_lt hlt)]
    exact session.chip.tones.timer_play hordered

/-- What an operation does to a chip that has run to its clock changes the shifts only if it resets
the chip or writes the noise's period. -/
theorem timer_touch (session : Session) {operation : Operation}
    (hleaves : operation.leaves 0x400E = true) :
    (operation.touch session).chip.tones.noise.timer = session.chip.tones.noise.timer := by
  rcases session.tones_touch operation with
    ⟨time, address, value, channel, slot, rfl, hlocation, hwritten⟩ | ⟨time, value, rfl, hstatus⟩ |
    rfl | hsame
  · have hother : ¬(channel = .noise ∧ slot = .third) := by
      rintro ⟨rfl, rfl⟩
      exact of_decide_eq_true hleaves (Location.eq_of_ofAddress?_noise_third hlocation)
    rw [hwritten]
    exact session.chip.tones.timer_write hother ..
  · rw [hstatus]
    exact session.chip.tones.timer_enable _
  · exact Bool.noConfusion hleaves
  · rw [hsame]

end Session

namespace Score

/-- The noise has come from `noise` at `time` to where the score has got, its timer as in one
run. -/
structure Shifts (noise : Noise) (time : Int) (score : Score) : Prop where
  reachable : Console.Reachable score.console
  le : time ≤ score.reached
  timer : score.console.board.chip.tones.noise.timer = (noise.after time score.reached).timer

namespace Shifts

theorem start {console : Console} (h : Console.Reachable console) :
    Shifts console.board.chip.tones.noise console.board.chip.time { console } := by
  have hreached : reached { console } = console.board.chip.time := Int.zero_add _
  refine ⟨h, Int.le_of_eq hreached.symm, ?_⟩
  rw [hreached, Noise.timer_after_now h.consistent.tones.noise]

variable {noise : Noise} {time : Int} {score : Score} {operation : Operation} {outcome : Outcome}
  {next : Console}

theorem accept (h : Shifts noise time score) (hleaves : operation.leaves 0x400E = true)
    (hperform : score.console.perform operation = .ok (outcome, next)) :
    Shifts noise time (score.accept operation outcome next) := by
  generalize hstop : max score.now (operation.stop score.now) = stop
  have hreached : (score.accept operation outcome next).reached = score.origin + stop := by
    rw [reached_accept hperform, hstop]
  have hmid : score.reached ≤ score.origin + stop := by
    unfold reached
    omega
  have hnext : next.board.chip.tones.noise.timer =
      (score.console.board.chip.tones.noise.after score.now stop).timer := by
    have htouched : next.board.chip.tones.noise = (operation.touch
        (score.console.board.session.runTo (operation.stop score.now))).chip.tones.noise :=
      (touched hperform).tones.noise rfl
    have hran := score.console.board.session.timer_runTo h.reachable.consistent
      (operation.stop score.now)
    rw [htouched, Session.timer_touch _ hleaves, hran, ← hstop]
    rfl
  refine ⟨h.reachable.perform hperform, ?_, ?_⟩
  · rw [hreached]
    exact Int.le_trans h.le hmid
  · -- The run has the times of the present frame, and the noise before it those of the start.
    have hrebase := (noise.after time score.reached).after_rebase (-score.origin) score.now stop
    have hnow : score.now - -score.origin = score.reached := by
      unfold reached
      omega
    have hlater : stop - -score.origin = score.origin + stop := by omega
    rw [hnow, hlater] at hrebase
    calc next.board.chip.tones.noise.timer
        = (score.console.board.chip.tones.noise.after score.now stop).timer := hnext
      _ = ((noise.after time score.reached).after score.now stop).timer :=
          Noise.timer_after h.timer ..
      _ = ((noise.after time score.reached).after score.reached (score.origin + stop)).timer := by
          rw [hrebase]
      _ = (noise.after time (score.accept operation outcome next).reached).timer := by
          rw [noise.after_after time hmid, hreached]

end Shifts

end Score

namespace Noise

/-- However a span is cut into runs, the register is shifted at the clocks that are a number of
periods after the first event, and only there.  At every clock of the span the level at its start
and the steps so far make the volume if bit 0 of the register at that clock is set, and none
otherwise.  In any console that has this noise the register moves on in the same way through every
history that leaves the noise's period alone, whatever it does to volumes, lengths, switches and
frames. -/
theorem register_of_runs (noise : Noise) (hdelay : 0 ≤ noise.voice.delay) {time stop : Int}
    {mids : List Int} (hsorted : (time :: (mids ++ [stop])).Pairwise (· ≤ ·)) (all : Array Step) :
    let due (k : Nat) : Int := time + noise.voice.delay + k * noise.timerPeriod
    let register := noise.registerAt time
    let (ran, all') := inRuns runOn time (mids ++ [stop]) noise all
    register (time - 1) = noise.feedback.toNat ∧ ran.feedback.toNat = register (stop - 1) ∧
      (∀ clock, time ≤ clock →
        (∀ k, clock = due k → register clock = shifted noise.isShort (register (clock - 1))) ∧
        ((∀ k, clock ≠ due k) → register clock = register (clock - 1))) ∧
      noise.MovesOn (stop - time) ran ∧
      (∃ steps, all'.toList = all.toList ++ steps ∧ ∀ clock, time ≤ clock → clock < stop →
        noise.voice.level + Step.total (steps.filter fun step => step.time ≤ clock) =
          noise.heard (register clock)) ∧
      ran.voice.level = noise.heard (register (stop - 1)) ∧
      ∀ console, Console.Reachable console → console.board.chip.tones.noise = noise →
        ∀ operations : List Operation, (∀ operation ∈ operations, operation.leaves 0x400E = true) →
          let score := Score.playAll { console } operations
          noise.MovesOn (score.reached - console.board.chip.time)
            score.console.board.chip.tones.noise := by
  intro due register
  have hstop : time ≤ stop - 1 + 1 := by
    have hle := le_of_sorted hsorted
    omega
  have hlast : noise.registerAt time (stop - 1) = (noise.feedbackAfter time stop).toNat := by
    rw [registerAt_eq noise hdelay hstop, Int.sub_add_cancel]
  obtain ⟨hran, hall⟩ := divisible_runOn.inRuns_eq hsorted noise all
  generalize inRuns runOn time (mids ++ [stop]) noise all = result at hran hall ⊢
  obtain ⟨ran, all'⟩ := result
  cases hran
  refine ⟨?_, hlast.symm, ?_, noise.movesOn_after time stop, ⟨_, hall, ?_⟩, ?_, ?_⟩
  · exact Clockwork.stateAt_before ..
  · intro clock htime
    exact noise.registerAt_step hdelay htime
  · intro clock htime hclock
    exact noise.heard_at hdelay htime hclock
  · show noise.levelAt (noise.feedbackAfter time stop) =
      noise.heard (noise.registerAt time (stop - 1))
    rw [levelAt_eq_heard, hlast]
  · rintro console hreach rfl operations hleaves
    have hshifts := Score.playAll_invariant (fun _ _ h => ⟨h.reachable, h.le, h.timer⟩)
      (fun hleaves h hperform => h.accept hleaves hperform) (Score.Shifts.start hreach) hleaves
    exact (movesOn_after ..).of_timer hshifts.timer

/-- A noise of volume 9 in which the bit that is heard next comes at the next shift. -/
def hiss : Noise :=
  { feedback := 2
    voice :=
      { registers := ⟨0x19, 0, 0, 8⟩, pending := .fill true, length := 254, delay := 2 } }

/-- Operations that bring this noise about. -/
def hissing : List Operation :=
  [.write 0 0x4015 8, .write 0 0x400C 0x19, .write 0 0x400F 8, .runFrame 50 0]

/-- Operations that make it louder, switch it off and end its length within two frames. -/
def fading : List Operation :=
  [.write 10 0x400C 0x1F, .setMuted 3 true, .runFrame 40 0, .write 5 0x4015 0, .runFrame 200 10]

theorem register_of_runs_of_hiss :
    0 ≤ hiss.voice.delay ∧ ((0 : Int) :: ([1, 2, 30] ++ [40])).Pairwise (· ≤ ·) ∧
      (inRuns runOn 0 ([1, 2, 30] ++ [40]) hiss #[]).2.toList = [⟨2, 9⟩, ⟨6, -9⟩] ∧
      hiss.heard (hiss.registerAt 0 4) = 9 ∧
      ∃ console, Console.Reachable console ∧ console.board.chip.tones.noise = hiss ∧
        (∀ operation ∈ fading, operation.leaves 0x400E = true) ∧
        let score := Score.playAll { console } fading
        score.reached - console.board.chip.time = 240 ∧
          hiss.MovesOn 240 score.console.board.chip.tones.noise := by
  have hdelay : 0 ≤ hiss.voice.delay := by decide
  have hsorted : ((0 : Int) :: ([1, 2, 30] ++ [40])).Pairwise (· ≤ ·) := by decide
  have hsteps : (inRuns runOn 0 ([1, 2, 30] ++ [40]) hiss #[]).2.toList = [⟨2, 9⟩, ⟨6, -9⟩] := by
    decide +kernel
  have hleaves : ∀ operation ∈ fading, operation.leaves 0x400E = true := by
    simp [fading, Operation.leaves]
  obtain ⟨start, hcreate, hfacts⟩ := exists_ok (Console.create (.unconnected 0) .standard)
    (fun start => (start.performAll hissing).toOption.any fun result =>
      result.2.board.chip.tones.noise = hiss &&
        (Score.playAll { console := result.2 } fading).reached - result.2.board.chip.time = 240)
    (by decide +kernel)
  obtain ⟨⟨_, console⟩, hrun, hfacts⟩ := exists_ok _ _ hfacts
  simp only [Bool.and_eq_true, decide_eq_true_eq] at hfacts
  obtain ⟨hnoise, hclocks⟩ := hfacts
  have hreach := (Console.Reachable.create hcreate).performAll hrun
  obtain ⟨_, _, _, _, ⟨steps, hall, hheard⟩, _, hhistory⟩ :=
    hiss.register_of_runs hdelay hsorted #[]
  obtain rfl : steps = [⟨2, 9⟩, ⟨6, -9⟩] := (hsteps.symm.trans hall).symm
  have hmoves := hhistory console hreach hnoise fading hleaves
  dsimp only at hmoves
  rw [hclocks] at hmoves
  exact ⟨hdelay, hsorted, hsteps, (hheard 4 (by decide) (by decide)).symm, console, hreach, hnoise,
    hleaves, hclocks, hmoves⟩

end Noise

end Chiptune
