import Chiptune.Proofs.Ensemble
import Chiptune.Proofs.SampleSchedule

/-! Runs of the whole chip.  A run takes the sample channel over its whole span first and then the
tone channels from beat to beat, but each channel puts out the steps of its own run.  So a run can
be cut at any clock (`runTo_runTo`), and a chip that counts its clocks from another origin does the
same at the shifted times (`SameFrom`). -/

namespace Chiptune

namespace Chip

/-- The chip with its next interrupt announced. -/
def announced (chip : Chip) : Chip := { chip with earliestIrq := chip.nextIrq }

/-- The chip and its bus after a run, before the next interrupt is announced. -/
def after (chip : Chip) (stop : Int) (bus : Bus) : Chip × Bus :=
  let ran := chip.dmc.after chip.time stop bus
  ({ chip with
      tones := chip.tones.play chip.time stop (chip.sequencer.beats chip.time stop)
      dmc := ran.1
      sequencer := chip.sequencer.after chip.time stop
      time := stop }, ran.2)

/-- The steps of a channel in a run. -/
def steps (chip : Chip) (stop : Int) (bus : Bus) : Channel → List Step
  | .dmc => chip.dmc.steps chip.time stop bus
  | channel =>
    chip.tones.playSteps chip.time stop channel (chip.sequencer.beats chip.time stop)

end Chip

namespace Session

theorem announce_eq (session : Session) :
    session.announce =
      if session.chip.nextIrq = session.chip.earliestIrq then session
      else { session with
        chip := session.chip.announced
        notices := session.notices.push session.chip.nextIrq } := rfl

@[simp] theorem announce_bus (session : Session) : session.announce.bus = session.bus := by
  rw [announce_eq]
  split <;> rfl

@[simp] theorem announce_steps (session : Session) : session.announce.steps = session.steps := by
  rw [announce_eq]
  split <;> rfl

@[simp] theorem announce_chip (session : Session) :
    session.announce.chip = session.chip.announced := by
  rw [announce_eq]
  split
  · rename_i hsame
    unfold Chip.announced
    rw [hsame]
  · rfl

theorem runTo_of_le {session : Session} {stop : Int} (h : stop ≤ session.chip.time) :
    session.runTo stop = session := by
  unfold runTo
  exact if_pos h

theorem playSteps_dmc (tones : Tones) (time stop : Int) (beats : List (Int × Beat)) :
    tones.playSteps time stop .dmc beats = [] := by
  induction beats generalizing tones time with
  | nil => rfl
  | cons beat beats ih => exact ih ..

section Run

variable {session : Session} {stop : Int} (h : session.chip.time < stop)
include h

theorem runTo_chip :
    (session.runTo stop).chip = (session.chip.after stop session.bus).1.announced := by
  have hdmc := congrArg Prod.fst
    (session.chip.dmc.run_eq session.chip.time stop session.bus #[])
  unfold runTo
  simp only [if_neg (Int.not_le.mpr h), announce_chip, Tones.playTones_fst]
  simp only at hdmc
  rw [hdmc]
  rfl

theorem runTo_bus : (session.runTo stop).bus = (session.chip.after stop session.bus).2 := by
  have hbus := congrArg Prod.snd
    (session.chip.dmc.run_eq session.chip.time stop session.bus #[])
  unfold runTo
  simp only [if_neg (Int.not_le.mpr h), announce_bus]
  exact hbus

theorem track_runTo_of_lt (channel : Channel) :
    ChannelStep.track channel (session.runTo stop).steps =
      ChannelStep.track channel session.steps ++ session.chip.steps stop session.bus channel := by
  unfold runTo
  simp only [if_neg (Int.not_le.mpr h), announce_steps, Tones.track_playTones,
    ChannelStep.track_collect, Dmc.toList_run, List.nil_append]
  cases channel with
  | dmc => simp [Chip.steps, playSteps_dmc]
  | _ => simp [Chip.steps, Sequencer.beats]

end Run

/-- The steps of a channel that a run adds. -/
def emits (session : Session) (stop : Int) (channel : Channel) : List Step :=
  if stop ≤ session.chip.time then [] else session.chip.steps stop session.bus channel

theorem track_runTo (session : Session) (stop : Int) (channel : Channel) :
    ChannelStep.track channel (session.runTo stop).steps =
      ChannelStep.track channel session.steps ++ session.emits stop channel := by
  by_cases h : stop ≤ session.chip.time
  · rw [runTo_of_le h, emits, if_pos h, List.append_nil]
  · rw [track_runTo_of_lt (Int.not_le.mp h), emits, if_neg h]

theorem runTo_time (session : Session) (stop : Int) :
    (session.runTo stop).chip.time = max session.chip.time stop := by
  by_cases h : stop ≤ session.chip.time
  · rw [runTo_of_le h]
    omega
  · rw [runTo_chip (Int.not_le.mp h)]
    show stop = _
    omega

end Session

/-! ### Runs cut in two -/

theorem Chip.after_after (chip : Chip) {mid stop : Int} (bus : Bus) (h : mid ≤ stop) :
    (chip.after mid bus).1.after stop (chip.after mid bus).2 = chip.after stop bus := by
  have hdmc := chip.dmc.after_after chip.time bus h
  obtain ⟨hbeats, hsequencer⟩ := chip.sequencer.run_split chip.time h
  have hordered := Sequencer.beats_ordered (chip.sequencer.after chip.time mid)
    (chip.sequencer.delay_after_nonneg chip.time mid) h
  have htones := chip.tones.play_split chip.time h (chip.sequencer.beats chip.time mid) _ hordered
  rw [← hbeats] at htones
  unfold after
  simp only
  rw [hdmc, hsequencer, htones]

theorem Chip.steps_split (chip : Chip) {mid stop : Int} (bus : Bus) (h : mid ≤ stop)
    (channel : Channel) :
    chip.steps stop bus channel =
      chip.steps mid bus channel ++
        (chip.after mid bus).1.steps stop (chip.after mid bus).2 channel := by
  obtain ⟨hbeats, _⟩ := chip.sequencer.run_split chip.time h
  have hordered := Sequencer.beats_ordered (chip.sequencer.after chip.time mid)
    (chip.sequencer.delay_after_nonneg chip.time mid) h
  have htones := chip.tones.playSteps_split chip.time h channel
    (chip.sequencer.beats chip.time mid) _ hordered
  rw [← hbeats] at htones
  cases channel with
  | dmc => exact chip.dmc.steps_split chip.time bus h
  | _ => exact htones

namespace Session

/-- A run may stop on its way. -/
theorem runTo_runTo (session : Session) {mid stop : Int} (h : mid ≤ stop) :
    ((session.runTo mid).runTo stop).chip = (session.runTo stop).chip ∧
      ((session.runTo mid).runTo stop).bus = (session.runTo stop).bus ∧
      ∀ channel, session.emits stop channel =
        session.emits mid channel ++ (session.runTo mid).emits stop channel := by
  have htime := session.runTo_time mid
  by_cases hmid : mid ≤ session.chip.time
  · rw [runTo_of_le hmid]
    exact ⟨rfl, rfl, fun channel => by rw [emits, emits, if_pos hmid, List.nil_append]⟩
  · rw [Int.not_le] at hmid
    have hstop : session.chip.time < stop := by omega
    rcases Int.lt_or_eq_of_le h with hlt | rfl
    · have hlt' : (session.runTo mid).chip.time < stop := by omega
      have hafter := session.chip.after_after session.bus h
      have hchip : (session.runTo mid).chip.after stop (session.runTo mid).bus =
          ({ (session.chip.after stop session.bus).1 with
            earliestIrq := (session.runTo mid).chip.earliestIrq },
            (session.chip.after stop session.bus).2) := by
        rw [runTo_chip hmid, runTo_bus hmid, ← hafter]
        rfl
      refine ⟨?_, ?_, ?_⟩
      · rw [runTo_chip hlt', runTo_chip hstop, hchip]
        rfl
      · rw [runTo_bus hlt', runTo_bus hstop, hchip]
      · intro channel
        have hsteps := session.chip.steps_split session.bus h channel
        rw [emits, emits, emits, if_neg (by omega), if_neg (by omega), if_neg (by omega), hsteps,
          runTo_chip hmid, runTo_bus hmid]
        rfl
    · have hsame : (session.runTo mid).runTo mid = session.runTo mid := runTo_of_le (by omega)
      rw [hsame]
      refine ⟨rfl, rfl, ?_⟩
      intro channel
      rw [emits, emits, if_pos (by omega : mid ≤ (session.runTo mid).chip.time), List.append_nil]

end Session

/-! ### Origins of time -/

namespace Chip

/-- The chip, with its next interrupt announced, as it is seen from a frame that starts at
`origin`. -/
def shift (chip : Chip) (origin : Int) : Chip :=
  announced { chip with
    dmc := chip.dmc.rebase origin
    sequencer := chip.sequencer.rebase origin
    time := chip.time - origin }

theorem shift_shift (chip : Chip) (origin origin' : Int) :
    (chip.shift origin).shift origin' = chip.shift (origin + origin') := by
  have htime : chip.time - origin - origin' = chip.time - (origin + origin') := by omega
  have hirq (irq : Option Int) :
      (irq.map (· - origin)).map (· - origin') = irq.map (· - (origin + origin')) := by
    cases irq with
    | none => rfl
    | some t =>
      show some (t - origin - origin') = some (t - (origin + origin'))
      congr 1
      omega
  have hdmc : (chip.dmc.rebase origin).rebase origin' = chip.dmc.rebase (origin + origin') :=
    congrArg (fun nextIrq => { chip.dmc with nextIrq }) (hirq _)
  have hsequencer : (chip.sequencer.rebase origin).rebase origin' =
      chip.sequencer.rebase (origin + origin') :=
    congrArg (fun nextIrq => { chip.sequencer with nextIrq }) (hirq _)
  show announced { chip with
    dmc := (chip.dmc.rebase origin).rebase origin'
    sequencer := (chip.sequencer.rebase origin).rebase origin'
    time := chip.time - origin - origin' } = _
  rw [hdmc, hsequencer, htime]
  rfl

theorem shift_zero (chip : Chip) : chip.shift 0 = chip.announced := by
  have hirq (irq : Option Int) : irq.map (· - 0) = irq := by cases irq <;> simp
  have hdmc : chip.dmc.rebase 0 = chip.dmc :=
    congrArg (fun nextIrq => { chip.dmc with nextIrq }) (hirq _)
  have hsequencer : chip.sequencer.rebase 0 = chip.sequencer :=
    congrArg (fun nextIrq => { chip.sequencer with nextIrq }) (hirq _)
  unfold shift
  rw [hdmc, hsequencer, Int.sub_zero]

theorem after_shift (chip : Chip) (origin stop : Int) (bus : Bus) :
    ((chip.shift origin).after (stop - origin) bus).1.announced =
        (chip.after stop bus).1.shift origin ∧
      ((chip.shift origin).after (stop - origin) bus).2 = (chip.after stop bus).2 := by
  have hdmc := chip.dmc.after_rebase origin chip.time stop bus
  obtain ⟨hbeats, hsequencer⟩ := chip.sequencer.run_rebase origin chip.time stop
  have htones := chip.tones.play_rebase origin chip.time stop
    (chip.sequencer.beats chip.time stop)
  rw [← hbeats] at htones
  refine ⟨?_, (congrArg Prod.snd hdmc :)⟩
  show announced { chip with
    tones := chip.tones.play (chip.time - origin) (stop - origin)
      ((chip.sequencer.rebase origin).beats (chip.time - origin) (stop - origin))
    dmc := ((chip.dmc.rebase origin).after (chip.time - origin) (stop - origin) bus).1
    sequencer := (chip.sequencer.rebase origin).after (chip.time - origin) (stop - origin)
    time := stop - origin } = _
  rw [htones, hdmc, hsequencer]
  rfl

theorem steps_shift (chip : Chip) (origin stop : Int) (bus : Bus) (channel : Channel) :
    (chip.shift origin).steps (stop - origin) bus channel =
      (chip.steps stop bus channel).map (Step.rebase origin) := by
  obtain ⟨hbeats, _⟩ := chip.sequencer.run_rebase origin chip.time stop
  have htones := chip.tones.playSteps_rebase origin chip.time stop channel
    (chip.sequencer.beats chip.time stop)
  rw [← hbeats] at htones
  cases channel with
  | dmc => exact chip.dmc.steps_rebase origin chip.time stop bus
  | _ => exact htones

end Chip

namespace Session

/-- The second session has the chip of the first one, seen from a frame that starts at `origin`, and
the same bus. -/
structure SameFrom (origin : Int) (session session' : Session) : Prop where
  chip : session'.chip = session.chip.shift origin
  bus : session'.bus = session.bus

variable {origin : Int} {session session' : Session}

theorem SameFrom.time (h : SameFrom origin session session') :
    session'.chip.time = session.chip.time - origin := by
  rw [h.chip]
  rfl

theorem SameFrom.runTo (h : SameFrom origin session session') (stop : Int) :
    SameFrom origin (session.runTo stop) (session'.runTo (stop - origin)) := by
  have htime := h.time
  by_cases hstop : stop ≤ session.chip.time
  · rwa [runTo_of_le hstop, runTo_of_le (by omega)]
  · obtain ⟨hchip, hbus⟩ := session.chip.after_shift origin stop session.bus
    rw [← h.chip, ← h.bus] at hchip hbus
    constructor
    · rw [runTo_chip (by omega), runTo_chip (by omega), hchip, ← h.bus]
      rfl
    · rw [runTo_bus (by omega), runTo_bus (by omega), hbus, ← h.bus]

theorem SameFrom.emits (h : SameFrom origin session session') (stop : Int) (channel : Channel) :
    session'.emits (stop - origin) channel =
      (session.emits stop channel).map (Step.rebase origin) := by
  have htime := h.time
  unfold Session.emits
  by_cases hstop : stop ≤ session.chip.time
  · rw [if_pos hstop, if_pos (by omega)]
    rfl
  · rw [if_neg hstop, if_neg (by omega), h.chip, h.bus]
    exact session.chip.steps_shift origin stop session.bus channel

@[simp] theorem applyWrite_steps (session : Session) (time : Int) (location : Location)
    (value : UInt8) : (session.applyWrite time location value).steps = session.steps := by
  cases location with
  | voice channel slot => cases channel <;> rfl
  | _ => rfl

theorem SameFrom.of_announced (hchip : session'.chip.announced = session.chip.shift origin)
    (hbus : session'.bus = session.bus) : SameFrom origin session.announce session'.announce where
  chip := by
    rw [announce_chip, announce_chip, hchip]
    rfl
  bus := by rw [announce_bus, announce_bus, hbus]

theorem SameFrom.applyWrite (h : SameFrom origin session session') (time : Int)
    (location : Location) (value : UInt8) :
    SameFrom origin (session.applyWrite time location value).announce
      (session'.applyWrite (time - origin) location value).announce := by
  obtain ⟨chip, _, _, _⟩ := session
  obtain ⟨_, bus', _, _⟩ := session'
  obtain ⟨hchip, hbus⟩ := h
  dsimp only at hchip hbus
  subst hchip hbus
  cases location with
  | voice channel slot =>
    cases channel with
    | dmc =>
      have hwrite := chip.dmc.write_rebase slot value origin chip.time
      refine .of_announced ?_ rfl
      show Chip.announced { chip.shift origin with
        dmc := (chip.dmc.rebase origin).write slot value (chip.time - origin) } = _
      rw [hwrite]
      rfl
    | _ => exact .of_announced rfl rfl
  | status =>
    have henable := chip.dmc.clearIrq.setEnabled_rebase (Status.enables value).dmc bus' origin
      chip.time
    refine .of_announced ?_ (congrArg Prod.snd henable :)
    show Chip.announced { chip.shift origin with
      enables := Status.enables value
      dmc := ((chip.dmc.clearIrq.rebase origin).setEnabled (Status.enables value).dmc bus'
        (chip.time - origin)).1
      tones := chip.tones.enable (Status.enables value) } = _
    rw [henable]
    rfl
  | mode =>
    have hmode := chip.sequencer.writeMode_rebase origin time value
    refine .of_announced ?_ rfl
    show Chip.announced { chip.shift origin with
      sequencer := (chip.sequencer.rebase origin).writeMode (time - origin) value } = _
    rw [hmode]
    rfl
  | idle => exact .of_announced rfl rfl

end Session

end Chiptune
