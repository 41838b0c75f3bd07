import Chiptune.Proofs.History
import Chiptune.Proofs.PowerOn

/-! Steps and levels.  The steps that a channel puts out in a run add up to the change of its level,
through every branch of its run and every beat; what else happens to a chip leaves the levels as they
are.  There are two exceptions: a write that loads the level of the sample channel, which moves that
level by a `jump`, and a reset, which puts every level to rest. -/

namespace Chiptune

/-! ### Runs of a channel -/

theorem Pulse.total_steps (pulse : Pulse) (time stop : Int) :
    Step.total (pulse.steps time stop) =
      (pulse.after time stop).voice.level - pulse.voice.level :=
  Timer.total_sound ..

theorem Triangle.total_steps (triangle : Triangle) (time stop : Int) :
    Step.total (triangle.steps time stop) =
      (triangle.after time stop).voice.level - triangle.voice.level := by
  by_cases h : triangle.isHeld = true
  · rw [steps_of_held h, after_of_held h, Step.total_change]
    rfl
  · rw [steps_of_not_held h, after_of_not_held h]
    exact Timer.total_sound ..

theorem Noise.total_steps (noise : Noise) (time stop : Int) :
    Step.total (noise.steps time stop) =
      (noise.after time stop).voice.level - noise.voice.level :=
  Timer.total_sound ..

theorem Dmc.total_steps (dmc : Dmc) (time stop : Int) (bus : Bus) :
    Step.total (dmc.steps time stop bus) =
      (dmc.after time stop bus).1.voice.level - dmc.voice.level :=
  Timer.total_sound ..

/-! ### Tone channels -/

namespace Tones

/-- The level that a tone channel last put out. -/
def level (tones : Tones) (channel : Channel) : Int := (tones.place channel).2

theorem total_steps (tones : Tones) (time stop : Int) (channel : Channel) :
    Step.total (tones.steps time stop channel) =
      (tones.after time stop).level channel - tones.level channel := by
  cases channel with
  | pulse1 => exact tones.pulse1.total_steps time stop
  | pulse2 => exact tones.pulse2.total_steps time stop
  | triangle => exact tones.triangle.total_steps time stop
  | noise => exact tones.noise.total_steps time stop
  | dmc => rfl

/-- The steps of a run through beats add up to the change of the level. -/
theorem total_playSteps (tones : Tones) (time stop : Int) (channel : Channel)
    (beats : List (Int × Beat)) :
    Step.total (tones.playSteps time stop channel beats) =
      (tones.play time stop beats).level channel - tones.level channel := by
  induction beats generalizing tones time with
  | nil => exact tones.total_steps time stop channel
  | cons beat beats ih =>
    have hclock := congrArg Prod.snd ((tones.after time beat.1).place_clock beat.2 channel)
    rw [playSteps, Step.total_append, total_steps, ih, play]
    unfold level
    omega

end Tones

theorem Dmc.level_setEnabled (dmc : Dmc) (enabled : Bool) (bus : Bus) (now : Int) :
    (dmc.setEnabled enabled bus now).1.voice.level = dmc.voice.level :=
  congrArg Setup.level (setup_setEnabled ..)

/-! ### The chip -/

namespace Chip

theorem level_tone (chip : Chip) {channel : Channel} (h : channel ≠ .dmc) :
    chip.level channel = chip.tones.level channel := by
  cases channel with
  | dmc => exact absurd rfl h
  | _ => rfl

theorem total_steps (chip : Chip) (stop : Int) (bus : Bus) (channel : Channel) :
    Step.total (chip.steps stop bus channel) =
      (chip.after stop bus).1.level channel - chip.level channel := by
  cases channel with
  | dmc => exact chip.dmc.total_steps ..
  | _ => exact chip.tones.total_playSteps ..

/-- The level of a channel at rest: the triangle stands at the top of its wave. -/
def restLevel : Channel → Int
  | .triangle => 15
  | _ => 0

theorem level_restarted (wiring : Wiring) (channel : Channel) :
    (restarted wiring).level channel = restLevel channel := by
  cases channel <;> rfl

end Chip

namespace Session

/-- The sum of the steps of a channel. -/
def total (session : Session) (channel : Channel) : Int :=
  Step.total (ChannelStep.track channel session.steps)

/-- What a session has put out beyond the level at which a channel is. -/
def excess (session : Session) (channel : Channel) : Int :=
  session.total channel - session.chip.level channel

theorem excess_congr {session session' : Session} (hsteps : session'.steps = session.steps)
    {channel : Channel} (hlevel : session'.chip.level channel = session.chip.level channel) :
    session'.excess channel = session.excess channel := by
  unfold excess total
  rw [hsteps, hlevel]

theorem level_announce (session : Session) (channel : Channel) :
    session.announce.chip.level channel = session.chip.level channel := by
  rw [announce_chip]
  cases channel <;> rfl

theorem excess_announce (session : Session) (channel : Channel) :
    session.announce.excess channel = session.excess channel :=
  excess_congr (announce_steps session) (session.level_announce channel)

/-- A run puts out just the change of the level. -/
theorem excess_runTo (session : Session) (stop : Int) (channel : Channel) :
    (session.runTo stop).excess channel = session.excess channel := by
  by_cases h : stop ≤ session.chip.time
  · rw [runTo_of_le h]
  · have hsteps := session.chip.total_steps stop session.bus channel
    have hlevel : (session.runTo stop).chip.level channel =
        (session.chip.after stop session.bus).1.level channel := by
      rw [runTo_chip (Int.not_le.mp h)]
      cases channel <;> rfl
    unfold excess total
    rw [track_runTo_of_lt (Int.not_le.mp h), Step.total_append, hsteps, hlevel]
    omega

theorem level_applyWrite (session : Session) (time : Int) {location : Location}
    (h : location ≠ .voice .dmc .second) (value : UInt8) (channel : Channel) :
    (session.applyWrite time location value).chip.level channel = session.chip.level channel := by
  by_cases hchannel : channel = .dmc
  · subst hchannel
    cases location with
    | voice written slot =>
      cases written with
      | dmc =>
        cases slot with
        | second => exact absurd rfl h
        | _ => rfl
      | _ => rfl
    | status => exact Dmc.level_setEnabled ..
    | _ => rfl
  · rw [Chip.level_tone _ hchannel, Chip.level_tone _ hchannel]
    cases location with
    | voice written slot =>
      cases written with
      | dmc => rfl
      | _ => exact congrArg Prod.snd (Tones.place_write ..)
    | status => exact congrArg Prod.snd (Tones.place_enable ..)
    | _ => rfl

theorem level_load (session : Session) (time : Int) (value : UInt8) {channel : Channel}
    (h : channel ≠ .dmc) :
    (session.applyWrite time (.voice .dmc .second) value).chip.level channel =
      session.chip.level channel := by
  cases channel with
  | dmc => exact absurd rfl h
  | _ => rfl

end Session

/-! ### Operations -/

namespace Operation

/-- The change of the level of the sample channel by a write that loads it.  It is made without a
step. -/
def jump (session : Session) : Operation → Int
  | .write time address value =>
    if Location.ofAddress? address = some (.voice .dmc .second) then
      (session.write time address value).chip.level .dmc - (session.runTo time).chip.level .dmc
    else 0
  | _ => 0

theorem jump_write (session : Session) (time : Int) (address : UInt16) (value : UInt8) :
    (write time address value).jump session =
      if Location.ofAddress? address = some (.voice .dmc .second) then
        (session.write time address value).chip.level .dmc - (session.runTo time).chip.level .dmc
      else 0 := rfl

theorem excess_write (session : Session) (time : Int) (address : UInt16) (value : UInt8)
    (channel : Channel) :
    (session.write time address value).excess channel =
      session.excess channel -
        if channel = .dmc then (write time address value).jump session else 0 := by
  rw [jump_write, ← session.excess_runTo time channel]
  by_cases hload : Location.ofAddress? address = some (.voice .dmc .second)
  · have hsteps := Session.applyWrite_steps (session.runTo time) time (.voice .dmc .second) value
    rw [if_pos hload, Session.write_of_some hload, Session.excess_announce,
      Session.level_announce]
    unfold Session.excess Session.total
    rw [hsteps]
    by_cases hchannel : channel = .dmc
    · subst hchannel
      rw [if_pos rfl]
      omega
    · rw [if_neg hchannel, Session.level_load _ _ _ hchannel]
      omega
  · rw [if_neg hload, ite_self, Int.sub_zero]
    cases hlocation : Location.ofAddress? address with
    | none => rw [Session.write_of_none hlocation, Session.excess_runTo]
    | some location =>
      have hother : location ≠ .voice .dmc .second := fun h => hload (h ▸ hlocation)
      rw [Session.write_of_some hlocation, Session.excess_announce]
      exact Session.excess_congr (Session.applyWrite_steps ..)
        (Session.level_applyWrite _ _ hother _ _)

/-- Every operation but a reset puts out just the change of each level, except for the jump of a level
that it loads. -/
theorem excess_act (session : Session) {operation : Operation} (hreset : operation ≠ .reset)
    (channel : Channel) :
    (operation.act session).excess channel =
      session.excess channel - if channel = .dmc then operation.jump session else 0 := by
  have hkeep (h : (operation.act session).excess channel = session.excess channel)
      (hjump : operation.jump session = 0) :
      (operation.act session).excess channel =
        session.excess channel - if channel = .dmc then operation.jump session else 0 := by
    rw [h, hjump, ite_self, Int.sub_zero]
  cases operation with
  | write time address value => exact excess_write session time address value channel
  | readStatus time =>
    refine hkeep ?_ rfl
    have hnow : ((session.runTo (max (time - 1) session.chip.time)).runTo time).excess channel =
        session.excess channel := by
      rw [Session.excess_runTo, Session.excess_runTo]
    show (session.readStatus time).2.excess channel = _
    unfold Session.readStatus
    dsimp only
    split
    · rw [Session.excess_announce, ← hnow]
      refine Session.excess_congr rfl ?_
      cases channel <;> rfl
    · exact hnow
  | runFrame time count =>
    refine hkeep ?_ rfl
    rw [← session.excess_runTo time channel]
    refine Session.excess_congr rfl ?_
    cases channel <;> rfl
  | takeStall =>
    refine hkeep ?_ rfl
    refine Session.excess_congr rfl ?_
    cases channel <;> rfl
  | reset => exact absurd rfl hreset
  | _ => exact hkeep rfl rfl

end Operation

end Chiptune
