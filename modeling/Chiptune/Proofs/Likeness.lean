import Chiptune.Proofs.Mixing
import Chiptune.Proofs.Muting
import Chiptune.Proofs.Stops

/-! Consoles that agree within a scope.  Their outputs have the same place, and the same contents if no
channel is left out.  Every operation at the clock of both keeps them so; and a console that takes
over a whole session agrees with one that takes over its first part and then its rest
(`Resembles.absorb`). -/

namespace Chiptune

namespace Console

/-- The console after its chip has run to `stop` and done nothing else. -/
def advanced (console : Console) (stop : Int) : Console :=
  console.absorb (console.board.session.runTo stop)

/-- Consoles that agree within a scope.  The outputs have the same place, and if no channel is left
out the same contents. -/
structure Resembles (scope : Scope) (console console' : Console) : Prop where
  session : console.board.session.Resembles scope console'.board.session
  mix : console'.board.mix = console.board.mix
  muted : console'.board.muted = console.board.muted
  listening : console'.board.listening = console.board.listening
  configuration : console'.configuration = console.configuration
  place : console.buffer.SamePlace console'.buffer
  buffer : scope.Whole → console'.buffer = console.buffer

theorem session_absorb (console : Console) (session : Session) :
    (console.absorb session).board.session = { chip := session.chip, bus := session.bus } := by
  unfold Board.session
  rw [absorb_chip, absorb_bus]

theorem absorb_listening (console : Console) (session : Session) :
    (console.absorb session).board.listening = console.board.listening :=
  Board.hear_listening ..

theorem buffer_absorb (console : Console) (session : Session) :
    (console.absorb session).buffer = console.board.receive console.buffer session.steps.toList :=
  Board.conclude_snd ..

theorem absorb_session (console : Console) : console.absorb console.board.session = console := by
  have hnotices : console.board.notices ++ (#[] : Array (Option Int)) = console.board.notices :=
    Array.append_empty
  have hboard : (console.board.conclude console.buffer console.board.session).1 =
      console.board := by
    unfold Board.conclude Board.session Board.hear
    simp only [hnotices]
    split <;> rfl
  unfold absorb
  rw [hboard]
  rfl

theorem session_reset (console : Console) :
    console.reset.board.session = Operation.touch console.board.session .reset := by
  unfold Console.reset Board.session Operation.touch Operation.act
  simp only [Board.reset_chip, Board.reset_bus]

theorem reset_listening (console : Console) :
    console.reset.board.listening = console.board.listening :=
  Board.hear_listening ..

namespace Resembles

variable {scope : Scope} {console console' : Console}

theorem refl (console : Console) : console.Resembles scope console :=
  ⟨.refl _, rfl, rfl, rfl, rfl, .refl _, fun _ => rfl⟩

theorem time (h : console.Resembles scope console') :
    console'.board.chip.time = console.board.chip.time :=
  h.session.time

/-- One console takes over a whole session, the other one its rest. -/
theorem absorb {first last last' : Session} (h : (console.absorb first).Resembles scope console')
    (hsession : last.Resembles scope last')
    (htracks : scope.Whole → ∀ channel, ChannelStep.track channel last.steps =
      ChannelStep.track channel first.steps ++ ChannelStep.track channel last'.steps) :
    (console.absorb last).Resembles scope (console'.absorb last') where
  session := by
    rw [session_absorb, session_absorb]
    exact ⟨hsession.tones, hsession.dmc, hsession.bus, hsession.sequencer, hsession.enables,
      hsession.time⟩
  mix := by
    rw [absorb_mix, absorb_mix, h.mix, absorb_mix]
  muted := by
    rw [absorb_muted, absorb_muted, h.muted, absorb_muted]
  listening := by
    rw [absorb_listening, absorb_listening, h.listening, absorb_listening]
  configuration := h.configuration
  place :=
    (((console.absorb_samePlace last).symm.trans (console.absorb_samePlace first)).trans
      h.place).trans (console'.absorb_samePlace last')
  buffer := by
    intro hwhole
    have hmix : console'.board.mix = console.board.mix := by rw [h.mix, absorb_mix]
    have hmuted : console'.board.muted = console.board.muted := by rw [h.muted, absorb_muted]
    rw [buffer_absorb, buffer_absorb, h.buffer hwhole, buffer_absorb,
      Board.receive_congr hmix hmuted, ← Board.receive_append]
    refine Board.receive_eq_of_tracks _ _ ?_
    intro channel
    rw [ChannelStep.trackOf_append]
    exact (htracks hwhole channel).symm

/-! ### Operations at the clock of both consoles -/

theorem endFrame (h : console.Resembles scope console') (time : Int) :
    Resembles scope { console with buffer := console.buffer.endFrame time }
      { console' with buffer := console'.buffer.endFrame time } :=
  ⟨h.session, h.mix, h.muted, h.listening, h.configuration, h.place.endFrame time,
    fun hwhole => congrArg (·.endFrame time) (h.buffer hwhole)⟩

theorem read (h : console.Resembles scope console') (count : Nat) :
    (console.read count).2.Resembles scope (console'.read count).2 ∧
      (scope.Whole → (console'.read count).1 = (console.read count).1) := by
  obtain ⟨_, hplace⟩ := h.place.read count
  have hread (hwhole : scope.Whole) : console'.buffer.read count = console.buffer.read count :=
    congrArg (·.read count) (h.buffer hwhole)
  exact ⟨⟨h.session, h.mix, h.muted, h.listening, h.configuration, hplace,
    fun hwhole => congrArg (·.2) (hread hwhole)⟩, fun hwhole => congrArg (·.1) (hread hwhole)⟩

theorem switched (h : console.Resembles scope console') (channel : Channel) (muted : Bool) :
    (console.switched channel muted).Resembles scope (console'.switched channel muted) where
  session := h.session
  mix := h.mix
  muted := congrArg (·.set channel muted) h.muted
  listening := h.listening
  configuration := h.configuration
  place :=
    ((console.alike_switched channel muted).buffer.symm.trans h.place).trans
      (console'.alike_switched channel muted).buffer
  buffer := by
    intro hwhole
    have hlevel := h.session.level (hwhole channel)
    have htime := h.time
    have hbuffer := h.buffer hwhole
    unfold Board.session at hlevel
    unfold Console.switched Board.deliver
    dsimp only at *
    rw [hlevel, htime, hbuffer, h.mix]

theorem setMuted (h : console.Resembles scope console') (position : Nat) (muted : Bool) :
    (console.accepting (.setMuted position muted)).Resembles scope
      (console'.accepting (.setMuted position muted)) := by
  rw [accepting_setMuted, accepting_setMuted, h.muted]
  split
  · exact h
  · split
    · exact h
    · exact h.switched _ muted

theorem setVolume (h : console.Resembles scope console') (volume : Float) :
    (console.accepting (.setVolume volume)).Resembles scope
      (console'.accepting (.setVolume volume)) :=
  ⟨h.session, rfl, h.muted, h.listening, h.configuration, h.place, h.buffer⟩

theorem listen (h : console.Resembles scope console') (listening : Bool) :
    (console.accepting (.listen listening)).Resembles scope
      (console'.accepting (.listen listening)) :=
  ⟨h.session, h.mix, h.muted, rfl, h.configuration, h.place, h.buffer⟩

theorem takeStall (h : console.Resembles scope console') :
    console.takeStall.2.Resembles scope console'.takeStall.2 :=
  ⟨h.session.takeStall, h.mix, h.muted, h.listening, h.configuration, h.place, h.buffer⟩

theorem reset (h : console.Resembles scope console') :
    console.reset.Resembles scope console'.reset where
  session := by
    rw [session_reset, session_reset]
    exact h.session.touch .reset
  mix := by rw [reset_mix, reset_mix, h.mix]
  muted := by rw [reset_muted, reset_muted, h.muted]
  listening := by rw [reset_listening, reset_listening, h.listening]
  configuration := h.configuration
  place := h.place.clear
  buffer := fun hwhole => congrArg StepBuffer.clear (h.buffer hwhole)

end Resembles

theorem advanced_now (console : Console) :
    console.advanced console.board.chip.time = console := by
  have hnow : console.board.session.runTo console.board.chip.time = console.board.session :=
    Session.runTo_now _
  unfold advanced
  rw [hnow, absorb_session]

end Console

end Chiptune
