import Chiptune.Proofs.Ledger
import Chiptune.Proofs.Muting

/-! What switches strand in the output.  A history with switches delivers the same sum as the history
without them once nothing is muted, but for two things that no switch accounts for.  A write that
loads the level of the sample channel while it is muted moves that level without a step, and its jump
is then given back as if it had been a step.  A reset while the triangle is muted puts the triangle to
rest without a step, and its level at rest is then given back though it was never taken. -/

namespace Chiptune

/-- Whether an operation asks for a switch, of a channel that exists or of one that does not. -/
def Operation.asksSwitch : Operation → Bool
  | .setMuted _ _ => true
  | _ => false

namespace Console

/-- The part of the jump of an operation that is not heard of a channel. -/
def mutedJump (console : Console) (operation : Operation) (channel : Channel) : Int :=
  if channel = .dmc ∧ console.board.muted.get channel = true then
    operation.jump console.board.session
  else 0

/-- The units of a channel that are stranded after an operation, where `units` were before: the jumps
that were not heard since the last reset, and the level at rest if the channel was muted then. -/
def strandedBy (console : Console) (channel : Channel) (units : Int) (operation : Operation) : Int :=
  match console.perform operation with
  | .error _ => units
  | .ok _ =>
    let scale := console.board.mix.scale channel
    match operation with
    | .reset =>
      if console.board.muted.get channel then scale.apply (Chip.restLevel channel) else 0
    | operation => units + scale.apply (console.mutedJump operation channel)

/-- The units of a channel that are stranded after a history, where `units` were before. -/
def stranded (console : Console) (channel : Channel) (units : Int) : List Operation → Int
  | [] => units
  | operation :: operations =>
    (console.attempt operation).2.stranded channel (console.strandedBy channel units operation)
      operations

/-- Whether an operation moves a level that is muted without a step. -/
def disturbs (console : Console) : Operation → Bool
  | .reset => console.board.muted.get .triangle
  | .write _ address _ =>
    Location.ofAddress? address = some (.voice .dmc .second) && console.board.muted.get .dmc
  | _ => false

/-- Whether the switches of a history account for every step that is not heard. -/
def compensates (console : Console) : List Operation → Bool
  | [] => true
  | operation :: operations =>
    !console.disturbs operation && (console.attempt operation).2.compensates operations

theorem strandedBy_of_error {console : Console} {operation : Operation} {fault : Fault}
    (h : console.perform operation = .error fault) (channel : Channel) (units : Int) :
    console.strandedBy channel units operation = units := by
  unfold strandedBy
  rw [h]

theorem strandedBy_of_ok {console next : Console} {operation : Operation} {outcome : Outcome}
    (h : console.perform operation = .ok (outcome, next)) (hreset : operation ≠ .reset)
    (channel : Channel) (units : Int) :
    console.strandedBy channel units operation =
      units + (console.board.mix.scale channel).apply (console.mutedJump operation channel) := by
  unfold strandedBy
  rw [h]
  cases operation with
  | reset => exact absurd rfl hreset
  | _ => rfl

/-- A jump is either heard or not. -/
theorem heardJump_add_mutedJump (console : Console) (operation : Operation) (channel : Channel) :
    console.heardJump operation channel + console.mutedJump operation channel =
      if channel = .dmc then operation.jump console.board.session else 0 := by
  unfold heardJump mutedJump
  cases console.board.muted.get channel <;> simp

theorem mutedJump_of_not_disturbs {console : Console} {operation : Operation}
    (h : console.disturbs operation = false) (channel : Channel) :
    console.mutedJump operation channel = 0 := by
  unfold mutedJump
  split
  · rename_i hmuted
    cases operation with
    | write time address value =>
      have hload : Location.ofAddress? address ≠ some (.voice .dmc .second) := by
        intro haddress
        simp [disturbs, haddress, ← hmuted.1, hmuted.2] at h
      exact if_neg hload
    | _ => rfl
  · rfl

theorem strandedBy_of_not_disturbs {console : Console} {operation : Operation}
    (h : console.disturbs operation = false) (channel : Channel) :
    console.strandedBy channel 0 operation = 0 := by
  cases hperform : console.perform operation with
  | error fault => exact strandedBy_of_error hperform channel 0
  | ok result =>
    by_cases hreset : operation = .reset
    · subst hreset
      cases channel with
      | triangle =>
        have htriangle : console.board.muted.get .triangle = false := h
        show (if console.board.muted.get .triangle then _ else 0) = (0 : Int)
        rw [htriangle]
        rfl
      | _ => exact (congrArg (ite _ · 0) (Scale.apply_zero _)).trans (ite_self 0)
    · rw [strandedBy_of_ok hperform hreset, mutedJump_of_not_disturbs h, Scale.apply_zero]
      rfl

/-- Nothing is stranded where the switches account for every step. -/
theorem stranded_of_compensates {console : Console} {operations : List Operation}
    (h : console.compensates operations = true) (channel : Channel) :
    console.stranded channel 0 operations = 0 := by
  induction operations generalizing console with
  | nil => rfl
  | cons operation operations ih =>
    rw [compensates, Bool.and_eq_true, Bool.not_eq_true'] at h
    rw [stranded, strandedBy_of_not_disturbs h.1, ih h.2]

/-- Consoles that are alike refuse the same operations. -/
theorem Alike.perform_error {console console' : Console} (h : Alike console console')
    {operation : Operation} {fault : Fault} (hperform : console.perform operation = .error fault) :
    console'.perform operation = .error fault := by
  obtain ⟨hanswer, _⟩ := h.attempt operation
  rw [attempt_of_error hperform] at hanswer
  cases hperform' : console'.perform operation with
  | error fault' =>
    rw [attempt_of_error hperform'] at hanswer
    cases hanswer
    rfl
  | ok result =>
    rw [attempt_of_ok hperform'] at hanswer
    cases hanswer

theorem Alike.perform_ok {console console' next : Console} (h : Alike console console')
    {operation : Operation} {outcome : Outcome}
    (hperform : console.perform operation = .ok (outcome, next)) :
    ∃ outcome' next', console'.perform operation = .ok (outcome', next') := by
  cases hperform' : console'.perform operation with
  | error fault =>
    rw [h.symm.perform_error hperform'] at hperform
    cases hperform
  | ok result => exact ⟨result.1, result.2, rfl⟩

end Console

namespace Ledger

/-- The ledger of a history with switches beside that of the same history without them.  They differ
by the units that are stranded and by the levels that are muted. -/
structure Shadows (plain ledger : Ledger) (stranded : Channel → Int) : Prop where
  reachable : Console.Reachable ledger.console
  reachable' : Console.Reachable plain.console
  alike : ledger.console.Alike plain.console
  unmuted : ∀ channel, plain.console.board.muted.get channel = false
  balance : ∀ channel,
    Delivery.totalOf channel plain.entries + stranded channel =
      Delivery.totalOf channel ledger.entries +
        (ledger.console.board.mix.scale channel).apply
          (ledger.console.board.chip.level channel - ledger.console.heardLevel channel)

namespace Shadows

variable {plain ledger : Ledger} {stranded : Channel → Int} {operation : Operation}

theorem heardLevel (h : Shadows plain ledger stranded) (channel : Channel) :
    plain.console.heardLevel channel = ledger.console.board.chip.level channel := by
  rw [Console.heardLevel_of_unmuted (h.unmuted channel), h.alike.chip]

/-- A switch moves no level. -/
theorem switch (h : Shadows plain ledger stranded) (hswitch : operation.asksSwitch = true) :
    Shadows plain (ledger.step operation)
      fun channel => ledger.console.strandedBy channel (stranded channel) operation := by
  cases operation with
  | setMuted position muted =>
    have hswitched := ledger.console.alike_attempt_setMuted position muted
    have hconsole := ledger.console_step (.setMuted position muted)
    refine ⟨reachable_step h.reachable _, h.reachable', ?_, h.unmuted, fun channel => ?_⟩
    · rw [hconsole]
      exact hswitched.symm.trans h.alike
    · have hbalance := h.balance channel
      cases hperform : ledger.console.perform (.setMuted position muted) with
      | error fault => rwa [Console.strandedBy_of_error hperform, step_of_error hperform]
      | ok result =>
        obtain ⟨outcome, next⟩ := result
        have hreset : Operation.setMuted position muted ≠ .reset := by simp
        have hdelivered := Console.totalOf_delivered h.reachable hperform hreset channel
        have hmix := (Console.perform_settings hperform).2 (by simp)
        have hjump : ledger.console.heardJump (.setMuted position muted) channel = 0 := ite_self 0
        have hmuted : ledger.console.mutedJump (.setMuted position muted) channel = 0 := ite_self 0
        rw [Console.attempt_of_ok hperform] at hswitched
        rw [Console.strandedBy_of_ok hperform hreset, step_of_ok hperform hreset]
        dsimp only
        rw [Delivery.totalOf_append, hdelivered, hmix, hswitched.chip, hjump, hmuted]
        simp only [Scale.apply_sub, Scale.apply_zero] at hbalance ⊢
        omega
  | _ => cases hswitch

/-- A reset leaves just the levels at rest that are muted. -/
theorem reset (h : Shadows plain ledger stranded) :
    Shadows (plain.step .reset) (ledger.step .reset)
      fun channel => ledger.console.strandedBy channel (stranded channel) .reset where
  reachable := h.reachable.reset
  reachable' := h.reachable'.reset
  alike := h.alike.reset
  unmuted channel := by
    show plain.console.reset.board.muted.get channel = false
    rw [Console.reset_muted]
    exact h.unmuted channel
  balance channel := by
    show 0 + (if ledger.console.board.muted.get channel then
        (ledger.console.board.mix.scale channel).apply (Chip.restLevel channel) else 0) =
      0 + (ledger.console.reset.board.mix.scale channel).apply
        (ledger.console.reset.board.chip.level channel -
          if ledger.console.reset.board.muted.get channel then 0
          else ledger.console.reset.board.chip.level channel)
    rw [Console.reset_mix, Console.reset_chip, Console.reset_muted, Chip.level_restarted]
    split
    · rw [Int.sub_zero]
    · rw [Int.sub_self, Scale.apply_zero]

/-- Any other operation is accepted by both consoles or by none.  Without switches the change of each
level is delivered, except for a jump; with them it is either heard or muted, and so is the jump. -/
theorem step (h : Shadows plain ledger stranded) (hswitch : operation.asksSwitch = false)
    (hvolume : ∀ volume, operation ≠ .setVolume volume) :
    Shadows (plain.step operation) (ledger.step operation)
      fun channel => ledger.console.strandedBy channel (stranded channel) operation := by
  by_cases hreset : operation = .reset
  · subst hreset
    exact h.reset
  cases hperform : ledger.console.perform operation with
  | error fault =>
    rw [step_of_error hperform, step_of_error (h.alike.perform_error hperform)]
    simp only [Console.strandedBy_of_error hperform]
    exact h
  | ok result =>
    obtain ⟨outcome, next⟩ := result
    obtain ⟨outcome', next', hperform'⟩ := h.alike.perform_ok hperform
    have halike := (h.alike.attempt operation).2
    rw [Console.attempt_of_ok hperform, Console.attempt_of_ok hperform'] at halike
    have hnotSwitch (position : Nat) (muted : Bool) : operation ≠ .setMuted position muted := by
      rintro rfl
      cases hswitch
    have hmuted' := (Console.perform_settings hperform').1 hnotSwitch
    have hmix := (Console.perform_settings hperform).2 hvolume
    rw [step_of_ok hperform hreset, step_of_ok hperform' hreset]
    refine ⟨h.reachable.perform hperform, h.reachable'.perform hperform', halike, ?_, ?_⟩
    · intro channel
      dsimp only
      rw [hmuted']
      exact h.unmuted channel
    · intro channel
      have hbalance := h.balance channel
      have hdelivered := Console.totalOf_delivered h.reachable hperform hreset channel
      have hdelivered' := Console.totalOf_delivered h.reachable' hperform' hreset channel
      have hlevel' : next'.heardLevel channel = next.board.chip.level channel := by
        rw [Console.heardLevel_of_unmuted (hmuted' ▸ h.unmuted channel), halike.chip]
      have hjump := ledger.console.heardJump_add_mutedJump operation channel
      have hjump' : plain.console.heardJump operation channel =
          ledger.console.heardJump operation channel +
            ledger.console.mutedJump operation channel := by
        rw [hjump]
        unfold Console.heardJump
        rw [h.unmuted, h.alike.session]
        simp
      rw [Console.strandedBy_of_ok hperform hreset]
      dsimp only
      rw [Delivery.totalOf_append, Delivery.totalOf_append, hdelivered, hdelivered', hlevel',
        h.heardLevel, hjump', h.alike.mix, hmix]
      simp only [Scale.apply_sub, Scale.apply_add] at hbalance ⊢
      omega

/-- The ledgers of a whole history with its switches and without them. -/
theorem run (h : Shadows plain ledger stranded) {operations : List Operation}
    (hvolume : ∀ volume, .setVolume volume ∉ operations) :
    Shadows (plain.run (operations.filter (!·.asksSwitch))) (ledger.run operations)
      fun channel => ledger.console.stranded channel (stranded channel) operations := by
  induction operations generalizing plain ledger stranded with
  | nil => exact h
  | cons operation operations ih =>
    have hlater (volume : Float) : .setVolume volume ∉ operations :=
      fun hmem => hvolume volume (.tail _ hmem)
    simp only [Console.stranded, ← console_step]
    cases hswitch : operation.asksSwitch with
    | true =>
      rw [List.filter_cons_of_neg (by simp [hswitch])]
      exact ih (h.switch hswitch) hlater
    | false =>
      rw [List.filter_cons_of_pos (by simp [hswitch])]
      exact ih (h.step hswitch fun volume heq => hvolume volume (heq ▸ .head _)) hlater

theorem create {bus : Bus} {configuration : Configuration} {console : Console}
    (hcreate : Console.create bus configuration = .ok console) :
    Shadows { console } { console } fun _ => 0 := by
  have hunmuted (channel : Channel) : console.board.muted.get channel = false := by
    rw [Console.create_unmuted hcreate]
    cases channel <;> rfl
  refine ⟨.create hcreate, .create hcreate, .refl console, hunmuted, fun channel => ?_⟩
  dsimp only
  rw [Console.heardLevel_of_unmuted (hunmuted channel), Int.sub_self, Scale.apply_zero]

end Shadows

end Ledger

namespace Console

/-- If nothing is muted at the end of a history at a fixed volume, its output received the same since
the last reset as without the switches, and besides just what is stranded.  So it received the same in
all if no reset found the triangle muted and no write loaded the level of a muted sample channel. -/
theorem totalOf_switched {bus : Bus} {configuration : Configuration} {console : Console}
    (hcreate : Console.create bus configuration = .ok console) {run : List Operation}
    (hvolume : ∀ volume, .setVolume volume ∉ run)
    (hmuted : (Ledger.run { console } run).console.board.muted = .fill false) :
    let switched := (Ledger.run { console } run).entries
    let plain := (Ledger.run { console } (run.filter (!·.asksSwitch))).entries
    (∀ channel, Delivery.totalOf channel switched =
      Delivery.totalOf channel plain + console.stranded channel 0 run) ∧
    (console.compensates run = true → Delivery.total switched = Delivery.total plain) := by
  intro switched plain
  have hshadows := (Ledger.Shadows.create hcreate).run hvolume
  have hchannel (channel : Channel) : Delivery.totalOf channel switched =
      Delivery.totalOf channel plain + console.stranded channel 0 run := by
    have hunmuted : (Ledger.run { console } run).console.board.muted.get channel = false := by
      rw [hmuted]
      cases channel <;> rfl
    rw [hshadows.balance channel, heardLevel_of_unmuted hunmuted, Int.sub_self, Scale.apply_zero,
      Int.add_zero]
  refine ⟨hchannel, fun hcompensates => ?_⟩
  simp only [Delivery.total_eq_sum, hchannel, stranded_of_compensates hcompensates, Int.add_zero]

/-- The operations of a reset while the triangle is muted. -/
def mutedReset : List Operation :=
  [.setMuted 2 true, .reset, .setMuted 2 false, .runFrame 1000 100]

/-- The operations of a load of the sample channel while it is muted. -/
def mutedLoad : List Operation :=
  [.setMuted 4 true, .write 10 0x4011 127, .runFrame 1000 0, .setMuted 4 false, .runFrame 1000 100]

/-- The operations of a load of the sample channel, which is muted for a frame after it. -/
def interruptedLoad : List Operation :=
  [.write 10 0x4011 127, .runFrame 1000 0, .setMuted 4 true, .runFrame 1000 0, .setMuted 4 false,
    .runFrame 1000 100]

/-- The reset strands 15 units of 279 of the triangle and the muted load 44 units of 110 of the sample
channel, where a load that is heard strands nothing. -/
theorem totalOf_switched_of_load :
    ∃ console, Console.create (.unconnected 0) .standard = .ok console ∧
      Delivery.totalOf .triangle (Ledger.run { console } mutedReset).entries =
        Delivery.totalOf .triangle
          (Ledger.run { console } (mutedReset.filter (!·.asksSwitch))).entries + 15 * 279 ∧
      Delivery.totalOf .dmc (Ledger.run { console } mutedLoad).entries =
        Delivery.totalOf .dmc
          (Ledger.run { console } (mutedLoad.filter (!·.asksSwitch))).entries + 44 * 110 ∧
      Delivery.total (Ledger.run { console } interruptedLoad).entries =
        Delivery.total
          (Ledger.run { console } (interruptedLoad.filter (!·.asksSwitch))).entries := by
  obtain ⟨console, hcreate, hfacts⟩ := exists_ok
    (Console.create (.unconnected 0) .standard)
    (fun console =>
      (Ledger.run { console } mutedReset).console.board.muted = .fill false &&
        console.stranded .triangle 0 mutedReset = 15 * 279 &&
        (Ledger.run { console } mutedLoad).console.board.muted = .fill false &&
        console.stranded .dmc 0 mutedLoad = 44 * 110 &&
        (Ledger.run { console } interruptedLoad).console.board.muted = .fill false &&
        console.compensates interruptedLoad)
    (by decide +kernel)
  simp only [Bool.and_eq_true, decide_eq_true_eq] at hfacts
  obtain ⟨⟨⟨⟨⟨hreset, htriangle⟩, hload⟩, hdmc⟩, hheard⟩, hcompensates⟩ := hfacts
  have hvolume : ∀ volume, .setVolume volume ∉ mutedReset := by simp [mutedReset]
  have hvolume' : ∀ volume, .setVolume volume ∉ mutedLoad := by simp [mutedLoad]
  have hvolume'' : ∀ volume, .setVolume volume ∉ interruptedLoad := by simp [interruptedLoad]
  exact ⟨console, hcreate, htriangle ▸ (totalOf_switched hcreate hvolume hreset).1 .triangle,
    hdmc ▸ (totalOf_switched hcreate hvolume' hload).1 .dmc,
    (totalOf_switched hcreate hvolume'' hheard).2 hcompensates⟩

/-- A reset that finds the triangle muted and a load that finds the sample channel muted each leave the
output with another sum than the same operations without their switches. -/
theorem total_ne_of_switched :
    ∃ console, Console.create (.unconnected 0) .standard = .ok console ∧
      ((Ledger.run { console } mutedReset).console.board.muted = .fill false ∧
        Delivery.total (Ledger.run { console } mutedReset).entries = 15 * 279 ∧
        Delivery.total
          (Ledger.run { console } (mutedReset.filter (!·.asksSwitch))).entries = 0) ∧
      ((Ledger.run { console } mutedLoad).console.board.muted = .fill false ∧
        Delivery.total (Ledger.run { console } mutedLoad).entries = 127 * 110 ∧
        Delivery.total
          (Ledger.run { console } (mutedLoad.filter (!·.asksSwitch))).entries = 83 * 110) := by
  obtain ⟨console, hcreate, hfacts⟩ := exists_ok
    (Console.create (.unconnected 0) .standard)
    (fun console =>
      let total := fun run => Delivery.total (Ledger.run { console } run).entries
      ((Ledger.run { console } mutedReset).console.board.muted = .fill false &&
          total mutedReset = 15 * 279 && total (mutedReset.filter (!·.asksSwitch)) = 0) &&
        ((Ledger.run { console } mutedLoad).console.board.muted = .fill false &&
          total mutedLoad = 127 * 110 && total (mutedLoad.filter (!·.asksSwitch)) = 83 * 110))
    (by decide +kernel)
  simp only [Bool.and_eq_true, decide_eq_true_eq] at hfacts
  obtain ⟨⟨⟨hmuted, htotal⟩, hplain⟩, ⟨hmuted', htotal'⟩, hplain'⟩ := hfacts
  exact ⟨console, hcreate, ⟨hmuted, htotal, hplain⟩, hmuted', htotal', hplain'⟩

end Console

end Chiptune
