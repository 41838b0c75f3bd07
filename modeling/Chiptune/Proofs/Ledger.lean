import Chiptune.Proofs.Conservation

/-! The ledger of the output.  A `Delivery` is a step that the output took, and an accepted operation
changes the output by just its deliveries before it ends a frame, reads or clears
(`perform_buffer`).  The deliveries of a channel add up to the change of the level that is heard of
it, in units of the output; for a tone channel nothing else ever happens to that level. -/

namespace Chiptune

/-- A step that the output took, in units of the output. -/
structure Delivery where
  channel : Channel
  time : Int
  units : Int
  deriving DecidableEq

namespace Delivery

/-- The sum of all units. -/
def total : List Delivery → Int
  | [] => 0
  | delivery :: deliveries => delivery.units + total deliveries

/-- The sum of the units of one channel. -/
def totalOf (channel : Channel) : List Delivery → Int
  | [] => 0
  | delivery :: deliveries =>
    (if delivery.channel = channel then delivery.units else 0) + totalOf channel deliveries

theorem totalOf_append (channel : Channel) (deliveries deliveries' : List Delivery) :
    totalOf channel (deliveries ++ deliveries') =
      totalOf channel deliveries + totalOf channel deliveries' := by
  induction deliveries with
  | nil => exact (Int.zero_add _).symm
  | cons delivery deliveries ih =>
    rw [List.cons_append, totalOf, totalOf, ih, Int.add_assoc]

/-- The sum of all units is the sum over the channels. -/
theorem total_eq_sum (deliveries : List Delivery) :
    total deliveries =
      totalOf .pulse1 deliveries + totalOf .pulse2 deliveries + totalOf .triangle deliveries +
        totalOf .noise deliveries + totalOf .dmc deliveries := by
  induction deliveries with
  | nil => rfl
  | cons delivery deliveries ih =>
    rw [total, ih]
    obtain ⟨channel, _, _⟩ := delivery
    cases channel <;> simp [totalOf] <;> omega

end Delivery

/-- The output after deliveries. -/
def StepBuffer.putAll (out : StepBuffer) (deliveries : List Delivery) : StepBuffer :=
  deliveries.foldl (fun out delivery => out.put delivery.time delivery.units) out

theorem StepBuffer.putAll_append (out : StepBuffer) (deliveries deliveries' : List Delivery) :
    out.putAll (deliveries ++ deliveries') = (out.putAll deliveries).putAll deliveries' :=
  List.foldl_append

namespace Board

/-- What the output takes of a step: all of it, unless it refuses the time. -/
def offered (board : Board) (out : StepBuffer) (channel : Channel) (time delta : Int) :
    List Delivery :=
  if out.accepts time then
    [{ channel, time, units := (board.mix.scale channel).apply delta }]
  else []

/-- What the output takes of the steps of a session. -/
def delivered (board : Board) : StepBuffer → List ChannelStep → List Delivery
  | _, [] => []
  | out, { channel, step } :: rest =>
    if board.muted.get channel then board.delivered out rest
    else
      board.offered out channel step.time step.delta ++
        board.delivered (board.deliver out channel step.time step.delta) rest

variable (board : Board)

theorem deliver_eq_putAll (out : StepBuffer) (channel : Channel) (time delta : Int) :
    board.deliver out channel time delta =
      out.putAll (board.offered out channel time delta) := by
  unfold deliver offered
  split <;> rfl

theorem conclude_eq_putAll (out : StepBuffer) (session : Session) :
    (board.conclude out session).2 = out.putAll (board.delivered out session.steps.toList) := by
  unfold conclude
  simp only
  rw [← Array.foldl_toList]
  generalize session.steps.toList = steps
  induction steps generalizing out with
  | nil => rfl
  | cons entry rest ih =>
    rw [List.foldl_cons, delivered]
    split
    · exact ih out
    · rw [StepBuffer.putAll_append, ← deliver_eq_putAll]
      exact ih _

end Board

namespace Console

/-- What the output takes when a channel is switched off or on. -/
def deliveredBySwitch (console : Console) (channel : Channel) (muted : Bool) : List Delivery :=
  let level := console.board.chip.level channel
  let delta := if muted then -level else level
  if delta = 0 then []
  else console.board.offered console.buffer channel console.board.chip.time delta

/-- What the output takes in an operation that is accepted. -/
def delivered (console : Console) : Operation → List Delivery
  | .setMuted position muted =>
    match Channel.ofIndex? position with
    | none => []
    | some channel =>
      if console.board.muted.get channel = muted then []
      else console.deliveredBySwitch channel muted
  | operation =>
    console.board.delivered console.buffer
      (operation.act console.board.session).steps.toList

theorem delivered_setMuted (console : Console) (position : Nat) (muted : Bool) :
    console.delivered (.setMuted position muted) =
      match Channel.ofIndex? position with
      | none => []
      | some channel =>
        if console.board.muted.get channel = muted then []
        else console.deliveredBySwitch channel muted := rfl

end Console

/-- What an operation does to the output after its deliveries. -/
def Operation.settle (blockSize : Nat) (out : StepBuffer) : Operation → StepBuffer
  | .runFrame time count => ((out.endFrame time).read (min count blockSize)).2
  | .read count => (out.read count).2
  | .reset => out.clear
  | _ => out

namespace Console

theorem absorb_buffer (console : Console) (session : Session) :
    (console.absorb session).buffer =
      console.buffer.putAll
        (console.board.delivered console.buffer session.steps.toList) :=
  console.board.conclude_eq_putAll ..

theorem switched_buffer (console : Console) (channel : Channel) (muted : Bool) :
    (console.switched channel muted).buffer =
      console.buffer.putAll (console.deliveredBySwitch channel muted) := by
  unfold switched deliveredBySwitch
  dsimp only
  generalize (if muted then -console.board.chip.level channel
    else console.board.chip.level channel) = delta
  split
  · rfl
  · exact console.board.deliver_eq_putAll ..

/-- An accepted operation puts just its deliveries into the output. -/
theorem perform_buffer {console next : Console} {operation : Operation} {outcome : Outcome}
    (h : console.perform operation = .ok (outcome, next)) :
    next.buffer =
      operation.settle console.configuration.blockSize
        (console.buffer.putAll (console.delivered operation)) := by
  obtain rfl := console.perform_accepting h
  cases operation with
  | write time address value => exact console.absorb_buffer _
  | readStatus time => exact console.absorb_buffer _
  | runFrame time count =>
    have hran := console.absorb_buffer (console.board.session.endFrame time)
    exact congrArg
      (fun out => ((out.endFrame time).read (min count console.configuration.blockSize)).2) hran
  | setMuted position muted =>
    rw [accepting_setMuted, delivered_setMuted]
    cases Channel.ofIndex? position with
    | none => rfl
    | some channel =>
      dsimp only
      split
      · rfl
      · exact console.switched_buffer channel muted
  | _ => rfl

end Console

/-! ### Conservation -/

namespace Scale

variable (scale : Scale)

theorem apply_zero : scale.apply 0 = 0 := Int.zero_mul _

theorem apply_add (delta delta' : Int) :
    scale.apply (delta + delta') = scale.apply delta + scale.apply delta' := Int.add_mul ..

theorem apply_sub (delta delta' : Int) :
    scale.apply (delta - delta') = scale.apply delta - scale.apply delta' := Int.sub_mul ..

end Scale

namespace Board

variable (board : Board)

theorem totalOf_offered {out : StepBuffer} {time : Int} (h : out.accepts time = true)
    (offering channel : Channel) (delta : Int) :
    Delivery.totalOf channel (board.offered out offering time delta) =
      if offering = channel then (board.mix.scale channel).apply delta else 0 := by
  unfold offered
  rw [if_pos h]
  by_cases hchannel : offering = channel
  · subst hchannel
    simp [Delivery.totalOf]
  · simp [Delivery.totalOf, hchannel]

/-- If the output takes all steps, a channel that is not muted delivers their sum. -/
theorem totalOf_delivered {out : StepBuffer} {steps : List ChannelStep}
    (h : board.Admits out steps) (channel : Channel) :
    Delivery.totalOf channel (board.delivered out steps) =
      if board.muted.get channel then 0
      else
        (board.mix.scale channel).apply
          (Step.total ((steps.filter (·.channel = channel)).map (·.step))) := by
  induction steps generalizing out with
  | nil => simp [delivered, Delivery.totalOf, Step.total, Scale.apply]
  | cons entry rest ih =>
    unfold Admits at h
    rw [delivered]
    by_cases hmuted : board.muted.get entry.channel = true
    · rw [if_pos hmuted] at h ⊢
      rw [ih h]
      by_cases hchannel : entry.channel = channel
      · rw [← hchannel, if_pos hmuted, if_pos hmuted]
      · simp [hchannel]
    · rw [if_neg hmuted] at h ⊢
      rw [Delivery.totalOf_append, totalOf_offered _ h.1, ih h.2]
      by_cases hchannel : entry.channel = channel
      · rw [← hchannel, if_pos rfl, if_neg hmuted, if_neg hmuted]
        simp [Step.total, Scale.apply_add]
      · simp [hchannel]

end Board

namespace Console

/-- The level that is heard of a channel: none while it is muted. -/
def heardLevel (console : Console) (channel : Channel) : Int :=
  if console.board.muted.get channel then 0 else console.board.chip.level channel

theorem heardLevel_of_unmuted {console : Console} {channel : Channel}
    (h : console.board.muted.get channel = false) :
    console.heardLevel channel = console.board.chip.level channel := by
  unfold heardLevel
  rw [h]
  rfl

/-- The part of the jump of an operation that is heard of a channel. -/
def heardJump (console : Console) (operation : Operation) (channel : Channel) : Int :=
  if channel = .dmc ∧ console.board.muted.get channel = false then
    operation.jump console.board.session
  else 0

theorem total_session (console : Console) {operation : Operation} (hreset : operation ≠ .reset)
    (channel : Channel) :
    (operation.act console.board.session).total channel =
      (operation.act console.board.session).chip.level channel -
          console.board.chip.level channel -
        if channel = .dmc then operation.jump console.board.session else 0 := by
  have hexcess := operation.excess_act console.board.session hreset channel
  have hstart : console.board.session.excess channel = -console.board.chip.level channel :=
    Int.zero_sub _
  unfold Session.excess at hexcess hstart
  omega

variable {console next : Console}

theorem totalOf_deliveredBySwitch (h : console.buffer.accepts console.board.chip.time = true)
    (switched channel : Channel) {muted : Bool}
    (hmuted : console.board.muted.get switched ≠ muted) :
    Delivery.totalOf channel (console.deliveredBySwitch switched muted) =
      (console.board.mix.scale channel).apply
        ((console.switched switched muted).heardLevel channel - console.heardLevel channel) := by
  have hoffered (delta : Int) :
      Delivery.totalOf channel
          (if delta = 0 then []
          else console.board.offered console.buffer switched console.board.chip.time delta) =
        if switched = channel then (console.board.mix.scale channel).apply delta else 0 := by
    split
    · rename_i hzero
      rw [hzero, Scale.apply_zero, ite_self]
      rfl
    · exact console.board.totalOf_offered h switched channel delta
  unfold deliveredBySwitch
  dsimp only
  rw [hoffered]
  unfold heardLevel Console.switched
  dsimp only
  by_cases hchannel : switched = channel
  · subst hchannel
    rw [if_pos rfl, ByChannel.get_set_same]
    cases muted
    · have hwas : console.board.muted.get switched = true := by simpa using hmuted
      rw [hwas]
      simp
    · have hwas : console.board.muted.get switched = false := by simpa using hmuted
      rw [hwas]
      simp
  · rw [if_neg hchannel, ByChannel.get_set_ne _ _ hchannel, Int.sub_self, Scale.apply_zero]

/-- Only a switch changes which channels are muted, and only a change of volume changes the scales. -/
theorem perform_settings {operation : Operation} {outcome : Outcome}
    (h : console.perform operation = .ok (outcome, next)) :
    ((∀ position muted, operation ≠ .setMuted position muted) →
        next.board.muted = console.board.muted) ∧
      ((∀ volume, operation ≠ .setVolume volume) → next.board.mix = console.board.mix) := by
  obtain rfl := console.perform_accepting h
  cases operation with
  | write time address value => exact ⟨fun _ => absorb_muted .., fun _ => absorb_mix ..⟩
  | readStatus time => exact ⟨fun _ => absorb_muted .., fun _ => absorb_mix ..⟩
  | runFrame time count => exact ⟨fun _ => absorb_muted .., fun _ => absorb_mix ..⟩
  | setMuted position muted =>
    refine ⟨fun hne => absurd rfl (hne position muted), fun _ => ?_⟩
    rw [accepting_setMuted]
    cases Channel.ofIndex? position with
    | none => rfl
    | some channel =>
      dsimp only
      split <;> rfl
  | setVolume volume => exact ⟨fun _ => rfl, fun hne => absurd rfl (hne volume)⟩
  | reset => exact ⟨fun _ => reset_muted _, fun _ => reset_mix _⟩
  | _ => exact ⟨fun _ => rfl, fun _ => rfl⟩

/-- The deliveries of an operation add up to the change of the level that is heard, except for a jump
that is heard. -/
theorem totalOf_delivered (hreach : Reachable console) {operation : Operation}
    {outcome : Outcome} (h : console.perform operation = .ok (outcome, next))
    (hreset : operation ≠ .reset) (channel : Channel) :
    Delivery.totalOf channel (console.delivered operation) =
      (console.board.mix.scale channel).apply
        (next.heardLevel channel - console.heardLevel channel -
          console.heardJump operation channel) := by
  obtain ⟨hadmits, hswitch⟩ := admits_of_perform hreach.consistent hreach.inTime h
  -- All operations but a switch deliver the steps of their session.
  have hsession (hmuted : next.board.muted = console.board.muted)
      (hdelivered : console.delivered operation = console.board.delivered console.buffer
        (operation.act console.board.session).steps.toList) :
      Delivery.totalOf channel (console.delivered operation) =
        (console.board.mix.scale channel).apply
          (next.heardLevel channel - console.heardLevel channel -
            console.heardJump operation channel) := by
    have htotal := console.total_session hreset channel
    rw [hdelivered, Board.totalOf_delivered _ hadmits]
    unfold heardLevel heardJump
    rw [hmuted, (perform_ok h).1]
    cases console.board.muted.get channel
    · simp only [Bool.false_eq_true, if_false, and_true]
      rw [← htotal]
      rfl
    · simp [Scale.apply_zero]
  cases operation with
  | setMuted position muted =>
    have hjump : console.heardJump (.setMuted position muted) channel = 0 := ite_self 0
    rw [console.perform_accepting h, accepting_setMuted, delivered_setMuted, hjump, Int.sub_zero]
    cases Channel.ofIndex? position with
    | none =>
      rw [Int.sub_self, Scale.apply_zero]
      rfl
    | some switched =>
      dsimp only
      split
      · rw [Int.sub_self, Scale.apply_zero]
        rfl
      · rename_i hmuted
        exact totalOf_deliveredBySwitch hswitch switched channel hmuted
  | _ => exact hsession ((perform_settings h).1 fun _ _ hne => by cases hne) rfl

end Console

/-! ### Runs -/

/-- A console with what its output took since the last reset. -/
structure Ledger where
  console : Console
  entries : List Delivery := []

namespace Ledger

/-- Makes an operation.  One that is refused changes nothing. -/
def step (ledger : Ledger) (operation : Operation) : Ledger :=
  match ledger.console.perform operation with
  | .error _ => ledger
  | .ok (_, console) =>
    match operation with
    | .reset => { console }
    | operation => { console, entries := ledger.entries ++ ledger.console.delivered operation }

/-- Makes operations, each of which may be refused. -/
def run (ledger : Ledger) (operations : List Operation) : Ledger := operations.foldl step ledger

variable {ledger : Ledger} {operation : Operation}

theorem step_of_error {fault : Fault} (h : ledger.console.perform operation = .error fault) :
    ledger.step operation = ledger := by
  unfold step
  rw [h]

theorem step_of_ok {outcome : Outcome} {next : Console}
    (h : ledger.console.perform operation = .ok (outcome, next)) (hreset : operation ≠ .reset) :
    ledger.step operation =
      { console := next, entries := ledger.entries ++ ledger.console.delivered operation } := by
  unfold step
  rw [h]
  cases operation with
  | reset => exact absurd rfl hreset
  | _ => rfl

theorem console_step (ledger : Ledger) (operation : Operation) :
    (ledger.step operation).console = (ledger.console.attempt operation).2 := by
  unfold step Console.attempt
  cases ledger.console.perform operation with
  | error fault => rfl
  | ok result => cases operation <;> rfl

theorem reachable_step (h : Console.Reachable ledger.console) (operation : Operation) :
    Console.Reachable (ledger.step operation).console := by
  rw [console_step]
  exact h.attemptAll [operation]

/-- The ledger of a tone channel shows the change of the level that is heard of it. -/
theorem totalOf_run (hreach : Console.Reachable ledger.console) {operations : List Operation}
    (hreset : .reset ∉ operations) (hvolume : ∀ volume, .setVolume volume ∉ operations)
    {channel : Channel} (htone : channel ≠ .dmc) :
    Delivery.totalOf channel (ledger.run operations).entries =
      Delivery.totalOf channel ledger.entries +
        (ledger.console.board.mix.scale channel).apply
          ((ledger.run operations).console.heardLevel channel -
            ledger.console.heardLevel channel) := by
  induction operations generalizing ledger with
  | nil =>
    show _ = _ + Scale.apply _ (ledger.console.heardLevel channel - _)
    rw [Int.sub_self, Scale.apply_zero, Int.add_zero]
    rfl
  | cons operation operations ih =>
    have hlast := ih (reachable_step hreach operation) (fun h => hreset (.tail _ h))
      fun volume h => hvolume volume (.tail _ h)
    have hnotReset : operation ≠ .reset := fun h => hreset (h ▸ .head _)
    have hnotVolume (volume : Float) : operation ≠ .setVolume volume :=
      fun h => hvolume volume (h ▸ .head _)
    show Delivery.totalOf channel ((ledger.step operation).run operations).entries =
      _ + Scale.apply _ (((ledger.step operation).run operations).console.heardLevel channel - _)
    cases hperform : ledger.console.perform operation with
    | error fault => rwa [step_of_error hperform] at hlast ⊢
    | ok result =>
      obtain ⟨outcome, next⟩ := result
      have hdelivered := Console.totalOf_delivered hreach hperform hnotReset channel
      have hmix := (Console.perform_settings hperform).2 hnotVolume
      have hjump : ledger.console.heardJump operation channel = 0 :=
        if_neg fun h => htone h.1
      rw [hlast, step_of_ok hperform hnotReset]
      dsimp only
      rw [Delivery.totalOf_append, hdelivered, hmix, hjump, Int.sub_zero, Scale.apply_sub,
        Scale.apply_sub, Scale.apply_sub]
      omega

end Ledger

namespace Console

/-- From a reset on at which a tone channel was not muted, and as long as the volume stays as it is,
the deliveries of the channel, those of its switches included, add up to the units of its level over
the level at rest, or to the negative of the level at rest while it is muted.  So whenever it is back
at a level its output is back too. -/
theorem tone_level_conserved {console : Console} (hreach : Reachable console) {channel : Channel}
    (htone : channel ≠ .dmc) (hmuted : console.board.muted.get channel = false)
    {operations : List Operation} (hreset : .reset ∉ operations)
    (hvolume : ∀ volume, .setVolume volume ∉ operations) :
    let unit := (console.board.mix.scale channel).unit
    let rest := Chip.restLevel channel
    let ledger := Ledger.run { console := console.reset }
    let last := ledger operations
    console.reset.board.chip.level channel = rest ∧
      Delivery.totalOf channel last.entries =
        (if last.console.board.muted.get channel then -unit * rest
          else unit * (last.console.board.chip.level channel - rest)) ∧
      ∀ n, let early := ledger (operations.take n)
        early.console.board.muted.get channel = false →
        last.console.board.muted.get channel = false →
        early.console.board.chip.level channel = last.console.board.chip.level channel →
        Delivery.totalOf channel early.entries = Delivery.totalOf channel last.entries := by
  intro unit rest ledger last
  have hstart : console.reset.heardLevel channel = rest := by
    rw [heardLevel_of_unmuted (by rwa [reset_muted]), reset_chip, Chip.level_restarted]
  have hunits {operations : List Operation} (hreset : .reset ∉ operations)
      (hvolume : ∀ volume, .setVolume volume ∉ operations) :
      Delivery.totalOf channel (ledger operations).entries =
        if (ledger operations).console.board.muted.get channel then -unit * rest
        else unit * ((ledger operations).console.board.chip.level channel - rest) := by
    have hreach' : Reachable ({ console := console.reset } : Ledger).console := hreach.reset
    rw [Ledger.totalOf_run hreach' hreset hvolume htone, hstart, reset_mix]
    show 0 + ((ledger operations).console.heardLevel channel - rest) * unit = _
    unfold heardLevel
    split
    · rw [Int.zero_add, Int.zero_sub, Int.neg_mul, Int.neg_mul, Int.mul_comm]
    · rw [Int.zero_add, Int.mul_comm]
  refine ⟨?_, hunits hreset hvolume, ?_⟩
  · rw [reset_chip, Chip.level_restarted]
  · intro n early hearly hlast hlevel
    have hsub : ∀ {operation}, operation ∈ operations.take n → operation ∈ operations :=
      List.mem_of_mem_take
    rw [hunits (fun h => hreset (hsub h)) fun volume h => hvolume volume (hsub h),
      hunits hreset hvolume, hearly, hlast, hlevel]

/-- The operations of a note that is muted for a frame while it sounds. -/
def interruptedNote : List Operation :=
  [.write 0 0x4015 1, .write 0 0x4000 0xBF, .write 20 0x4003 1, .runFrame 3000 100,
    .setMuted 0 true, .runFrame 2000 0, .setMuted 0 false, .runFrame 1000 100]

/-- The note ends at level 15, so its deliveries add up to 15 units of 246. -/
theorem tone_level_conserved_of_note :
    ∃ console, Reachable console ∧ console.board.muted.get .pulse1 = false ∧
      (.reset ∉ interruptedNote) ∧ (∀ volume, .setVolume volume ∉ interruptedNote) ∧
      Delivery.totalOf .pulse1
        (Ledger.run { console := console.reset } interruptedNote).entries = 15 * 246 := by
  obtain ⟨console, hcreate, hfacts⟩ := exists_ok
    (Console.create (.unconnected 0) .standard)
    (fun console =>
      let last := Ledger.run { console := console.reset } interruptedNote
      console.board.muted.get .pulse1 = false &&
        (console.board.mix.scale .pulse1).unit = 246 &&
        last.console.board.muted.get .pulse1 = false &&
        last.console.board.chip.level .pulse1 = 15)
    (by decide +kernel)
  simp only [Bool.and_eq_true, decide_eq_true_eq] at hfacts
  obtain ⟨⟨⟨hmuted, hunit⟩, hlast⟩, hlevel⟩ := hfacts
  have hreset : .reset ∉ interruptedNote := by simp [interruptedNote]
  have hvolume (volume : Float) : .setVolume volume ∉ interruptedNote := by
    simp [interruptedNote]
  obtain ⟨_, htotal, _⟩ :=
    tone_level_conserved (.create hcreate) (by decide) hmuted hreset hvolume
  refine ⟨console, .create hcreate, hmuted, hreset, hvolume, ?_⟩
  rw [htotal, hlast, hlevel, hunit]
  rfl

end Console

end Chiptune
