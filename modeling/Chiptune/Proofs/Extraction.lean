import Chiptune.Proofs.Ledger
import Chiptune.Proofs.Reading

/-! When samples are taken out cannot be heard.  A `Master` is a board that plays into a resampler
that nobody reads, and a console `Copies` it: it has the master's board, and its output is what is left
of the master's after the samples that it handed out.  Two consoles that make the same operations apart
from reading copy one master, so each has handed out and still holds the same samples in all.

A read in the middle of a frame drops the steps that wait past its margin.  There are none in the first
three samples of a frame, and of a read after that it has to be asked (`Careful`). -/

namespace Chiptune

namespace Operation

/-- Whether an operation does nothing but take samples. -/
def isRead : Operation → Bool
  | .read _ => true
  | _ => false

/-- The same operation, taking no samples. -/
def unread : Operation → Operation
  | .runFrame time _ => .runFrame time 0
  | operation => operation

/-- What operations do apart from taking samples. -/
def actions (operations : List Operation) : List Operation :=
  (operations.filter (!·.isRead)).map unread

end Operation

/-! ### What an operation puts out -/

namespace Board

/-- The steps that are heard, in units of the output. -/
def voiced (board : Board) (steps : List ChannelStep) : List Delivery :=
  (steps.filter (!board.muted.get ·.channel)).map fun { channel, step } =>
    { channel, time := step.time, units := (board.mix.scale channel).apply step.delta }

/-- What a mute switch puts out: a channel that falls silent takes its level away, and one that is heard
again brings it back. -/
def voicedBySwitch (board : Board) (channel : Channel) (muted : Bool) : List Delivery :=
  let level := board.chip.level channel
  let delta := if muted then -level else level
  if board.muted.get channel = muted ∨ delta = 0 then []
  else [{ channel, time := board.chip.time, units := (board.mix.scale channel).apply delta }]

/-- What an operation puts out, whether or not the output takes it. -/
def puts (board : Board) : Operation → List Delivery
  | .setMuted position muted =>
    match Channel.ofIndex? position with
    | none => []
    | some channel => board.voicedBySwitch channel muted
  | operation => board.voiced (operation.act board.session).steps.toList

theorem delivered_eq_voiced (board : Board) {out : StepBuffer} {steps : List ChannelStep}
    (h : board.Admits out steps) : board.delivered out steps = board.voiced steps := by
  induction steps generalizing out with
  | nil => rfl
  | cons entry rest ih =>
    unfold Admits at h
    unfold delivered
    by_cases hmuted : board.muted.get entry.channel = true
    · rw [if_pos hmuted] at h ⊢
      rw [ih h]
      simp [voiced, hmuted]
    · rw [if_neg hmuted] at h ⊢
      rw [ih h.2]
      simp [voiced, offered, hmuted, h.1]

end Board

namespace Console

theorem delivered_eq_puts {console : Console} {operation : Operation}
    (h : console.Admits operation) : console.delivered operation = console.board.puts operation := by
  obtain ⟨hsteps, hlast⟩ := h
  cases operation with
  | setMuted position muted =>
    rw [delivered_setMuted]
    simp only [Board.puts]
    cases Channel.ofIndex? position with
    | none => rfl
    | some channel =>
      have haccepts : console.buffer.accepts console.board.chip.time = true := hlast
      simp only [deliveredBySwitch, Board.voicedBySwitch, Board.offered, haccepts, if_true]
      split <;> simp_all
  | _ => exact console.board.delivered_eq_voiced hsteps

end Console

namespace Resampler

/-- The resampler after deliveries. -/
def addAll (r : Resampler) (deliveries : List Delivery) : Resampler :=
  deliveries.foldl (fun r delivery => r.add delivery.time.toNat (Int32.ofInt delivery.units)) r

theorem addAll_cons (r : Resampler) (delivery : Delivery) (deliveries : List Delivery) :
    r.addAll (delivery :: deliveries) =
      (r.add delivery.time.toNat (Int32.ofInt delivery.units)).addAll deliveries := by
  unfold addAll
  rw [List.foldl_cons]

theorem Left.addAll {whole r : Resampler} {samples : List Int16} (h : Left whole samples r)
    (deliveries : List Delivery) : Left (whole.addAll deliveries) samples (r.addAll deliveries) := by
  induction deliveries generalizing whole r with
  | nil => exact h
  | cons delivery deliveries ih =>
    rw [addAll_cons, addAll_cons]
    exact ih (h.add _ _)

theorem EmptyPast.addAll {r : Resampler} {time : Nat} (h : r.EmptyPast time)
    {deliveries : List Delivery} (htimes : ∀ delivery ∈ deliveries, delivery.time.toNat ≤ time) :
    (r.addAll deliveries).EmptyPast time := by
  induction deliveries generalizing r with
  | nil => exact h
  | cons delivery deliveries ih =>
    rw [addAll_cons]
    exact ih (h.add (htimes _ (by simp)) _) fun later hlater => htimes later (by simp [hlater])

end Resampler

theorem StepBuffer.resampler_putAll (out : StepBuffer) (deliveries : List Delivery) :
    (out.putAll deliveries).resampler = out.resampler.addAll deliveries := by
  have hput (out : StepBuffer) (time delta : Int) :
      (out.put time delta).resampler = out.resampler.add time.toNat (Int32.ofInt delta) := by
    unfold put
    dsimp only
  unfold putAll
  induction deliveries generalizing out with
  | nil => rfl
  | cons delivery deliveries ih => rw [List.foldl_cons, ih, Resampler.addAll_cons, hput]

/-! ### What becomes of the output -/

namespace Operation

/-- What an operation does to a resampler after its deliveries, apart from reading it. -/
def cut (r : Resampler) : Operation → Resampler
  | .runFrame time _ => r.endFrame time.toNat
  | .reset => r.clear
  | _ => r

/-- The samples for which an operation asks. -/
def asked (blockSize : Nat) : Operation → Nat
  | .runFrame _ count => min count blockSize
  | .read count => count
  | _ => 0

end Operation

/-- A resampler after an operation of the board that plays into it, before it is read. -/
def Board.played (board : Board) (r : Resampler) (operation : Operation) : Resampler :=
  operation.cut (r.addAll (board.puts operation))

namespace Console

/-- An accepted operation adds what the board puts out, and reads last. -/
theorem perform_output {console next : Console} (hchip : console.board.chip.Consistent)
    (hnow : console.board.chip.time ≤ console.buffer.frameCapacity) {operation : Operation}
    {outcome : Outcome} (h : console.perform operation = .ok (outcome, next)) :
    let output := console.board.played console.buffer.resampler operation
    let asked := operation.asked console.configuration.blockSize
    outcome.taken = (output.read asked).1.toList ∧
      next.buffer.resampler = (output.read asked).2 := by
  intro output asked
  have hadmits := admits_of_perform hchip hnow h
  have hbuffer := perform_buffer h
  rw [delivered_eq_puts hadmits] at hbuffer
  have hput := console.buffer.resampler_putAll (console.board.puts operation)
  have hnone : asked = 0 → output.read asked = (#[], output) := fun hzero =>
    Resampler.read_of_zero (by omega)
  cases operation with
  | runFrame time count =>
    rw [perform_runFrame] at h
    obtain ⟨_, _, hnext⟩ := map_eq_ok h
    cases hnext
    have hended : (console.ended time).buffer.resampler = output := by
      have hran := console.absorb_buffer (console.board.session.endFrame time)
      have hputs : console.board.delivered console.buffer
          (console.board.session.endFrame time).steps.toList =
          console.board.puts (.runFrame time count) := delivered_eq_puts hadmits
      have htime := hadmits.2.2
      have hclocks : min time.toNat
          (console.absorb (console.board.session.endFrame time)).buffer.frameCapacity =
            time.toNat := by omega
      show Resampler.endFrame _ (min time.toNat _) = _
      rw [hclocks, hran, hputs, hput]
      rfl
    constructor
    · show ((console.ended time).buffer.resampler.read asked).1.toList = _
      rw [hended]
    · show ((console.ended time).buffer.resampler.read asked).2 = _
      rw [hended]
  | read count =>
    cases h
    exact ⟨rfl, rfl⟩
  | write | readStatus | setMuted =>
    obtain ⟨_, _, hnext⟩ := map_eq_ok h
    cases hnext
    rw [hnone rfl, hbuffer]
    exact ⟨rfl, hput⟩
  | _ =>
    cases h
    rw [hnone rfl]
    exact ⟨rfl, rfl⟩

end Console

/-! ### The times of deliveries -/

namespace Board

theorem time_of_mem_voicedBySwitch {board : Board} {channel : Channel} {muted : Bool}
    {delivery : Delivery} (h : delivery ∈ board.voicedBySwitch channel muted) :
    delivery.time = board.chip.time := by
  unfold voicedBySwitch at h
  dsimp only at h
  generalize (if muted then -board.chip.level channel else board.chip.level channel) = delta at h
  split at h
  · cases h
  · rw [List.mem_singleton.mp h]

variable {board : Board} (h : board.chip.Consistent) {operation : Operation}
  (htime : ∀ time, operation.time? = some time → board.chip.time ≤ time)
include h htime

/-- The steps of an operation lie between the start of the frame and the clock that it reaches. -/
theorem within_reached : (operation.act board.session).Within
    ((operation.act board.session).chip.time + operation.clocks) := by
  have hnone (stop : Int) := board.session_within stop
  cases operation with
  | write time address value =>
    show (board.session.write time address value).Within (_ + 0)
    cases hlocation : Location.ofAddress? address with
    | none =>
      rw [Session.write_of_none hlocation]
      exact hnone _
    | some location =>
      refine (hnone _).write h ?_ address value
      show time ≤ (board.session.write time address value).chip.time + 0
      rw [Session.write_time hlocation]
      omega
  | readStatus time =>
    show (board.session.readStatus time).2.Within ((board.session.readStatus time).2.chip.time + 0)
    rw [Session.readStatus_time]
    exact (hnone _).readStatus h (by omega) (by omega)
  | runFrame time count =>
    refine ((hnone _).runTo h ?_).of_steps rfl
    show time ≤ (board.session.endFrame time).chip.time + time
    rw [Session.endFrame_time (htime time rfl)]
    omega
  | _ => exact (hnone _).of_steps rfl

theorem time_le_of_mem_puts {delivery : Delivery} (hmem : delivery ∈ board.puts operation) :
    delivery.time ≤ (operation.act board.session).chip.time + operation.clocks := by
  -- Only a switch does not put out what a session does.
  have hsession (hvoiced : delivery ∈ board.voiced (operation.act board.session).steps.toList) :
      delivery.time ≤ (operation.act board.session).chip.time + operation.clocks := by
    obtain ⟨entry, hentry, rfl⟩ := List.mem_map.mp hvoiced
    exact ((within_reached h htime).mem (List.mem_filter.mp hentry).1).2
  cases operation with
  | setMuted position muted =>
    simp only [puts] at hmem
    split at hmem
    · cases hmem
    · rw [time_of_mem_voicedBySwitch hmem]
      exact Int.le_of_eq (Int.add_zero _).symm
  | _ => exact hsession hmem

end Board

/-- What an operation puts out lies in the frame before the clock that it reaches. -/
theorem Resampler.EmptyPast.puts {r : Resampler} {board : Board}
    (h : r.EmptyPast board.chip.time.toNat) (hchip : board.chip.Consistent)
    {operation : Operation} (hreset : operation ≠ .reset)
    (htime : ∀ time, operation.time? = some time → board.chip.time ≤ time) :
    (r.addAll (board.puts operation)).EmptyPast
      ((operation.act board.session).chip.time + operation.clocks).toNat := by
  have hle : board.chip.time ≤ (operation.act board.session).chip.time + operation.clocks :=
    operation.time_le_act board.session hreset htime
  refine (h.mono (Int.toNat_le_toNat hle)).addAll fun delivery hmem => ?_
  exact Int.toNat_le_toNat (Board.time_le_of_mem_puts hchip htime hmem)

/-! ### Copies of one board -/

/-- A board that plays into a resampler that nobody reads. -/
structure Master where
  board : Board
  whole : Resampler

namespace Master

/-- The same operation on the board, with all that it puts out. -/
def perform (master : Master) (operation : Operation) : Master where
  board := master.board.after operation
  whole := master.board.played master.whole operation

/-- A run of operations. -/
def performAll (master : Master) (operations : List Operation) : Master :=
  operations.foldl perform master

theorem perform_unread (master : Master) (operation : Operation) :
    master.perform operation.unread = master.perform operation := by
  cases operation <;> rfl

theorem perform_of_isRead (master : Master) {operation : Operation}
    (h : operation.isRead = true) : master.perform operation = master := by
  cases operation with
  | read count =>
    have hboard : master.board.after (.read count) = master.board := master.board.hear_nil
    unfold perform
    rw [hboard]
    rfl
  | _ => cases h

theorem performAll_actions (master : Master) (operations : List Operation) :
    master.performAll (Operation.actions operations) = master.performAll operations := by
  unfold performAll Operation.actions
  induction operations generalizing master with
  | nil => rfl
  | cons operation operations ih =>
    cases hread : operation.isRead with
    | true =>
      rw [List.filter_cons_of_neg (by simp [hread]), List.foldl_cons,
        master.perform_of_isRead hread]
      exact ih master
    | false =>
      rw [List.filter_cons_of_pos (by simp [hread]), List.map_cons, List.foldl_cons,
        List.foldl_cons, perform_unread]
      exact ih _

end Master

section Played

variable {operation : Operation} (hreset : operation ≠ .reset)
include hreset

theorem Resampler.Left.played {whole r : Resampler} {samples : List Int16}
    (h : Left whole samples r) (board : Board) :
    Left (board.played whole operation) samples (board.played r operation) := by
  have hadded := h.addAll (board.puts operation)
  cases operation with
  | runFrame time count => exact hadded.endFrame _
  | reset => exact absurd rfl hreset
  | _ => exact hadded

theorem Resampler.EmptyPast.played {r : Resampler} {board : Board}
    (h : r.EmptyPast board.chip.time.toNat) (hchip : board.chip.Consistent)
    (htime : ∀ time, operation.time? = some time → board.chip.time ≤ time) :
    (board.played r operation).EmptyPast (operation.act board.session).chip.time.toNat := by
  have hputs := h.puts hchip hreset htime
  cases operation with
  | runFrame time count =>
    have hzero : ((Operation.runFrame time count).act board.session).chip.time = 0 :=
      Session.endFrame_time (htime time rfl)
    rw [hzero, Int.zero_add] at hputs
    rw [hzero]
    exact hputs.endFrame
  | reset => exact absurd rfl hreset
  | _ =>
    rw [← Int.add_zero (Chip.time _)]
    exact hputs

end Played

/-- What an operation other than a read asks for at its end loses no step. -/
theorem Resampler.EmptyPast.keeps {r : Resampler} {board : Board}
    (h : r.EmptyPast board.chip.time.toNat) (hchip : board.chip.Consistent)
    {operation : Operation} (hread : operation.isRead = false)
    (htime : ∀ time, operation.time? = some time → board.chip.time ≤ time) (blockSize : Nat) :
    min (operation.asked blockSize) (board.played r operation).available = 0 ∨
      (board.played r operation).WithinMargin := by
  cases operation with
  | read count => cases hread
  | runFrame time count =>
    have hzero : ((Operation.runFrame time count).act board.session).chip.time = 0 :=
      Session.endFrame_time (htime time rfl)
    have hputs := h.puts hchip Operation.noConfusion htime
    rw [hzero, Int.zero_add] at hputs
    exact .inr hputs.withinMargin_endFrame
  | _ => exact .inl (Nat.zero_min _)

namespace Console

section EmptyPast

variable {console next : Console} (hchip : console.board.chip.Consistent)
  (hnow : console.board.chip.time ≤ console.buffer.frameCapacity)
  (h : console.buffer.resampler.EmptyPast console.board.chip.time.toNat)
  {operation : Operation} {outcome : Outcome}
  (hperform : console.perform operation = .ok (outcome, next))
include hchip hnow h hperform

theorem emptyPast_perform :
    next.buffer.resampler.EmptyPast next.board.chip.time.toNat := by
  by_cases hreset : operation = .reset
  · subst hreset
    cases hperform
    exact (Resampler.emptyPast_clear _).mono (Nat.zero_le _)
  · obtain ⟨hact, _, htime⟩ := perform_ok hperform
    rw [(perform_output hchip hnow hperform).2, hact]
    exact (h.played hreset hchip fun time ht => (htime time ht).1).read _

end EmptyPast

/-- No step of a console waits past the clock to which its chip has run. -/
theorem Reachable.emptyPast {console : Console} (h : Reachable console) :
    console.buffer.resampler.EmptyPast console.board.chip.time.toNat := by
  induction h with
  | create hcreate =>
    obtain ⟨buffer, _, rfl⟩ := create_ok hcreate
    exact (Resampler.emptyPast_clear _).mono (Nat.zero_le _)
  | perform hreach hperform ih =>
    exact emptyPast_perform hreach.consistent hreach.inTime ih hperform

/-- A read takes no sample, or no step waits past what it keeps. -/
def Spares (console : Console) : Operation → Prop
  | .read count => min count console.buffer.available = 0 ∨ console.buffer.resampler.WithinMargin
  | _ => True

instance (console : Console) (operation : Operation) : Decidable (console.Spares operation) :=
  match operation with
  | .read _ => inferInstanceAs (Decidable (_ ∨ _))
  | .write .. | .readStatus .. | .runFrame .. | .setMuted .. | .setVolume .. | .listen ..
  | .takeStall | .reset => .isTrue trivial

/-- Every read of a history loses no step. -/
def Careful (console : Console) : List Operation → Prop
  | [] => True
  | operation :: operations =>
    console.Spares operation ∧ (console.attempt operation).2.Careful operations

instance decidableCareful (console : Console) :
    (operations : List Operation) → Decidable (console.Careful operations)
  | [] => .isTrue trivial
  | operation :: operations =>
    have := decidableCareful (console.attempt operation).2 operations
    inferInstanceAs (Decidable (_ ∧ _))

/-- The console has the master's board, and its output is what is left of the master's after
`samples`. -/
structure Copies (master : Master) (samples : List Int16) (console : Console) : Prop where
  board : console.board = master.board
  left : Resampler.Left master.whole samples console.buffer.resampler
  emptyPast : console.buffer.resampler.EmptyPast console.board.chip.time.toNat
  balanced : ∃ factor clocks handed, factor ≤ Resampler.unit ∧
    Account.Balanced factor { console, clocks, handed }

namespace Copies

variable {master : Master} {samples : List Int16} {console : Console}
  (h : Copies master samples console)
include h

theorem perform {next : Console} {operation : Operation} {outcome : Outcome}
    (hreset : operation ≠ .reset) (hspares : console.Spares operation)
    (hperform : console.perform operation = .ok (outcome, next)) :
    Copies (master.perform operation) (samples ++ outcome.taken) next := by
  obtain ⟨factor, clocks, handed, hunit, hbalanced⟩ := h.balanced
  have hchip : console.board.chip.Consistent := hbalanced.chip
  have hnow : console.board.chip.time ≤ console.buffer.frameCapacity := hbalanced.inTime
  obtain ⟨clocks', handed', hnext⟩ := hbalanced.perform hunit hperform
  obtain ⟨htaken, hbuffer⟩ := perform_output hchip hnow hperform
  have hleft := h.left.played hreset console.board
  have hkeep : min (operation.asked console.configuration.blockSize)
        (console.board.played console.buffer.resampler operation).available = 0 ∨
      (console.board.played console.buffer.resampler operation).WithinMargin := by
    cases hread : operation.isRead with
    | false =>
      refine h.emptyPast.keeps hchip hread (fun time ht => ?_) _
      exact ((perform_ok hperform).2.2 time ht).1
    | true =>
      cases operation with
      | read count => exact hspares
      | _ => cases hread
  constructor
  · rw [perform_board hperform, h.board]
    rfl
  · rw [htaken, hbuffer]
    show Resampler.Left (master.board.played master.whole operation) _ _
    rw [← h.board]
    exact hleft.read hkeep
  · exact emptyPast_perform hchip hnow h.emptyPast hperform
  · exact ⟨factor, clocks', handed', hunit, hnext⟩

theorem performAll {last : Console} {operations : List Operation} {outcomes : List Outcome}
    (hreset : .reset ∉ operations) (hcareful : console.Careful operations)
    (hrun : console.performAll operations = .ok (outcomes, last)) :
    Copies (master.performAll operations) (samples ++ outcomes.flatMap Outcome.taken) last := by
  induction operations generalizing master samples console outcomes with
  | nil =>
    cases hrun
    rw [List.flatMap_nil, List.append_nil]
    exact h
  | cons operation operations ih =>
    obtain ⟨outcome, rest, next, hperform, hrest, rfl⟩ := performAll_cons hrun
    obtain ⟨hspares, hlater⟩ := hcareful
    rw [attempt_of_ok hperform] at hlater
    have hnext := h.perform (fun heq => hreset (heq ▸ .head _)) hspares hperform
    rw [List.flatMap_cons, ← List.append_assoc]
    exact ih hnext (fun hmem => hreset (.tail _ hmem)) hlater hrest

end Copies

/-- The samples that wait to be read. -/
def waiting (console : Console) : List Int16 :=
  (console.buffer.read console.buffer.available).1.toList

/-- The console with blocks of another size. -/
def inBlocks (console : Console) (blockSize : Nat) : Console :=
  { console with configuration := { console.configuration with blockSize } }

theorem Reachable.copies {console : Console} (h : Reachable console) (blockSize : Nat) :
    Copies { board := console.board, whole := console.buffer.resampler } []
      (console.inBlocks blockSize) := by
  obtain ⟨factor, clocks, handed, hunit, hbalanced⟩ := h.balanced
  refine ⟨rfl, .refl _, h.emptyPast, factor, clocks, handed, hunit, ?_⟩
  exact ⟨hbalanced.chip, hbalanced.inTime, hbalanced.clocks_nonneg, hbalanced.factor_eq,
    hbalanced.offset_lt, hbalanced.position⟩

/-- A console hands out and keeps what the board puts out, and nothing else depends on its reads. -/
theorem stream_eq {console last : Console} (h : Reachable console) {blockSize : Nat}
    {operations : List Operation} {outcomes : List Outcome} (hreset : .reset ∉ operations)
    (hcareful : (console.inBlocks blockSize).Careful operations)
    (hrun : (console.inBlocks blockSize).performAll operations = .ok (outcomes, last)) :
    let whole := (Master.performAll
      { board := console.board, whole := console.buffer.resampler }
      (Operation.actions operations)).whole
    outcomes.flatMap Outcome.taken ++ last.waiting =
      Resampler.render whole.cell whole.sum whole.available := by
  intro whole
  have hlast := (h.copies blockSize).performAll hreset hcareful hrun
  rw [← Master.performAll_actions] at hlast
  exact hlast.left.append_waiting

/-- Every read hands out what it is asked for, as far as it waits.  Two histories that differ only in
their reads make one stream of samples, as long as no read in the middle of a frame comes later than
three samples into it with a step waiting past what the read keeps.  Samples are removed a chunk at a
time as one read would. -/
theorem reads_keep_stream {console : Console} (h : Reachable console) :
    (∀ count,
      (console.read count).1.size = min count console.buffer.available ∧
        (console.read count).2.buffer.available =
          console.buffer.available - (console.read count).1.size) ∧
    (∀ time count samples next, console.runFrame time count = .ok (samples, next) →
      samples.size =
          min (min count console.configuration.blockSize) (console.ended time).buffer.available ∧
        next.buffer.available = (console.ended time).buffer.available - samples.size) ∧
    (∀ (buffer : StepBuffer) (count : Nat),
      buffer.drop count = (buffer.read (min count buffer.available)).2 ∧
        StepBuffer.Removes (min count buffer.available) buffer (buffer.drop count)) ∧
    (console.board.chip.time = 0 ∨
        console.buffer.resampler.position console.board.chip.time.toNat < 3 * Resampler.unit →
      ∀ count, console.Spares (.read count)) ∧
    ∀ (blockSize blockSize' : Nat) (operations operations' : List Operation)
      (outcomes outcomes' : List Outcome) (last last' : Console),
      Operation.actions operations = Operation.actions operations' →
      .reset ∉ operations → .reset ∉ operations' →
      (console.inBlocks blockSize).Careful operations →
      (console.inBlocks blockSize').Careful operations' →
      (console.inBlocks blockSize).performAll operations = .ok (outcomes, last) →
      (console.inBlocks blockSize').performAll operations' = .ok (outcomes', last') →
      outcomes.flatMap Outcome.taken ++ last.waiting =
        outcomes'.flatMap Outcome.taken ++ last'.waiting := by
  have hread (console : Console) (count : Nat) :
      (console.read count).1.size = min count console.buffer.available ∧
        (console.read count).2.buffer.available =
          console.buffer.available - (console.read count).1.size := by
    have hsize : (console.read count).1.size = min count console.buffer.available :=
      console.buffer.size_read count
    exact ⟨hsize, hsize ▸ console.buffer.available_read count⟩
  refine ⟨hread console, ?_, ?_, ?_, ?_⟩
  · intro time count samples next hrun
    obtain ⟨_, hnext⟩ := runFrame_ok hrun
    cases hnext
    exact hread (console.ended time) _
  · intro buffer count
    exact ⟨buffer.drop_eq_read count, buffer.removes_drop count⟩
  · intro hearly count
    refine .inr (h.emptyPast.withinMargin ?_)
    rcases hearly with hstart | hearly
    · obtain ⟨_, _, _, _, hbalanced⟩ := h.balanced
      have hoffset : console.buffer.resampler.offset < Resampler.unit := hbalanced.offset_lt
      unfold Resampler.position
      rw [hstart, Int.toNat_zero, Nat.zero_mul]
      omega
    · exact hearly
  · intro blockSize blockSize' operations operations' outcomes outcomes' last last' hactions hreset
      hreset' hcareful hcareful' hrun hrun'
    rw [stream_eq h hreset hcareful hrun, stream_eq h hreset' hcareful' hrun', hactions]

/-- A step in each of two frames, with samples taken at the end of both and early in the second. -/
def takenEarly : List Operation :=
  [.runFrame 1000 5, .read 3, .write 50 0x4011 100, .read 4, .write 500 0x4011 30,
    .runFrame 2000 100]

/-- The same steps, with samples taken at the end only. -/
def takenLate : List Operation :=
  [.runFrame 1000 0, .write 50 0x4011 100, .write 500 0x4011 30, .runFrame 2000 7, .read 30]

theorem reads_keep_stream_of_two_frames :
    ∃ console outcomes outcomes' last last',
      Console.create (.unconnected 0) .standard = .ok console ∧
      (console.inBlocks 4).performAll takenEarly = .ok (outcomes, last) ∧
      (console.inBlocks 800).performAll takenLate = .ok (outcomes', last') ∧
      outcomes.flatMap Outcome.taken ≠ outcomes'.flatMap Outcome.taken ∧
      outcomes.flatMap Outcome.taken ++ last.waiting =
        outcomes'.flatMap Outcome.taken ++ last'.waiting := by
  obtain ⟨console, hcreate, hfacts⟩ := exists_ok
    (Console.create (.unconnected 0) .standard)
    (fun console => (console.inBlocks 4).Careful takenEarly &&
      (console.inBlocks 800).Careful takenLate &&
      ((console.inBlocks 4).performAll takenEarly).toOption.any fun early =>
        ((console.inBlocks 800).performAll takenLate).toOption.any fun late =>
          early.1.flatMap Outcome.taken ≠ late.1.flatMap Outcome.taken)
    (by decide +kernel)
  obtain ⟨hcareful, hruns⟩ := Bool.and_eq_true_iff.mp hfacts
  obtain ⟨hearly, hlate⟩ := Bool.and_eq_true_iff.mp hcareful
  obtain ⟨⟨outcomes, last⟩, hrun, hruns⟩ := exists_ok _ _ hruns
  obtain ⟨⟨outcomes', last'⟩, hrun', hne⟩ := exists_ok _ _ hruns
  refine ⟨console, outcomes, outcomes', last, last', hcreate, hrun, hrun',
    of_decide_eq_true hne, ?_⟩
  exact (reads_keep_stream (.create hcreate)).2.2.2.2 4 800 takenEarly takenLate outcomes outcomes'
    last last' rfl (by simp [takenEarly]) (by simp [takenLate]) (of_decide_eq_true hearly)
    (of_decide_eq_true hlate) hrun hrun'

/-- A level that goes up and down late in a frame of few samples, with `reads` after it. -/
def lateSteps (reads : List Operation) : List Operation :=
  [.runFrame 1000 0, .write 20000 0x4011 127, .write 25000 0x4011 0] ++ reads ++
    [.runFrame 28000 100]

/-- A read late in a frame drops the steps that wait past what it keeps, and the stream is another. -/
theorem stream_changed_by_late_read :
    ∃ console outcomes outcomes' last last',
      Console.create (.unconnected 0) (.preset .ntsc 4000) = .ok console ∧
      Operation.actions (lateSteps [.read 1]) = Operation.actions (lateSteps []) ∧
      console.performAll (lateSteps [.read 1]) = .ok (outcomes, last) ∧
      console.performAll (lateSteps []) = .ok (outcomes', last') ∧
      outcomes.flatMap Outcome.taken ++ last.waiting ≠
        outcomes'.flatMap Outcome.taken ++ last'.waiting := by
  obtain ⟨console, hcreate, hruns⟩ := exists_ok
    (Console.create (.unconnected 0) (.preset .ntsc 4000))
    (fun console =>
      (console.performAll (lateSteps [.read 1])).toOption.any fun ran =>
        (console.performAll (lateSteps [])).toOption.any fun ran' =>
          ran.1.flatMap Outcome.taken ++ ran.2.waiting ≠
            ran'.1.flatMap Outcome.taken ++ ran'.2.waiting)
    (by decide +kernel)
  obtain ⟨⟨outcomes, last⟩, hrun, hruns⟩ := exists_ok _ _ hruns
  obtain ⟨⟨outcomes', last'⟩, hrun', hne⟩ := exists_ok _ _ hruns
  exact ⟨console, outcomes, outcomes', last, last', hcreate, rfl, hrun, hrun',
    of_decide_eq_true hne⟩

end Console

end Chiptune
