import Chiptune.Proofs.SampleReader

/-! The walk of the sample channel through memory.  Beside any history of a console a `Reader` makes
the calls of that console's bus.  `Reads` says how the two hang together; every event of the channel
and everything that a host does keeps it. -/

namespace Chiptune

/-! ### The reader beside the channel -/

/-- The reader shows what the channel and its bus have done since the bus had made the calls `old`. -/
structure Reads (old : List UInt16) (reader : Reader) (dmc : Dmc) (bus : Bus) : Prop where
  fetched : bus.fetched.toList = old ++ reader.calls
  control : dmc.voice.registers.first = reader.control
  base : dmc.voice.registers.third = reader.base
  extent : dmc.voice.registers.fourth = reader.extent
  irqEnabled : dmc.irqEnabled = (Voice.bit reader.control 7 && !Voice.bit reader.control 6)
  enabled : dmc.enabled = reader.playing.isSome
  idle : reader.playing = none → dmc.voice.length = 0
  playing : ∀ pass, reader.playing = some pass → pass.At dmc.voice.length dmc.address
  full : dmc.buffer.isSome = reader.full
  irq : dmc.irqFlag = reader.irq
  stall : dmc.stall = UInt32.ofNat (4 * reader.unpaid)
  past : ∀ pass ∈ reader.past, pass.made ≤ pass.size ∧ (pass.cut = false → pass.made = pass.size)

/-- What of the channel the reader shows. -/
structure Dmc.Seen where
  control : UInt8
  base : UInt8
  extent : UInt8
  length : Nat
  address : BitVec 15
  buffer : Option UInt8
  enabled : Bool
  irqEnabled : Bool
  irqFlag : Bool
  stall : UInt32

/-- What the reader shows of a channel. -/
def Dmc.seen (dmc : Dmc) : Dmc.Seen :=
  ⟨dmc.voice.registers.first, dmc.voice.registers.third, dmc.voice.registers.fourth,
    dmc.voice.length, dmc.address, dmc.buffer, dmc.enabled, dmc.irqEnabled, dmc.irqFlag, dmc.stall⟩

namespace Reads

variable {old : List UInt16} {reader : Reader} {dmc : Dmc} {bus : Bus}

theorem of_seen (h : Reads old reader dmc bus) {dmc' : Dmc} (hseen : dmc'.seen = dmc.seen) :
    Reads old reader dmc' bus where
  fetched := h.fetched
  control := (congrArg (·.control) hseen).trans h.control
  base := (congrArg (·.base) hseen).trans h.base
  extent := (congrArg (·.extent) hseen).trans h.extent
  irqEnabled := (congrArg (·.irqEnabled) hseen).trans h.irqEnabled
  enabled := (congrArg (·.enabled) hseen).trans h.enabled
  idle hnone := (congrArg (·.length) hseen).trans (h.idle hnone)
  playing pass hpass := by
    have hlength : dmc'.voice.length = dmc.voice.length := congrArg (·.length) hseen
    have haddress : dmc'.address = dmc.address := congrArg (·.address) hseen
    rw [hlength, haddress]
    exact h.playing pass hpass
  full := (congrArg (·.buffer.isSome) hseen).trans h.full
  irq := (congrArg (·.irqFlag) hseen).trans h.irq
  stall := (congrArg (·.stall) hseen).trans h.stall
  past := h.past

theorem at_rewind (dmc : Dmc) :
    Pass.At { base := dmc.voice.registers.third, extent := dmc.voice.registers.fourth }
      dmc.rewind.voice.length dmc.rewind.address := by
  have hbase : dmc.voice.registers.third.toNat < 256 := dmc.voice.registers.third.toNat_lt
  refine ⟨?_, Nat.succ_ne_zero _, ?_⟩
  · show 0 + (dmc.voice.registers.fourth.toNat * 0x10 + 1) =
      0x10 * dmc.voice.registers.fourth.toNat + 1
    omega
  · show ((0x4000 : BitVec 15) + BitVec.ofNat 15 (dmc.voice.registers.third.toNat * 0x40)).toNat =
      (0x4000 + 0x40 * dmc.voice.registers.third.toNat + 0) % 0x8000
    rw [BitVec.toNat_add, BitVec.toNat_ofNat, show (0x4000 : BitVec 15).toNat = 0x4000 from rfl]
    omega

theorem start (h : Reads old reader dmc bus) (hidle : reader.playing = none) :
    Reads old reader.start { dmc with enabled := true }.rewind bus where
  fetched := by rw [Reader.calls_start hidle, h.fetched]
  control := h.control
  base := h.base
  extent := h.extent
  irqEnabled := h.irqEnabled
  enabled := rfl
  idle hnone := by cases hnone
  playing pass hpass := by
    cases hpass
    rw [← h.base, ← h.extent]
    exact at_rewind dmc
  full := h.full
  irq := h.irq
  stall := h.stall
  past := h.past

section Call

variable (h : Reads old reader dmc bus) {pass : Pass} (hpass : reader.playing = some pass)
include h hpass

theorem fetched_call :
    (bus.read dmc.fetchAddress).2.fetched.toList =
      old ++ (reader.calls ++ [pass.address pass.made]) := by
  have hat := h.playing pass hpass
  show (bus.fetched.push dmc.fetchAddress).toList = _
  rw [Array.toList_push, h.fetched, hat.fetchAddress, List.append_assoc]

omit hpass in
theorem stall_taken (byte : UInt8) :
    (dmc.taken byte).stall = UInt32.ofNat (4 * (reader.unpaid + 1)) := by
  show dmc.stall + 4 = _
  rw [h.stall, Nat.mul_add, UInt32.ofNat_add]
  rfl

theorem taken (hmore : pass.made + 1 < pass.size) (byte : UInt8) :
    Reads old (reader.call pass) (dmc.taken byte) (bus.read dmc.fetchAddress).2 := by
  have hat := h.playing pass hpass
  have hleft := hat.left
  have hcalls := Reader.calls_call hpass
  have henabled := h.enabled
  rw [hpass] at henabled
  rw [Reader.call_of_more hmore] at hcalls ⊢
  refine ⟨?_, h.control, h.base, h.extent, h.irqEnabled, henabled, ?_, ?_, rfl, h.irq,
    h.stall_taken byte, h.past⟩
  · rw [hcalls]
    exact h.fetched_call hpass
  · intro hnone
    cases hnone
  · intro next hnext
    cases hnext
    refine ⟨?_, ?_, ?_⟩
    · show pass.made + 1 + (dmc.voice.length - 1) = pass.size
      omega
    · show dmc.voice.length - 1 ≠ 0
      omega
    · have haddress := hat.address
      show (dmc.address + 1).toNat = (0x4000 + 0x40 * pass.base.toNat + (pass.made + 1)) % 0x8000
      rw [BitVec.toNat_add, haddress, show (1 : BitVec 15).toNat = 1 from rfl]
      omega

theorem done (hlast : dmc.voice.length = 1) (byte : UInt8) :
    Reads old (reader.done pass) { dmc.taken byte with enabled := false }
      (bus.read dmc.fetchAddress).2 := by
  have hleft := (h.playing pass hpass).left
  refine ⟨?_, h.control, h.base, h.extent, h.irqEnabled, rfl, ?_, ?_, rfl, h.irq,
    h.stall_taken byte, ?_⟩
  · rw [Reader.calls_done hpass]
    exact h.fetched_call hpass
  · intro _
    show dmc.voice.length - 1 = 0
    omega
  · intro next hnext
    cases hnext
  · intro last hmem
    rcases List.mem_append.mp hmem with hmem | hmem
    · exact h.past last hmem
    · cases List.mem_singleton.mp hmem
      have hmade : pass.made + 1 = pass.size := by omega
      exact ⟨Nat.le_of_eq hmade, fun _ => hmade⟩

/-- A fetch of the channel is a call of the reader. -/
theorem call (byte : UInt8) :
    Reads old (reader.call pass) (dmc.taken byte).concluded (bus.read dmc.fetchAddress).2 := by
  have hleft := (h.playing pass hpass).left
  have hnone := (h.playing pass hpass).more
  have hlength : (dmc.taken byte).voice.length = dmc.voice.length - 1 := rfl
  have hloops : (dmc.taken byte).loops = Voice.bit reader.control 6 := by
    rw [← h.control]
    rfl
  by_cases hmore : pass.made + 1 < pass.size
  · have hconcluded : (dmc.taken byte).concluded = dmc.taken byte := if_pos (by omega)
    rw [hconcluded]
    exact h.taken hpass hmore byte
  · -- Both ends of a sample go through `done`; a sample that starts again is enabled anew.
    have hdone := h.done hpass (by omega) byte
    rw [Reader.call_of_last hmore]
    rcases Dmc.concluded_cases (dmc.taken byte) with ⟨hleft, _⟩ | ⟨_, hagain, heq⟩ | ⟨_, hends, heq⟩
    · omega
    · have henabled : (dmc.taken byte).enabled = true := by
        refine h.enabled.trans ?_
        rw [hpass]
        rfl
      have hsame : ({ dmc.taken byte with enabled := true } : Dmc) = dmc.taken byte := by
        rw [← henabled]
      have hstart := hdone.start rfl
      rw [if_pos (hloops.symm.trans hagain), heq, ← hsame]
      exact hstart
    · have hbit : Voice.bit reader.control 6 = false := hloops.symm.trans hends
      have hirq : (dmc.taken byte).irqEnabled = Voice.bit reader.control 7 := by
        refine h.irqEnabled.trans ?_
        rw [hbit, Bool.not_false, Bool.and_true]
      rw [if_neg (by simp [hbit]), heq]
      exact ⟨hdone.fetched, hdone.control, hdone.base, hdone.extent, hdone.irqEnabled,
        hdone.enabled, hdone.idle, hdone.playing, hdone.full, hirq, hdone.stall, hdone.past⟩

end Call

theorem fill (h : Reads old reader dmc bus) :
    Reads old reader.refill (dmc.fill bus).1 (dmc.fill bus).2 := by
  rw [Dmc.fill_eq]
  unfold Reader.refill
  cases hplaying : reader.playing with
  | none =>
    rw [if_pos (.inr (h.idle hplaying))]
    exact h
  | some pass =>
    have hmore := (h.playing pass hplaying).more
    cases hfull : reader.full with
    | true =>
      rw [if_pos (.inl (h.full.trans hfull))]
      exact h
    | false =>
      have hempty : ¬(dmc.buffer.isSome = true ∨ dmc.voice.length = 0) := by
        rw [h.full, hfull]
        simpa using hmore
      rw [if_neg hempty]
      exact h.call hplaying _

/-! ### Events and runs -/

theorem event (h : Reads old reader dmc bus) :
    Reads old (if dmc.bitsLeft = 0 then reader.byteEnd else reader) (dmc.tick bus).1
      (dmc.tick bus).2 := by
  obtain ⟨dac, shifter, hplay⟩ := dmc.exists_playBit
  unfold Dmc.tick
  rw [hplay]
  have hplayed : Reads old reader { dmc with dac, shifter, bitsLeft := dmc.bitsLeft - 1 } bus :=
    h.of_seen rfl
  split
  · unfold Reader.byteEnd
    rcases Option.eq_none_or_eq_some dmc.buffer with hbyte | ⟨byte, hbyte⟩
    · have hfull : reader.full = false := by
        rw [← h.full, hbyte]
        rfl
      rw [Dmc.nextByte_of_none (by exact hbyte), hfull]
      exact hplayed.of_seen rfl
    · have hfull : reader.full = true := by
        rw [← h.full, hbyte]
        rfl
      rw [Dmc.nextByte_of_some (by exact hbyte), if_pos hfull]
      refine fill ?_
      exact ⟨h.fetched, h.control, h.base, h.extent, h.irqEnabled, h.enabled, h.idle, h.playing,
        rfl, h.irq, h.stall, h.past⟩
  · exact hplayed

/-- A run tells the reader of the bytes that end in it. -/
theorem after (h : Reads old reader dmc bus) (now stop : Int) :
    Reads old (Timer.skip Reader.byteEnd (dmc.byteEnds (now + dmc.voice.delay) stop) reader)
      (dmc.after now stop bus).1 (dmc.after now stop bus).2 := by
  -- At every event the reader that has heard of the bytes so far still has the rest to hear of.
  have hrun := dmc.after_invariant now stop bus
    (P := fun due s => ∃ reader', Reads old reader' s.1 s.2 ∧
      Timer.skip Reader.byteEnd (s.1.byteEnds due stop) reader' =
        Timer.skip Reader.byteEnd (dmc.byteEnds (now + dmc.voice.delay) stop) reader) ?_ ?_
    ⟨reader, h, rfl⟩
  · obtain ⟨last, hlast, hskip⟩ := hrun
    have hdelay := dmc.delay_after_nonneg now stop bus
    have hnone : (dmc.after now stop bus).1.byteEnds
        (stop + (dmc.after now stop bus).1.voice.delay) stop = 0 := Dmc.byteEnds_of_le (by omega)
    rw [hnone] at hskip
    rw [← hskip]
    exact hlast
  · rintro due ⟨dmc', bus'⟩ hdue ⟨reader', hreads, hskip⟩
    refine ⟨_, hreads.event, ?_⟩
    rw [← hskip, Dmc.byteEnds_event hdue]
    split
    · rfl
    · rfl
  · rintro due s delay level ⟨reader', hreads, hskip⟩
    exact ⟨reader', hreads.of_seen rfl, hskip⟩

/-! ### What the host does -/

theorem runTo {session : Session} (h : Reads old reader session.chip.dmc session.bus)
    (hdelay : 0 ≤ session.chip.dmc.voice.delay) (stop : Int) :
    Reads old
      (Timer.skip Reader.byteEnd
        (session.chip.dmc.byteEnds (session.chip.time + session.chip.dmc.voice.delay) stop) reader)
      (session.runTo stop).chip.dmc (session.runTo stop).bus := by
  by_cases hstop : stop ≤ session.chip.time
  · rw [Dmc.byteEnds_of_le (by omega), Session.runTo_of_le hstop]
    exact h
  · have hlt := Int.not_le.mp hstop
    rw [Session.runTo_chip hlt, Session.runTo_bus hlt]
    exact h.after session.chip.time stop

theorem clearIrq (h : Reads old reader dmc bus) :
    Reads old { reader with irq := false } dmc.clearIrq bus :=
  ⟨h.fetched, h.control, h.base, h.extent, h.irqEnabled, h.enabled, h.idle, h.playing, h.full, rfl,
    h.stall, h.past⟩

theorem halt (h : Reads old reader dmc bus) (now : Int) :
    Reads old reader.halt (dmc.setEnabled false bus now).1 (dmc.setEnabled false bus now).2 := by
  refine ⟨?_, h.control, h.base, h.extent, h.irqEnabled, rfl, fun _ => rfl, ?_, h.full, h.irq,
    h.stall, ?_⟩
  · rw [reader.calls_halt]
    exact h.fetched
  · intro pass hpass
    cases hpass
  · intro last hmem
    rcases List.mem_append.mp hmem with hmem | hmem
    · exact h.past last hmem
    · cases hplaying : reader.playing with
      | none => simp [hplaying] at hmem
      | some pass =>
        have hleft := (h.playing pass hplaying).left
        obtain rfl : last = { pass with cut := true } := by simpa [hplaying] using hmem
        exact ⟨Nat.le_of_add_right_le (Nat.le_of_eq hleft), fun huncut => Bool.noConfusion huncut⟩

/-- A write of the status register switches the reader. -/
theorem enable (h : Reads old reader dmc bus) (on : Bool) (now : Int) :
    Reads old (reader.enable on) (dmc.clearIrq.setEnabled on bus now).1
      (dmc.clearIrq.setEnabled on bus now).2 := by
  have hquiet := h.clearIrq
  unfold Reader.enable
  cases on with
  | false => exact hquiet.halt now
  | true =>
    rw [if_neg (by decide)]
    cases hplaying : reader.playing with
    | none =>
      have hidle : dmc.clearIrq.enabled = false := by
        rw [hquiet.enabled]
        exact congrArg Option.isSome hplaying
      rw [Dmc.setEnabled_of_idle hidle, if_neg (by decide)]
      exact (fill (hquiet.start hplaying)).of_seen rfl
    | some pass =>
      have henabled : dmc.clearIrq.enabled = true := by
        rw [hquiet.enabled]
        exact congrArg Option.isSome hplaying
      rw [Dmc.setEnabled_of_enabled henabled, if_pos (by rfl), ← hplaying]
      exact hquiet

theorem write (h : Reads old reader dmc bus) {address : UInt16} {slot : Slot}
    (hlocation : Location.ofAddress? address = some (.voice .dmc slot)) (value : UInt8)
    (now : Int) : Reads old (reader.write address value) (dmc.write slot value now) bus := by
  have haddress := Location.toNat_of_ofAddress?_dmc hlocation
  cases slot with
  | first =>
    obtain rfl : address = 0x4010 := UInt16.toNat_inj.mp haddress
    have hirq : (dmc.configured value).irqFlag = (reader.write 0x4010 value).irq :=
      congrArg (· && (Voice.bit value 7 && !Voice.bit value 6)) h.irq
    have hconfigured : Reads old (reader.write 0x4010 value) (dmc.configured value) bus :=
      ⟨h.fetched, rfl, h.base, h.extent, rfl, h.enabled, h.idle, h.playing, h.full, hirq, h.stall,
        h.past⟩
    exact hconfigured.of_seen rfl
  | second =>
    obtain rfl : address = 0x4011 := UInt16.toNat_inj.mp haddress
    exact h.of_seen rfl
  | third =>
    obtain rfl : address = 0x4012 := UInt16.toNat_inj.mp haddress
    exact ⟨h.fetched, h.control, rfl, h.extent, h.irqEnabled, h.enabled, h.idle, h.playing, h.full,
      h.irq, h.stall, h.past⟩
  | fourth =>
    obtain rfl : address = 0x4013 := UInt16.toNat_inj.mp haddress
    exact ⟨h.fetched, h.control, h.base, rfl, h.irqEnabled, h.enabled, h.idle, h.playing, h.full,
      h.irq, h.stall, h.past⟩

theorem applyWrite {session : Session} (h : Reads old reader session.chip.dmc session.bus)
    {address : UInt16} {location : Location} (hlocation : Location.ofAddress? address = some location)
    (time : Int) (value : UInt8) :
    Reads old (reader.write address value) (session.applyWrite time location value).chip.dmc
      (session.applyWrite time location value).bus := by
  have hunseen (hother : location ≠ .status) (hvoice : ∀ slot, location ≠ .voice .dmc slot) :
      reader.write address value = reader := by
    refine Reader.write_of_unseen ?_ ?_ value
    · rw [hlocation]
      exact fun hsome => hother (Option.some.inj hsome)
    · intro slot
      rw [hlocation]
      exact fun hsome => hvoice slot (Option.some.inj hsome)
  cases location with
  | voice channel slot =>
    cases channel with
    | dmc => exact h.write hlocation value session.chip.time
    | _ =>
      rw [hunseen (by simp) (by simp)]
      exact h
  | status =>
    obtain rfl := Location.eq_of_ofAddress?_status hlocation
    exact h.enable _ session.chip.time
  | mode | idle =>
    rw [hunseen (by simp) (by simp)]
    exact h

theorem of_restarted {past : List Pass} (hfetched : bus.fetched.toList = old ++ past.flatMap Pass.calls)
    (hpast : ∀ pass ∈ past, pass.made ≤ pass.size ∧ (pass.cut = false → pass.made = pass.size))
    (wiring : Wiring) : Reads old { past } (Chip.restarted wiring).dmc bus := by
  have hirq : false = (Voice.bit 0x10 7 && !Voice.bit 0x10 6) := by decide
  refine ⟨?_, rfl, rfl, rfl, hirq, rfl, fun _ => rfl, ?_, rfl, rfl, rfl, hpast⟩
  · unfold Reader.calls
    rw [Option.toList_none, List.append_nil]
    exact hfetched
  · intro pass hpass
    cases hpass

theorem reset (h : Reads old reader dmc bus) (wiring : Wiring) :
    Reads old { past := reader.halt.past } (Chip.restarted wiring).dmc bus := by
  have hhalt := h.halt 0
  have hcalls : reader.halt.calls = reader.halt.past.flatMap Pass.calls :=
    congrArg (List.flatMap Pass.calls) (List.append_nil _)
  exact of_restarted (hcalls ▸ hhalt.fetched) hhalt.past wiring

/-- The reader does what an operation does to a chip that has run to its clock. -/
theorem touch {session : Session} (h : Reads old reader session.chip.dmc session.bus)
    (operation : Operation) :
    Reads old (reader.act operation) (operation.touch session).chip.dmc
      (operation.touch session).bus := by
  cases operation with
  | write time address value =>
    cases hlocation : Location.ofAddress? address with
    | none =>
      have hunseen : reader.write address value = reader :=
        Reader.write_of_unseen (by simp [hlocation]) (by simp [hlocation]) value
      rw [Operation.touch_of_none time value hlocation]
      show Reads old (reader.write address value) session.chip.dmc session.bus
      rwa [hunseen]
    | some location =>
      rw [Operation.touch_of_some time value hlocation]
      exact h.applyWrite hlocation time value
  | runFrame time count => exact h.of_seen rfl
  | takeStall =>
    exact ⟨h.fetched, h.control, h.base, h.extent, h.irqEnabled, h.enabled, h.idle, h.playing,
      h.full, h.irq, rfl, h.past⟩
  | reset =>
    have hreset := h.reset session.chip.wiring
    rw [← Chip.reset_eq_restarted] at hreset
    unfold Operation.touch Operation.act
    dsimp only
    generalize session.chip.reset.1 = chip at hreset ⊢
    exact hreset
  | _ => exact h

theorem act {session : Session} (h : Reads old reader session.chip.dmc session.bus)
    (hdelay : 0 ≤ session.chip.dmc.voice.delay) (operation : Operation) :
    Reads old
      ((Timer.skip Reader.byteEnd (session.chip.dmc.byteEnds
        (session.chip.time + session.chip.dmc.voice.delay) (operation.stop session.chip.time))
        reader).act operation)
      (operation.act session).chip.dmc (operation.act session).bus := by
  have hsame := Session.resembles_act .full session operation
  have htouched := (h.runTo hdelay (operation.stop session.chip.time)).touch operation
  rw [hsame.dmc rfl, hsame.bus rfl]
  exact htouched

theorem follow {console : Console} (hreach : Console.Reachable console)
    (h : Reads old reader console.board.chip.dmc console.board.bus) (operations : List Operation) :
    Reads old (reader.follow console operations)
      (console.attemptAll operations).board.chip.dmc (console.attemptAll operations).board.bus := by
  induction operations generalizing reader console with
  | nil => exact h
  | cons operation operations ih =>
    rw [Console.attemptAll_cons]
    unfold Reader.follow
    cases hperform : console.perform operation with
    | error fault =>
      rw [Console.attempt_of_error hperform]
      exact ih hreach h
    | ok result =>
      obtain ⟨outcome, next⟩ := result
      obtain ⟨hchip, hbus, _⟩ := Console.perform_ok hperform
      have hact : Reads old _ (operation.act console.board.session).chip.dmc
          (operation.act console.board.session).bus :=
        act h hreach.consistent.dmc_delay operation
      rw [← hchip, ← hbus] at hact
      rw [Console.attempt_of_ok hperform]
      exact ih (hreach.perform hperform) hact

end Reads

namespace Console

theorem reads_create {bus : Bus} {configuration : Configuration} {console : Console}
    (h : Console.create bus configuration = .ok console) :
    Reads bus.fetched.toList {} console.board.chip.dmc console.board.bus := by
  obtain ⟨buffer, _, rfl⟩ := create_ok h
  rw [reset_bus, reset_chip]
  exact .of_restarted (List.append_nil _).symm (fun _ hpass => by cases hpass) _

/-- Over any history of a console its bus makes the calls of the reader beside it, pass after pass
through samples in `$8000` to `$FFFF`.  A pass that was not cut off made a call for each byte, and an
idle channel makes none until it is switched on. -/
theorem calls_walk_samples {bus : Bus} {configuration : Configuration} {console : Console}
    (hcreate : Console.create bus configuration = .ok console) (operations : List Operation) :
    let reader := Reader.follow {} console operations
    let last := console.attemptAll operations
    last.board.bus.fetched.toList = bus.fetched.toList ++ reader.calls ∧
      (∀ address ∈ reader.calls, 0x8000 ≤ address) ∧
      (∀ pass ∈ reader.past, pass.made ≤ pass.size ∧ (pass.cut = false → pass.made = pass.size)) ∧
      (∀ pass, reader.playing = some pass → pass.made < pass.size ∧
        pass.made + last.board.chip.dmc.voice.length = pass.size) ∧
      (reader.playing = none → last.board.chip.dmc.voice.length = 0) ∧
      last.board.chip.dmc.enabled = reader.playing.isSome ∧
      last.board.chip.dmc.buffer.isSome = reader.full ∧
      last.board.chip.dmc.irqFlag = reader.irq ∧
      last.takeStall.1 = UInt32.ofNat (4 * reader.unpaid) ∧
      (reader.playing = none → ∀ later : List Operation,
        (∀ operation ∈ later, operation.startsSample = false) →
          (last.attemptAll later).board.bus.fetched = last.board.bus.fetched) := by
  intro reader last
  have h : Reads bus.fetched.toList reader last.board.chip.dmc last.board.bus :=
    (reads_create hcreate).follow (.create hcreate) operations
  have hplaying (pass : Pass) (hpass : reader.playing = some pass) : pass.made < pass.size ∧
      pass.made + last.board.chip.dmc.voice.length = pass.size := by
    obtain ⟨hleft, hmore, _⟩ := h.playing pass hpass
    exact ⟨by omega, hleft⟩
  refine ⟨h.fetched, ?_, h.past, hplaying, h.idle, h.enabled, h.full, h.irq, h.stall, ?_⟩
  · intro address haddress
    obtain ⟨pass, hpass, hcall⟩ := List.mem_flatMap.mp haddress
    obtain ⟨n, hn, rfl⟩ := List.mem_map.mp hcall
    have hmade : pass.made ≤ pass.size := by
      rcases List.mem_append.mp hpass with hpast | hpass
      · exact (h.past pass hpast).1
      · exact Nat.le_of_lt (hplaying pass (Option.mem_toList.mp hpass)).1
    exact Pass.le_address (Nat.lt_of_lt_of_le (List.mem_range.mp hn) hmade)
  · intro hnone later hoff
    have hidle : Reader.Idle reader.past reader := ⟨hnone, rfl⟩
    have hlater := h.follow ((Reachable.create hcreate).attemptAll operations) later
    have hcalls : (reader.follow last later).calls = reader.calls :=
      (hidle.follow hoff last).calls.trans hidle.calls.symm
    rw [← Array.toList_inj, hlater.fetched, hcalls, h.fetched]

/-- A sample of 65 bytes that crosses the end of memory, at the highest rate, and its interrupt. -/
def longSample : List Operation :=
  [.write 0 0x4010 0x8F, .write 0 0x4012 0xFF, .write 0 0x4013 4, .write 10 0x4015 0x10,
    .runFrame 20000 0, .runFrame 20000 0]

theorem calls_walk_samples_of_wrap :
    ∃ console, Console.create (.unconnected 0xFF) .standard = .ok console ∧
      (console.attemptAll longSample).board.bus.fetched[64]? = some 0x8000 ∧
      (Reader.follow {} console longSample).calls.length = 65 ∧
      (Reader.follow {} console longSample).irq = true ∧
      UInt32.ofNat (4 * (Reader.follow {} console longSample).unpaid) = 260 := by
  obtain ⟨console, hcreate, hfacts⟩ := exists_ok
    (Console.create (.unconnected 0xFF) .standard)
    (fun console =>
      let last := console.attemptAll longSample
      last.board.bus.fetched[64]? = some 0x8000 ∧ last.board.bus.fetched.toList.length = 65 ∧
        last.board.chip.dmc.irqFlag = true ∧ last.takeStall.1 = 260)
    (by decide +kernel)
  obtain ⟨hlast, hcount, hflag, hstall⟩ := of_decide_eq_true hfacts
  obtain ⟨hcalls, _, _, _, _, _, _, hirq, hpaid, _⟩ := calls_walk_samples hcreate longSample
  refine ⟨console, hcreate, hlast, ?_, hirq.symm.trans hflag, hpaid.symm.trans hstall⟩
  rw [hcalls] at hcount
  exact hcount

end Console

end Chiptune
