import Chiptune.Proofs.Clockwork
import Chiptune.Proofs.SampleRun

/-! The sample channel bit by bit.  A `Player` has the state of the channel in plain numbers and plays
it one bit at a time.  No event takes its numbers out of their bounds (`Player.InRange.event`).  Every
event of the channel is one of the player (`player_event`), so all runs of the channel together do
what the player does clock by clock. -/

namespace Chiptune

/-- What no event of the sample channel changes. -/
structure Dials where
  region : Region
  rate : BitVec 4
  registers : Bank UInt8
  pending : Bank Bool
  irqEnabled : Bool

/-- The sample channel in plain numbers.  `remain` is the number of bits, from 8 down to 1, before
the next byte is taken, `address` the offset of the next byte above `$8000`, and `bytes` the number
of bytes still to be fetched. -/
structure Player where
  dac : Int
  shifter : Nat
  remain : Nat
  silent : Bool
  buffer : Option UInt8
  address : Nat
  bytes : Nat
  enabled : Bool
  irqFlag : Bool
  nextIrq : Option Int
  stall : UInt32

namespace Player

/-- Takes the low bit out of the shifter and moves the level by it, if it stays within 0 and 127. -/
def playBit (player : Player) : Player :=
  if player.silent then player
  else
    let target := if player.shifter % 2 = 1 then player.dac + 2 else player.dac - 2
    { player with
      dac := if 0 ≤ target ∧ target ≤ 127 then target else player.dac
      shifter := player.shifter / 2 }

/-- A byte goes into the buffer. -/
def take (player : Player) (byte : UInt8) : Player :=
  { player with
    buffer := some byte
    address := (player.address + 1) % 0x8000
    bytes := player.bytes - 1
    stall := player.stall + 4 }

/-- With no byte left the sample starts again, or it ends and may raise the interrupt. -/
def conclude (dials : Dials) (player : Player) : Player :=
  if 0 < player.bytes then player
  else if Voice.bit dials.registers.first 6 then
    { player with
      address := 0x4000 + 0x40 * dials.registers.third.toNat
      bytes := 0x10 * dials.registers.fourth.toNat + 1 }
  else { player with enabled := false, irqFlag := dials.irqEnabled, nextIrq := none }

/-- Fetches the next byte, if one is left. -/
def fetch (dials : Dials) (player : Player) (bus : Bus) : Player × Bus :=
  if player.bytes = 0 then (player, bus)
  else
    let (byte, bus) := bus.read (UInt16.ofNat (0x8000 + player.address))
    ((player.take byte).conclude dials, bus)

/-- Plays a bit.  After the last of eight the waiting byte goes into the shifter and the next one is
fetched; without one the player falls silent. -/
def event (dials : Dials) (s : Player × Bus) : Player × Bus :=
  let played := s.1.playBit
  if 1 < played.remain then ({ played with remain := played.remain - 1 }, s.2)
  else
    match played.buffer with
    | some byte =>
      fetch dials
        { played with remain := 8, silent := false, shifter := byte.toNat, buffer := none } s.2
    | none => ({ played with remain := 8, silent := true }, s.2)

/-- The bounds of a player.  Nothing in its types holds it to them. -/
structure InRange (player : Player) : Prop where
  dac : 0 ≤ player.dac ∧ player.dac ≤ 127
  remain : 1 ≤ player.remain ∧ player.remain ≤ 8
  address : player.address < 0x8000
  bytes : player.bytes ≤ 4081

/-- A bit moves the level by two at most, so the level never wraps around. -/
theorem dac_playBit_near (player : Player) :
    player.dac - 2 ≤ player.playBit.dac ∧ player.playBit.dac ≤ player.dac + 2 := by
  unfold playBit
  split
  · omega
  · dsimp only
    split <;> split <;> omega

namespace InRange

variable {player : Player} (h : player.InRange)
include h

theorem playBit : player.playBit.InRange := by
  unfold Player.playBit
  split
  · exact h
  · refine ⟨?_, h.remain, h.address, h.bytes⟩
    dsimp only
    generalize (if player.shifter % 2 = 1 then player.dac + 2 else player.dac - 2) = target
    split
    · assumption
    · exact h.dac

theorem take (byte : UInt8) : (player.take byte).InRange :=
  ⟨h.dac, h.remain, Nat.mod_lt _ (by decide), Nat.le_trans (Nat.sub_le _ _) h.bytes⟩

/-- A sample starts in the upper half of the addresses and has 4081 bytes at most. -/
theorem rewind (third fourth : UInt8) :
    InRange { player with
      address := 0x4000 + 0x40 * third.toNat
      bytes := 0x10 * fourth.toNat + 1 } := by
  have hthird := third.toNat_lt
  have hfourth := fourth.toNat_lt
  refine ⟨h.dac, h.remain, ?_, ?_⟩
  · dsimp only
    omega
  · dsimp only
    omega

theorem conclude (dials : Dials) : (player.conclude dials).InRange := by
  unfold Player.conclude
  split
  · exact h
  · split
    · exact h.rewind _ _
    · exact ⟨h.dac, h.remain, h.address, h.bytes⟩

theorem fetch (dials : Dials) (bus : Bus) : (Player.fetch dials player bus).1.InRange := by
  unfold Player.fetch
  split
  · exact h
  · exact (h.take _).conclude dials

theorem event (dials : Dials) (bus : Bus) : (Player.event dials (player, bus)).1.InRange := by
  have hplayed := h.playBit
  have hfull : 1 ≤ 8 ∧ 8 ≤ 8 := by decide
  unfold Player.event
  dsimp only
  split
  · have hremain := hplayed.remain
    have hnext : 1 ≤ player.playBit.remain - 1 ∧ player.playBit.remain - 1 ≤ 8 := by omega
    exact ⟨hplayed.dac, hnext, hplayed.address, hplayed.bytes⟩
  · split
    · refine InRange.fetch ?_ dials bus
      exact ⟨hplayed.dac, hfull, hplayed.address, hplayed.bytes⟩
    · exact ⟨hplayed.dac, hfull, hplayed.address, hplayed.bytes⟩

/-- A whole run keeps the bounds. -/
theorem skip (dials : Dials) (bus : Bus) (n : Nat) :
    (Timer.skip (Player.event dials) n (player, bus)).1.InRange := by
  induction n generalizing player bus with
  | zero => exact h
  | succ n ih => exact ih (h.event dials bus) _

end InRange

/-- A silent player without a waiting byte only counts its bits around. -/
theorem skip_of_idle (dials : Dials) {player : Player} (hsilent : player.silent = true)
    (hbuffer : player.buffer = none) (hremain : 1 ≤ player.remain ∧ player.remain ≤ 8) (bus : Bus)
    (n : Nat) :
    Timer.skip (event dials) n (player, bus) =
      ({ player with remain := (player.remain - 1 + 8 - n % 8) % 8 + 1 }, bus) := by
  induction n generalizing player with
  | zero =>
    have hsame : (player.remain - 1 + 8 - 0 % 8) % 8 + 1 = player.remain := by omega
    rw [Timer.skip, hsame]
  | succ n ih =>
    have hplay : player.playBit = player := if_pos hsilent
    by_cases hlast : 1 < player.remain
    · have hevent : event dials (player, bus) =
          ({ player with remain := player.remain - 1 }, bus) := by
        unfold event
        rw [hplay]
        exact if_pos hlast
      have hnext : 1 ≤ player.remain - 1 ∧ player.remain - 1 ≤ 8 := by omega
      rw [Timer.skip, hevent, ih (by exact hsilent) (by exact hbuffer) (by exact hnext)]
      congr 2
      dsimp only
      omega
    · have hevent : event dials (player, bus) = ({ player with remain := 8 }, bus) := by
        unfold event
        rw [hplay, if_neg hlast, hbuffer]
        rw [← hsilent]
      have hnext : 1 ≤ 8 ∧ 8 ≤ 8 := by decide
      rw [Timer.skip, hevent, ih (by exact hsilent) (by exact hbuffer) (by exact hnext)]
      congr 2
      dsimp only
      omega

end Player

namespace Dmc

/-- The dials of a channel. -/
def dials (dmc : Dmc) : Dials :=
  ⟨dmc.region, dmc.rate, dmc.voice.registers, dmc.voice.pending, dmc.irqEnabled⟩

/-- The state of a channel in plain numbers. -/
def player (dmc : Dmc) : Player where
  dac := dmc.dac.toNat
  shifter := dmc.shifter.toNat
  remain := dmc.bitsLeft.toNat + 1
  silent := dmc.silent
  buffer := dmc.buffer
  address := dmc.address.toNat
  bytes := dmc.voice.length
  enabled := dmc.enabled
  irqFlag := dmc.irqFlag
  nextIrq := dmc.nextIrq
  stall := dmc.stall

/-! ### One event -/

theorem dac_playBit {dmc : Dmc} (h : dmc.silent = false) :
    (dmc.playBit.dac.toNat : Int) = dmc.player.playBit.dac := by
  have hlt := dmc.dac.isLt
  have hbit : Voice.bit dmc.shifter 0 = decide (dmc.shifter.toNat % 2 = 1) := Nat.testBit_zero _
  unfold playBit Player.playBit player
  simp only [h, hbit, Bool.false_eq_true, if_false, decide_eq_true_eq]
  by_cases hset : dmc.shifter.toNat % 2 = 1
  · simp only [hset, if_true]
    by_cases hroom : dmc.dac < 126
    · have hroom' : dmc.dac.toNat < 126 := hroom
      rw [if_pos hroom, if_pos (by omega), BitVec.toNat_add, Nat.mod_eq_of_lt (by simp; omega)]
      simp
    · have hroom' : ¬dmc.dac.toNat < 126 := hroom
      rw [if_neg hroom, if_neg (by omega)]
  · simp only [hset, if_false]
    by_cases hroom : 2 ≤ dmc.dac
    · have hroom' : 2 ≤ dmc.dac.toNat := hroom
      rw [if_pos hroom, if_pos (by omega), BitVec.toNat_sub_of_le hroom]
      simp
      omega
    · have hroom' : ¬2 ≤ dmc.dac.toNat := hroom
      rw [if_neg hroom, if_neg (by omega)]

theorem player_playBit (dmc : Dmc) : dmc.playBit.player = dmc.player.playBit := by
  cases h : dmc.silent with
  | true =>
    have hplayer : dmc.player.silent = true := h
    unfold playBit Player.playBit
    rw [if_pos h, if_pos hplayer]
  | false =>
    have hdac := dac_playBit h
    have hplayer : dmc.player.silent = false := h
    unfold playBit Player.playBit at hdac ⊢
    simp only [h, hplayer, Bool.false_eq_true, if_false] at hdac ⊢
    unfold player at hdac ⊢
    dsimp only at hdac ⊢
    rw [hdac, UInt8.toNat_shiftRight]
    rfl

theorem playBit_near (dmc : Dmc) :
    (dmc.dac.toNat : Int) - 2 ≤ dmc.playBit.dac.toNat ∧
      (dmc.playBit.dac.toNat : Int) ≤ dmc.dac.toNat + 2 := by
  have hnear := dmc.player.dac_playBit_near
  rw [← player_playBit] at hnear
  exact hnear

theorem player_taken (dmc : Dmc) (byte : UInt8) :
    (dmc.taken byte).player = dmc.player.take byte := by
  have haddress : (dmc.address + 1).toNat = (dmc.address.toNat + 1) % 0x8000 :=
    BitVec.toNat_add dmc.address 1
  unfold taken player Player.take
  dsimp only
  rw [haddress]
  rfl

theorem player_rewind (dmc : Dmc) :
    dmc.rewind.player = { dmc.player with
      address := 0x4000 + 0x40 * dmc.voice.registers.third.toNat
      bytes := 0x10 * dmc.voice.registers.fourth.toNat + 1 } := by
  have hlt : dmc.voice.registers.third.toNat < 256 := dmc.voice.registers.third.toNat_lt
  have haddress : ((0x4000 : BitVec 15) + BitVec.ofNat 15
      (dmc.voice.registers.third.toNat * 0x40)).toNat =
        0x4000 + 0x40 * dmc.voice.registers.third.toNat := by
    rw [BitVec.toNat_add, BitVec.toNat_ofNat, show (0x4000 : BitVec 15).toNat = 0x4000 from rfl]
    omega
  unfold rewind player
  dsimp only
  rw [haddress, Nat.mul_comm 0x10]

theorem player_concluded (dmc : Dmc) : dmc.concluded.player = dmc.player.conclude dmc.dials := by
  have hbytes : dmc.player.bytes = dmc.voice.length := rfl
  unfold concluded Player.conclude
  rw [hbytes]
  by_cases hlength : dmc.voice.length = 0
  · have hnone : ¬0 < dmc.voice.length := by omega
    rw [if_neg (not_not_intro hlength), if_neg hnone, apply_ite player, player_rewind]
    rfl
  · rw [if_pos hlength, if_pos (Nat.pos_of_ne_zero hlength)]

theorem player_fill {dmc : Dmc} (h : dmc.buffer = none) (bus : Bus) :
    Prod.map player id (dmc.fill bus) = Player.fetch dmc.dials dmc.player bus := by
  have hbytes : dmc.player.bytes = dmc.voice.length := rfl
  rw [fill_eq, h, Player.fetch, hbytes]
  by_cases hlength : dmc.voice.length = 0
  · rw [if_pos hlength, if_pos (.inr hlength)]
    rfl
  · rw [if_neg hlength, if_neg (by simpa using hlength), Prod.map_apply, player_concluded,
      player_taken, fetchAddress_eq]
    rfl

theorem player_nextByte (dmc : Dmc) (bus : Bus) :
    Prod.map player id (dmc.nextByte bus) =
      match dmc.buffer with
      | some byte => Player.fetch dmc.dials (dmc.loaded byte).player bus
      | none => ({ dmc.player with silent := true }, bus) := by
  cases h : dmc.buffer with
  | none =>
    rw [nextByte_of_none h]
    rfl
  | some byte =>
    rw [nextByte_of_some h]
    exact player_fill rfl bus

theorem untouched_dials : Untouched dials :=
  ⟨fun _ _ => rfl, fun _ => rfl, fun _ => rfl, fun _ _ => rfl, fun _ => rfl⟩

theorem playBit_fields (dmc : Dmc) :
    dmc.playBit.dials = dmc.dials ∧ dmc.playBit.bitsLeft = dmc.bitsLeft := by
  obtain ⟨dac, shifter, hplay⟩ := dmc.exists_playBit
  rw [hplay]
  exact ⟨rfl, rfl⟩

theorem dials_event (s : Dmc × Bus) : (event s).1.dials = s.1.dials :=
  (untouched_dials.tick s.1 s.2).trans s.1.playBit_fields.1

theorem player_loaded (dmc : Dmc) (byte : UInt8) :
    (dmc.loaded byte).player =
      { dmc.player with silent := false, shifter := byte.toNat, buffer := none } := rfl

/-- The bits of the channel count from 7 down to 0, those of the player from 8 down to 1. -/
theorem player_counted (dmc : Dmc) :
    ({ dmc with bitsLeft := dmc.bitsLeft - 1 } : Dmc).player =
      { dmc.player with remain := if dmc.bitsLeft = 0 then 8 else dmc.player.remain - 1 } := by
  have hcount : (dmc.bitsLeft - 1).toNat + 1 =
      if dmc.bitsLeft = 0 then 8 else dmc.bitsLeft.toNat + 1 - 1 := by
    rw [bitsLeft_pred]
    split
    · rfl
    · rename_i hbits
      have hpos : dmc.bitsLeft.toNat ≠ 0 := fun hzero => hbits (BitVec.eq_of_toNat_eq hzero)
      omega
  unfold player
  dsimp only
  rw [hcount]

theorem one_lt_remain (dmc : Dmc) : 1 < dmc.player.remain ↔ dmc.bitsLeft ≠ 0 := by
  have hzero : dmc.bitsLeft = 0 ↔ dmc.bitsLeft.toNat = 0 := BitVec.toNat_eq
  rw [Ne, hzero]
  show 1 < dmc.bitsLeft.toNat + 1 ↔ _
  omega

/-- An event of the channel is one of the player. -/
theorem player_event (s : Dmc × Bus) :
    Prod.map player id (event s) = Player.event s.1.dials (Prod.map player id s) := by
  obtain ⟨dmc, bus⟩ := s
  obtain ⟨hdials, hbits⟩ := dmc.playBit_fields
  unfold event tick Player.event
  dsimp only [Prod.map_apply, id]
  rw [← player_playBit, ← hdials, ← hbits]
  generalize dmc.playBit = played
  -- The bit is played; what is left to show is the count and, after the eighth bit, the next byte.
  have hcounted := played.player_counted
  by_cases hlast : played.bitsLeft = 0
  · have hremain : ¬1 < played.player.remain := mt played.one_lt_remain.mp (not_not_intro hlast)
    rw [if_pos hlast] at hcounted
    rw [if_pos hlast, if_neg hremain]
    refine (player_nextByte _ bus).trans ?_
    simp only [player_loaded, hcounted]
    rfl
  · rw [if_neg hlast] at hcounted
    rw [if_neg hlast, if_pos (played.one_lt_remain.mpr hlast), Prod.map_apply, hcounted]
    rfl

/-! ### Runs -/

/-- A run of the channel and its bus. -/
def runOn (time stop : Int) (s : Dmc × Bus) (all : Array Step) : (Dmc × Bus) × Array Step :=
  let (dmc, bus, all) := s.1.run time stop s.2 all
  ((dmc, bus), all)

theorem divisible_runOn :
    Divisible runOn (fun time stop s => s.1.after time stop s.2)
      (fun time stop s => s.1.steps time stop s.2) where
  state time stop s all := s.1.run_eq time stop s.2 all
  steps time stop s all := s.1.toList_run time stop s.2 all
  state_split time _ _ s h := s.1.after_after time s.2 h
  steps_split time _ _ s h := s.1.steps_split time s.2 h

/-- The player shows the channel, the dials of which are set to `dials`. -/
def Shows (dials : Dials) (s : Dmc × Bus) (t : Player × Bus) : Prop :=
  s.1.dials = dials ∧ t = Prod.map player id s

theorem shows_event (dials : Dials) (s : Dmc × Bus) (t : Player × Bus) (h : Shows dials s t) :
    Shows dials (event s) (Player.event dials t) := by
  obtain ⟨rfl, rfl⟩ := h
  exact ⟨dials_event s, (player_event s).symm⟩

theorem shows_eventsAfter (dmc : Dmc) (time stop : Int) (bus : Bus) :
    Shows dmc.dials (dmc.eventsAfter time stop bus)
      (Timer.skip (Player.event dmc.dials) (Timer.count dmc.period (time + dmc.voice.delay) stop)
        (dmc.player, bus)) :=
  Timer.skip_related (shows_event dmc.dials) _ ⟨rfl, rfl⟩

theorem steps_eq_player (dmc : Dmc) (time stop : Int) (bus : Bus) :
    dmc.steps time stop bus =
      Timer.sound (Player.event dmc.dials) (fun t => t.1.dac) dmc.period dmc.voice.level time
        dmc.voice.delay stop (dmc.player, bus) := by
  refine (Timer.sound_related (shows_event dmc.dials) ?_ _ _ _ _ ⟨rfl, rfl⟩).symm
  rintro s t ⟨_, rfl⟩
  rfl

/-- However a span of time is cut into runs, the channel ends as the player does after playing the
span clock by clock.  It has made the same fetches and, once its own level is put out, the same
steps.  While the player is idle, any number of events only counts its bits around. -/
theorem inRuns_eq_player (dmc : Dmc) (hdelay : 0 ≤ dmc.voice.delay) (bus : Bus) {time stop : Int}
    {mids : List Int} (hsorted : (time :: (mids ++ [stop])).Pairwise (· ≤ ·)) (all : Array Step) :
    let start : Clockwork (Player × Bus) := ⟨dmc.voice.delay.toNat, dmc.player, bus⟩
    let tick := Player.event dmc.dials
    let last := start.clocks tick dmc.period (stop - time).toNat
    let ((ran, bus'), steps) := inRuns runOn time (mids ++ [stop]) (dmc, bus) all
    ran.player = last.state.1 ∧ bus' = last.state.2 ∧ ran.dials = dmc.dials ∧
      ran.voice.delay = last.wait ∧ ran.voice.level = last.state.1.dac ∧
      steps.toList = all.toList ++ (Step.change time (dmc.player.dac - dmc.voice.level) ++
        start.steps tick (fun s => s.1.dac) dmc.period (stop - time).toNat time) ∧
      (dmc.silent = true → dmc.buffer = none → ∀ n, Timer.skip tick n (dmc.player, bus) =
        ({ dmc.player with remain := (dmc.player.remain - 1 + 8 - n % 8) % 8 + 1 }, bus)) := by
  intro start tick last
  have hstop := le_of_sorted hsorted
  have hperiod : 0 < dmc.period := bitPeriod_pos dmc.region dmc.rate
  have hwait : time + ((dmc.voice.delay.toNat : Nat) : Int) = time + dmc.voice.delay := by omega
  have hend : time + ((stop - time).toNat : Int) = stop := by omega
  obtain ⟨hstate, hleft, hsteps⟩ :=
    start.clocks_eq tick (fun t => t.1.dac) hperiod (stop - time).toNat time
  obtain ⟨hdials, hlast⟩ := dmc.shows_eventsAfter time stop bus
  obtain ⟨hran, hall⟩ := divisible_runOn.inRuns_eq hsorted (dmc, bus) all
  rw [hend, hwait] at hstate hleft hsteps
  rw [← hstate] at hlast
  generalize inRuns runOn time (mids ++ [stop]) (dmc, bus) all = result at hran hall ⊢
  obtain ⟨⟨ran, bus'⟩, steps⟩ := result
  cases hran
  refine ⟨?_, ?_, hdials, hleft.symm, ?_, ?_, ?_⟩
  · rw [hlast]
    rfl
  · rw [hlast]
    rfl
  · rw [hlast]
    rfl
  · rw [hsteps]
    exact hall.trans (congrArg _ (dmc.steps_eq_player time stop bus))
  · intro hsilent hbuffer n
    have hremain : 1 ≤ dmc.player.remain ∧ dmc.player.remain ≤ 8 :=
      ⟨Nat.le_add_left 1 _, dmc.bitsLeft.isLt⟩
    exact Player.skip_of_idle dmc.dials hsilent hbuffer hremain bus n

/-- A channel with one bit in its shifter and one byte in its buffer that has not yet put out its
level. -/
def chirp : Dmc :=
  { region := .ntsc, voice := { delay := 3 }, rate := 15, shifter := 1, buffer := some 0x05
    silent := false, dac := 125 }

theorem inRuns_eq_player_of_chirp :
    let start : Clockwork (Player × Bus) := ⟨3, chirp.player, .unconnected 0⟩
    let tick := Player.event chirp.dials
    let steps : List Step := [⟨0, 125⟩, ⟨3, 2⟩, ⟨111, -2⟩, ⟨165, 2⟩, ⟨219, -2⟩, ⟨273, -2⟩]
    0 ≤ chirp.voice.delay ∧ ((0 : Int) :: ([0, 2, 111] ++ [300])).Pairwise (· ≤ ·) ∧
      (inRuns runOn 0 [0, 2, 111, 300] (chirp, .unconnected 0) #[]).2.toList = steps ∧
      Step.change 0 125 ++ start.steps tick (fun s => s.1.dac) chirp.period 300 0 = steps := by
  have hdelay : 0 ≤ chirp.voice.delay := by decide
  have hsorted : ((0 : Int) :: ([0, 2, 111] ++ [300])).Pairwise (· ≤ ·) := by decide
  have hsteps : (inRuns runOn 0 [0, 2, 111, 300] (chirp, .unconnected 0) #[]).2.toList =
      [⟨0, 125⟩, ⟨3, 2⟩, ⟨111, -2⟩, ⟨165, 2⟩, ⟨219, -2⟩, ⟨273, -2⟩] := by decide +kernel
  obtain ⟨_, _, _, _, _, hall, _⟩ :=
    inRuns_eq_player chirp hdelay (.unconnected 0) hsorted #[]
  exact ⟨hdelay, hsorted, hsteps, (List.nil_append _).symm.trans (hall.symm.trans hsteps)⟩

end Dmc

end Chiptune
