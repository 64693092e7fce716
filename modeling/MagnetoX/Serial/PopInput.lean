import Mathlib.Data.List.Basic
import MagnetoX.Library.Run
import MagnetoX.Message.Block

/-!
Owns the retry loop of `console_pop_input`, which `src/generic/serial_irq.c` and
`src/generic/canserial.c` share, one load or store at a time. Interrupts may come before each of
them; the section between `irq_save` and `irq_restore` is one step. `memmove` moves bytes to lower
addresses, the lowest byte first.

A buffer is given by what it holds at every index. An interrupt that finds it full is not part of a
run.
-/

namespace MagnetoX.Serial.PopInput

open Function Message Library.Run List

def RX_BUFFER_SIZE : Nat := 192

/-- What the receive interrupt and the task share. -/
structure Receive where
  receiveBuf : Nat → UInt8
  receivePos : Nat
  /-- `sched_wake_tasks` or `canserial_notify_rx` was called. -/
  woken : Bool

def Receive.contents (r : Receive) : Bytes := (List.range r.receivePos).map r.receiveBuf

/-- Rx interrupt - store read data. -/
def serialRxByte (r : Receive) (data : UInt8) : Receive :=
  let r := if data = MESSAGE_SYNC then { r with woken := true } else r
  -- Serial overflow - ignore it as crc error will force retransmit
  if r.receivePos ≥ RX_BUFFER_SIZE then r
  else
    { r with
      receiveBuf := update r.receiveBuf r.receivePos data
      receivePos := r.receivePos + 1 }

/-- Handle incoming data, a message with the assigned id. -/
def canserialProcessData (r : Receive) (data : Bytes) : Receive :=
  if data.length > RX_BUFFER_SIZE - r.receivePos then r
  else
    { receiveBuf := fun i =>
        if i < r.receivePos then r.receiveBuf i
        else data.getD (i - r.receivePos) (r.receiveBuf i)
      receivePos := r.receivePos + data.length
      woken := true }

inductive Port where
  | serial
  | canbus

/-- The interrupts at one point of the task: bytes from the line one by one, or a message. -/
def Port.interrupt (r : Receive) (data : Bytes) : Port → Receive
  | .serial => data.foldl serialRxByte r
  | .canbus => canserialProcessData r data

/-- What `console_pop_input` does next. -/
inductive Pc where
  | read
  | load (moved : Nat)
  | store (moved : Nat) (byte : UInt8)
  | commit
  | returned
deriving DecidableEq

structure State extends Receive where
  copied : Nat
  rpos : Nat
  pc : Pc

def State.run (s : State) (len : Nat) : State :=
  let needcopy := s.rpos - len
  match s.pc with
  | .read =>
      { s with
        rpos := s.receivePos
        pc := if s.receivePos - len ≠ 0 then .load 0 else .commit }
  | .load moved =>
      if moved < needcopy - s.copied then
        { s with pc := .store moved (s.receiveBuf (s.copied + len + moved)) }
      else { s with copied := needcopy, woken := true, pc := .commit }
  | .store moved byte =>
      { s with
        receiveBuf := update s.receiveBuf (s.copied + moved) byte
        pc := .load (moved + 1) }
  | .commit =>
      -- Raced with irq handler - retry
      if s.rpos ≠ s.receivePos then { s with pc := .read }
      else { s with receivePos := needcopy, pc := .returned }
  | .returned => s

inductive Event where
  | run
  | interrupt (data : Bytes)

def step (port : Port) (len : Nat) (s : State) : Event → Option State
  | .run => some (s.run len)
  | .interrupt data =>
      if s.receivePos + data.length ≤ RX_BUFFER_SIZE then
        some { s with toReceive := port.interrupt s.toReceive data }
      else none

def enter (r : Receive) : State := { r with copied := 0, rpos := 0, pc := .read }

def received : List Event → Bytes
  | [] => []
  | .run :: rest => received rest
  | .interrupt data :: rest => data ++ received rest

/-- How many instructions a schedule has, and how many it needs for its interrupts. -/
def runs : List Event → Nat
  | [] => 0
  | .run :: rest => runs rest + 1
  | .interrupt _ :: rest => runs rest

def delay : List Event → Nat
  | [] => 0
  | .run :: rest => delay rest
  | .interrupt data :: rest => delay rest + (2 * data.length + 3)

variable {port : Port} {len : Nat} {data all : Bytes} {r : Receive} {s : State}

structure Stores (r after : Receive) (data : Bytes) : Prop where
  pos : after.receivePos = r.receivePos + data.length
  kept : ∀ i < r.receivePos, after.receiveBuf i = r.receiveBuf i
  stored : ∀ i < data.length, data[i]? = some (after.receiveBuf (r.receivePos + i))

theorem serialRxByte_stores (byte : UInt8) (room : r.receivePos < RX_BUFFER_SIZE) :
    Stores r (serialRxByte r byte) [byte] := by
  have same : serialRxByte r byte =
      { receiveBuf := update r.receiveBuf r.receivePos byte
        receivePos := r.receivePos + 1
        woken := if byte = MESSAGE_SYNC then true else r.woken } := by
    unfold serialRxByte
    split
    · exact if_neg (Nat.not_le.mpr room)
    · exact if_neg (Nat.not_le.mpr room)
  rw [same]
  refine ⟨rfl, fun i below => update_of_ne (Nat.ne_of_lt below) _ _, ?_⟩
  intro i isFirst
  obtain rfl : i = 0 := Nat.lt_one_iff.mp isFirst
  exact congrArg some (update_self r.receivePos byte r.receiveBuf).symm

variable {moved : Nat}

/-- If `all` was in the buffer or has come since: bytes that have been moved are at their new place,
all others at their old one. -/
structure Moved (len : Nat) (all : Bytes) (r : Receive) (moved : Nat) : Prop where
  pos : r.receivePos = all.length
  enough : moved + len ≤ all.length
  front : ∀ i < moved, all[i + len]? = some (r.receiveBuf i)
  back : ∀ i < all.length, moved ≤ i → all[i]? = some (r.receiveBuf i)

section

variable (held : Moved len all r moved)
include held

theorem Moved.stores {after : Receive}
    (stores : Stores r after data) : Moved len (all ++ data) after moved where
  pos := by
    rw [stores.pos, held.pos, length_append]
  enough := by
    have enough := held.enough
    rw [length_append]
    omega
  front i below := by
    have enough := held.enough
    rw [getElem?_append_left (by omega), stores.kept i (by rw [held.pos]; omega)]
    exact held.front i below
  back i inside above := by
    rw [length_append] at inside
    rcases Nat.lt_or_ge i all.length with early | late
    · rw [getElem?_append_left early, stores.kept i (by rw [held.pos]; exact early)]
      exact held.back i early above
    · rw [getElem?_append_right late, stores.stored _ (by omega), held.pos,
        Nat.add_sub_cancel' late]

theorem Moved.receives (room : r.receivePos + data.length ≤ RX_BUFFER_SIZE) :
    Moved len (all ++ data) (port.interrupt r data) moved := by
  cases port with
  | canbus =>
    have same : canserialProcessData r data = _ := if_neg (by omega)
    rw [Port.interrupt, same]
    refine held.stores ⟨rfl, fun i below => if_pos below, fun i below => ?_⟩
    simp [getD_eq_getElem?_getD, below]
  | serial =>
    rw [Port.interrupt]
    induction data generalizing r all with
    | nil =>
      rw [append_nil]
      exact held
    | cons byte rest ih =>
      rw [length_cons] at room
      have stores := @serialRxByte_stores r byte (by omega)
      rw [append_cons]
      refine ih (held.stores stores) ?_
      rw [stores.pos, length_singleton]
      omega

theorem Moved.store {byte : UInt8} (loaded : all[moved + len]? = some byte) :
    Moved len all { r with receiveBuf := update r.receiveBuf moved byte } (moved + 1) where
  pos := held.pos
  enough := by
    obtain ⟨inside, -⟩ := List.getElem?_eq_some_iff.mp loaded
    omega
  front i below := by
    rcases Nat.lt_succ_iff_lt_or_eq.mp below with before | rfl
    · exact (held.front i before).trans (congrArg some (update_of_ne (Nat.ne_of_lt before) _ _).symm)
    · exact loaded.trans (congrArg some (update_self i byte r.receiveBuf).symm)
  back i inside above :=
    (held.back i inside (Nat.le_of_succ_le above)).trans
      (congrArg some (update_of_ne (Nat.ne_of_gt above) _ _).symm)

theorem Moved.rest (whole : moved = all.length - len) :
    Moved 0 (all.drop len) { r with receivePos := moved } 0 where
  pos := whole.trans length_drop.symm
  enough := Nat.zero_le _
  front i below := absurd below (Nat.not_lt_zero i)
  back i inside _ := by
    rw [length_drop] at inside
    rw [getElem?_drop, Nat.add_comm, held.front i (by omega)]

end

theorem length_contents (r : Receive) : r.contents.length = r.receivePos := by
  simp [Receive.contents]

theorem moved_contents (few : len ≤ r.receivePos) : Moved len r.contents r 0 where
  pos := (length_contents r).symm
  enough := by rwa [length_contents, Nat.zero_add]
  front i below := absurd below (Nat.not_lt_zero i)
  back i inside _ := by
    rw [length_contents] at inside
    rw [Receive.contents, getElem?_map, getElem?_range inside]
    rfl

theorem Moved.contents (held : Moved 0 all r 0) : r.contents = all := by
  have own := @moved_contents 0 r (Nat.zero_le _)
  have length : r.contents.length = all.length := own.pos.symm.trans held.pos
  refine ext_getElem? (fun i => ?_)
  rcases Nat.lt_or_ge i all.length with inside | outside
  · rw [own.back i (by omega) (Nat.zero_le i), held.back i inside (Nat.zero_le i)]
  · rw [getElem?_eq_none outside, getElem?_eq_none (by omega)]

def Inv (len : Nat) (all : Bytes) (s : State) : Prop :=
  match s.pc with
  | .read => Moved len all s.toReceive s.copied
  | .load moved => Moved len all s.toReceive (s.copied + moved) ∧
      s.copied + moved + len ≤ s.rpos ∧ s.rpos ≤ all.length
  | .store moved byte => Moved len all s.toReceive (s.copied + moved) ∧
      s.copied + moved + len < s.rpos ∧ s.rpos ≤ all.length ∧
      all[s.copied + moved + len]? = some byte
  | .commit => Moved len all s.toReceive s.copied ∧ s.copied + len = s.rpos ∧ s.rpos ≤ all.length
  | .returned => len ≤ all.length ∧ Moved 0 (all.drop len) s.toReceive 0

/-- How many instructions are left, if no interrupt comes. -/
def State.left (s : State) (len : Nat) : Nat :=
  let bytes := fun moved => 2 * (s.receivePos - len - moved)
  let retry := if s.rpos = s.receivePos then 0 else 3
  match s.pc with
  | .read => bytes s.copied + 3
  | .load moved => bytes (s.copied + moved) + 2 + retry
  | .store moved _ => bytes (s.copied + moved) + 1 + retry
  | .commit => bytes s.copied + 1 + retry
  | .returned => 0

theorem Inv.instruction (inv : Inv len all s) :
    Inv len all (s.run len) ∧ ((s.run len).left len < s.left len ∨ s.pc = .returned) := by
  obtain ⟨r, copied, rpos, pc⟩ := s
  cases pc with
  | read =>
    have held : Moved len all r copied := inv
    have pos := held.pos
    have enough := held.enough
    by_cases some : r.receivePos - len = 0
    · simp only [State.run, some, ne_eq, not_true_eq_false, if_false]
      refine ⟨⟨held, ?_, pos.le⟩, .inl ?_⟩
      · dsimp only
        omega
      · simp [State.left]
    · simp only [State.run, some, ne_eq, not_false_eq_true, if_true]
      refine ⟨⟨held, ?_, pos.le⟩, .inl ?_⟩
      · dsimp only
        omega
      · simp [State.left]
  | load moved =>
    obtain ⟨held, below, fresh⟩ := inv
    dsimp only at below fresh
    by_cases more : moved < rpos - len - copied
    · simp only [State.run, more, if_true]
      refine ⟨⟨held, ?_, fresh, ?_⟩, .inl ?_⟩
      · dsimp only
        omega
      · dsimp only
        rw [Nat.add_right_comm]
        exact held.back _ (by omega) (by dsimp only; omega)
      · simp [State.left]
    · simp only [State.run, more, if_false]
      have all : rpos - len = copied + moved := by omega
      refine ⟨⟨?_, ?_, fresh⟩, .inl ?_⟩
      · rw [all]
        exact { held with }
      · dsimp only
        omega
      · simp [State.left, all]
  | store moved byte =>
    obtain ⟨held, below, fresh, loaded⟩ := inv
    have pos := held.pos
    dsimp only at below fresh loaded pos
    refine ⟨⟨held.store loaded, ?_, fresh⟩, .inl ?_⟩
    · change copied + (moved + 1) + len ≤ rpos
      omega
    · by_cases same : rpos = r.receivePos <;> simp [State.run, State.left, same] <;> omega
  | commit =>
    obtain ⟨held, isCopied, fresh⟩ := inv
    have pos := held.pos
    dsimp only at isCopied fresh pos
    by_cases raced : rpos = r.receivePos
    · simp only [State.run, raced, ne_eq, not_true_eq_false, if_false]
      have rest : r.receivePos - len = copied := by omega
      rw [rest]
      refine ⟨⟨by omega, held.rest ?_⟩, .inl ?_⟩
      · dsimp only
        omega
      · simp [State.left]
    · simp only [State.run, raced, ne_eq, not_false_eq_true, if_true]
      refine ⟨held, .inl ?_⟩
      simp [State.left, raced]
  | returned => exact ⟨inv, .inr rfl⟩

theorem Inv.interrupt (inv : Inv len all s) (room : s.receivePos + data.length ≤ RX_BUFFER_SIZE) :
    let after := { s with toReceive := port.interrupt s.toReceive data }
    Inv len (all ++ data) after ∧ after.left len ≤ s.left len + (2 * data.length + 3) := by
  obtain ⟨r, copied, rpos, pc⟩ := s
  have pos := (@Moved.receives port _ _ _ _ _ (@moved_contents 0 r (Nat.zero_le _)) room).pos
  rw [length_append, length_contents] at pos
  have grows : ∀ {last}, last ≤ all.length → last ≤ (all ++ data).length := by
    intro last fresh
    rw [length_append]
    omega
  cases pc with
  | read =>
    refine ⟨Moved.receives inv room, ?_⟩
    simp only [State.left, pos]
    omega
  | load moved =>
    obtain ⟨held, below, fresh⟩ := inv
    refine ⟨⟨held.receives room, below, grows fresh⟩, ?_⟩
    simp only [State.left, pos]
    split <;> split <;> omega
  | store moved byte =>
    obtain ⟨held, below, fresh, loaded⟩ := inv
    refine ⟨⟨held.receives room, below, grows fresh, ?_⟩, ?_⟩
    · rw [getElem?_append_left (below.trans_le fresh)]
      exact loaded
    · simp only [State.left, pos]
      split <;> split <;> omega
  | commit =>
    obtain ⟨held, isCopied, fresh⟩ := inv
    refine ⟨⟨held.receives room, isCopied, grows fresh⟩, ?_⟩
    simp only [State.left, pos]
    split <;> split <;> omega
  | returned =>
    obtain ⟨enough, isRest⟩ := inv
    refine ⟨⟨grows enough, ?_⟩, Nat.zero_le _⟩
    rw [drop_append_of_le_length enough]
    exact isRest.receives room

theorem returned_of_left (none : s.left len = 0) : s.pc = .returned := by
  cases isPc : s.pc with
  | returned => rfl
  | _ => simp [State.left, isPc] at none

theorem run_of_returned (returned : s.pc = .returned) : s.run len = s := by
  rw [State.run, returned]

/-- Along every schedule. -/
theorem Inv.schedule {schedule : List Event} {last : State} (inv : Inv len all s)
    (executes : run (step port len) (fun _ => True) s schedule = some last) :
    Inv len (all ++ received schedule) last ∧
      (s.pc = .returned ∨ s.left len + delay schedule ≤ runs schedule → last.pc = .returned) := by
  induction schedule generalizing s all with
  | nil =>
    cases executes
    rw [received, append_nil]
    refine ⟨inv, ?_⟩
    rintro (returned | none)
    · exact returned
    · exact returned_of_left (Nat.le_zero.mp (Nat.le_of_add_right_le none))
  | cons event rest ih =>
    obtain ⟨after, moves, executes⟩ := Option.bind_eq_some_iff.mp executes
    cases event with
    | run =>
      cases moves
      obtain ⟨still, fewer⟩ := inv.instruction
      obtain ⟨lastInv, ends⟩ := ih still executes
      refine ⟨lastInv, fun enough => ends ?_⟩
      rw [delay, runs] at enough
      by_cases returned : s.pc = .returned
      · left
        rw [run_of_returned returned]
        exact returned
      · have before := fewer.resolve_right returned
        have enough := enough.resolve_left returned
        omega
    | interrupt data =>
      rw [step, Option.ite_none_right_eq_some] at moves
      obtain ⟨room, moves⟩ := moves
      cases moves
      obtain ⟨still, more⟩ := @Inv.interrupt port _ _ _ _ inv room
      obtain ⟨lastInv, ends⟩ := ih still executes
      rw [append_assoc] at lastInv
      refine ⟨lastInv, fun enough => ends (enough.imp_right (fun enough => ?_))⟩
      rw [delay, runs] at enough
      omega

/-- **Removing input is race free.** Whatever interrupts come at whatever points of
`console_pop_input`, it returns after so many instructions, and then the buffer holds what it held
without the first `len` bytes, and behind it all bytes received since. -/
theorem consolePopInput_race_free (port : Port) (r : Receive) (few : len ≤ r.receivePos)
    {schedule : List Event} {last : State}
    (executes : run (step port len) (fun _ => True) (enter r) schedule = some last) :
    (2 * (r.receivePos - len) + 3 + delay schedule ≤ runs schedule → last.pc = .returned) ∧
      (last.pc = .returned → last.contents = r.contents.drop len ++ received schedule ∧
        last.receivePos = (r.contents.drop len ++ received schedule).length) := by
  have begins : Inv len r.contents (enter r) := moved_contents few
  obtain ⟨inv, ends⟩ := begins.schedule executes
  refine ⟨fun enough => ends (.inr enough), fun returned => ?_⟩
  rw [Inv, returned] at inv
  rw [← drop_append_of_le_length (few.trans (length_contents r).ge), ← inv.2.contents]
  exact ⟨rfl, (length_contents _).symm⟩

/-- The byte received before the copy is complete is kept. -/
theorem consolePopInput_race_free_byte : ∃ last,
    run (step .serial 1) (fun _ => True) (enter ⟨fun i => i.toUInt8 + 7, 2, false⟩)
      ([.run, .interrupt [0x7e]] ++ List.replicate 9 .run) = some last ∧
    last.contents = [8, 0x7e] := by
  obtain ⟨last, executes⟩ := Option.isSome_iff_exists.mp (show (run (step .serial 1) (fun _ => True)
    (enter ⟨fun i => i.toUInt8 + 7, 2, false⟩)
      ([.run, .interrupt [0x7e]] ++ replicate 9 .run)).isSome = true by decide +kernel)
  obtain ⟨returns, leaves⟩ := consolePopInput_race_free .serial _ (by decide) executes
  exact ⟨last, executes, (leaves (returns (by decide))).1⟩

end MagnetoX.Serial.PopInput
