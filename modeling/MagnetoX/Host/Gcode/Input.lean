import MagnetoX.Host.ConfigFile.Autosave
import MagnetoX.Library.Run
import MagnetoX.Library.TextOffset

/-!
Owns the G-Code terminal of `klippy/gcode.py`: `GCodeIO._process_data`, which
turns what is read into lines, and `GCodeDispatch._process_commands`, which hands
them to their handlers one by one.

A handler may pause, and `_process_data` is then called again, so each line that is
dispatched is a step of its own. An invocation that drains the commands is its
lines that are not dispatched yet. Nothing is raised out of `_process_commands`
there, as it is called with `need_ack`. Python's `str.upper` is a parameter.
-/

namespace MagnetoX.Host.Gcode

open Library.Lines Library.Run Library.Search Library.TextOffset List
open Host.ConfigFile (Text isSpace)

def isWordSymbol (c : Char) : Bool := ('A' ≤ c && c ≤ 'Z') || c = '_'

/-- `args_r.split`: the text in front of the first match, and each match with the
text behind it. A match is a run of word symbols or one of `*` and `/`. -/
def splitArgs : Text → Text × List (Text × Text)
  | [] => ([], [])
  | c :: rest =>
      let (behind, args) := splitArgs rest
      if isWordSymbol c then
        match rest.head?.any isWordSymbol, args with
        | true, (word, value) :: args => ([], (c :: word, value) :: args)
        | _, args => ([], ([c], behind) :: args)
      else if c = '*' || c = '/' then ([], ([c], behind) :: args)
      else (c :: behind, args)

/-- What a handler is given. Of entries of `params` with one name, the last counts. -/
structure GCodeCommand where
  command : Text
  commandline : Text
  params : List (Text × Text)
deriving DecidableEq, Repr

/-- The name of the command, behind the line number if there is one. -/
def commandName : List (Text × Text) → Text
  | [] => []
  | (word, value) :: args =>
      if word ≠ ['N'] then word ++ strip isSpace value
      else
        match args with
        | [] => []
        | (word, value) :: _ => word ++ strip isSpace value

/-- The body of the loop of `_process_commands` up to the handler. -/
def parseCommand (upper : Text → Text) (line : Text) : GCodeCommand :=
  let origline := strip isSpace line
  let args := (splitArgs (upper (origline.takeWhile (· ≠ ';')))).2
  ⟨commandName args, origline, args.map (fun (word, value) => (word, strip isSpace value))⟩

/-- `m112_r`. -/
def isM112 (line : Text) : Bool :=
  let unnumbered :=
    match line with
    | 'n' :: rest | 'N' :: rest => if rest.head?.any Char.isDigit then rest.dropWhile Char.isDigit else line
    | _ => line
  match unnumbered.dropWhile isSpace with
  | m :: '1' :: '1' :: '2' :: rest => (m = 'm' || m = 'M') && rest.head?.all isSpace
  | _ => false

/-- The fields of `GCodeIO`. `batch` is there while `is_processing_data` is set.
Also what has been read, the lines handed over and the commands made of them, the
calls of `cmd_M112` out of order, and the requests to exit. -/
structure GCodeIo where
  partialInput : Text
  pendingCommands : List Text
  batch : Option (List Text)
  fdHandle : Bool
  reads : List (List UInt8)
  dispatched : List Text
  handled : List GCodeCommand
  emergencies : Nat
  exits : Nat
deriving DecidableEq, Repr

def GCodeIo.initial : GCodeIo where
  partialInput := []
  pendingCommands := []
  batch := none
  fdHandle := true
  reads := []
  dispatched := []
  handled := []
  emergencies := 0
  exits := 0

namespace GCodeIo

def waiting (io : GCodeIo) : List Text := io.batch.getD [] ++ io.pendingCommands

/-- The test of the loop that drains the commands, and what follows the loop. -/
def drain (io : GCodeIo) : GCodeIo :=
  if io.pendingCommands = [] then { io with batch := none, fdHandle := true }
  else { io with batch := some io.pendingCommands, pendingCommands := [] }

def endOfInput (io : GCodeIo) : GCodeIo :=
  { io with
    fdHandle := if io.batch = none then false else io.fdHandle
    exits := if io.batch = none then io.exits + 1 else io.exits
    pendingCommands := io.pendingCommands ++ [[]] }

def checkM112 (io : GCodeIo) (lines : List Text) : GCodeIo :=
  if (io.batch ≠ none ∨ 1 < io.pendingCommands.length) ∧ io.pendingCommands.length < 20 then
    { io with emergencies := io.emergencies + lines.countP isM112 }
  else io

/-- `_process_data` once `data` has been read, up to the first command that is
processed. -/
def processData (isFileinput : Bool) (io : GCodeIo) (data : List UInt8) : GCodeIo :=
  let io := { io with reads := io.reads ++ [data] }
  match decode data with
  | none => io
  | some text =>
      let (lines, partialInput) := feed '\n' io.partialInput text
      let io := { io with partialInput, pendingCommands := io.pendingCommands ++ lines }
      let io := if text = [] ∧ isFileinput then io.endOfInput else io
      let io := io.checkM112 lines
      if io.batch = none then io.drain
      else if 20 ≤ io.pendingCommands.length then { io with fdHandle := false }
      else io

/-- An invocation that drains the commands dispatches its next line, or comes to
the end of its batch. -/
def processNext (upper : Text → Text) (io : GCodeIo) : Option GCodeIo :=
  match io.batch with
  | none => none
  | some [] => some io.drain
  | some (line :: rest) =>
      some { io with
        batch := some rest
        dispatched := io.dispatched ++ [line]
        handled := io.handled ++ [parseCommand upper line] }

end GCodeIo

inductive Input where
  | read (data : List UInt8)
  | next
deriving DecidableEq, Repr

/-- One step of the terminal. A read gives at most 4096 bytes. -/
def step (upper : Text → Text) (isFileinput : Bool) (io : GCodeIo) : Input → Option GCodeIo
  | .read data => if io.fdHandle ∧ data.length ≤ 4096 then some (io.processData isFileinput data) else none
  | .next => io.processNext upper

namespace GCodeIo

/-- The lines and the unfinished line are the text of the reads that decode, and
every line that is dispatched reaches its handler. -/
structure Kept (upper : Text → Text) (io : GCodeIo) : Prop where
  whole : '\n' ∉ io.partialInput
  unbroken : Unbroken '\n' (io.dispatched ++ io.waiting)
  text : closed '\n' (io.dispatched ++ io.waiting) ++ io.partialInput = decodedText io.reads
  handled : io.handled = io.dispatched.map (parseCommand upper)

def Settled (io : GCodeIo) : Prop := io.batch = none → io.pendingCommands = []

def Orderly (upper : Text → Text) (io : GCodeIo) : Prop := io.Kept upper ∧ io.Settled

variable {upper : Text → Text} {io after : GCodeIo}

theorem waiting_drain (done : io.batch.getD [] = []) : io.drain.waiting = io.waiting := by
  rw [drain, waiting, waiting, done]
  split
  case isTrue empty => simp [empty]
  · simp

theorem settled_drain (io : GCodeIo) : io.drain.Settled := by
  intro idle
  unfold drain at idle ⊢
  split
  case isTrue empty => exact empty
  case isFalse filled => simp [filled] at idle

theorem drain_cases (io : GCodeIo) :
    (io.pendingCommands = [] ∧ io.drain = { io with batch := none, fdHandle := true }) ∨
      (io.pendingCommands ≠ [] ∧ io.drain = { io with batch := some io.pendingCommands, pendingCommands := [] }) := by
  unfold drain
  split
  case isTrue empty => exact .inl ⟨empty, rfl⟩
  case isFalse filled => exact .inr ⟨filled, rfl⟩

theorem dispatched_drain (io : GCodeIo) : io.drain.dispatched = io.dispatched := by
  rcases drain_cases io with ⟨-, same⟩ | ⟨-, same⟩
  · rw [same]
  · rw [same]

variable (kept : Kept upper io)
include kept

/-- Nothing else than the lines together counts. -/
theorem Kept.of_waiting (waits : after.dispatched ++ after.waiting = io.dispatched ++ io.waiting)
    (unfinished : after.partialInput = io.partialInput) (read : after.reads = io.reads)
    (handled : after.handled = after.dispatched.map (parseCommand upper)) : Kept upper after where
  whole := by
    rw [unfinished]
    exact kept.whole
  unbroken := by
    rw [waits]
    exact kept.unbroken
  text := by
    rw [waits, unfinished, read]
    exact kept.text
  handled := handled

theorem Kept.drain (done : io.batch.getD [] = []) : Kept upper io.drain := by
  have waits : io.drain.dispatched ++ io.drain.waiting = io.dispatched ++ io.waiting := by
    rw [dispatched_drain, waiting_drain done]
  rcases drain_cases io with ⟨-, same⟩ | ⟨-, same⟩
  · exact kept.of_waiting waits (by rw [same]) (by rw [same]) (by rw [same]; exact kept.handled)
  · exact kept.of_waiting waits (by rw [same]) (by rw [same]) (by rw [same]; exact kept.handled)

theorem Kept.checkM112 (lines : List Text) : Kept upper (io.checkM112 lines) := by
  unfold GCodeIo.checkM112
  split
  · exact kept.of_waiting rfl rfl rfl kept.handled
  · exact kept

theorem Kept.receive {data : List UInt8} {text : Text} (decodes : decode data = some text) :
    Kept upper { io with
      reads := io.reads ++ [data]
      partialInput := (feed '\n' io.partialInput text).2
      pendingCommands := io.pendingCommands ++ (feed '\n' io.partialInput text).1 } := by
  obtain ⟨unbroken, whole, same⟩ := feed_spec text kept.whole
  have waits : io.dispatched ++ (io.batch.getD [] ++ (io.pendingCommands ++ (feed '\n' io.partialInput text).1)) =
      (io.dispatched ++ io.waiting) ++ (feed '\n' io.partialInput text).1 := by
    simp only [waiting, append_assoc]
  refine ⟨whole, ?_, ?_, kept.handled⟩
  · rw [waiting, waits, unbroken_append]
    exact ⟨kept.unbroken, unbroken⟩
  · rw [waiting, waits, closed_append, append_assoc, same, ← append_assoc, kept.text,
      decodedText_append, decodedText_singleton, decodes]
    rfl

theorem Kept.processData (settled : io.Settled) (data : List UInt8) :
    Kept upper (io.processData false data) ∧ (io.processData false data).Settled := by
  unfold GCodeIo.processData
  cases decodes : decode data with
  | none =>
    refine ⟨⟨kept.whole, kept.unbroken, ?_, kept.handled⟩, settled⟩
    rw [decodedText_append, decodedText_singleton, decodes]
    exact kept.text.trans (append_nil _).symm
  | some text =>
    have checked := (kept.receive decodes).checkM112 (feed '\n' io.partialInput text).1
    simp only [Bool.false_eq_true, and_false, if_false]
    split
    case isTrue idle => exact ⟨checked.drain (by rw [idle]; rfl), settled_drain _⟩
    case isFalse busy =>
      split
      · exact ⟨checked.of_waiting rfl rfl rfl checked.handled, fun idle => absurd idle busy⟩
      · exact ⟨checked, fun idle => absurd idle busy⟩

theorem Kept.processNext (moves : io.processNext upper = some after) :
    Kept upper after ∧ after.Settled := by
  unfold GCodeIo.processNext at moves
  split at moves
  · cases moves
  case h_2 done =>
    cases moves
    exact ⟨kept.drain (by rw [done]; rfl), settled_drain io⟩
  case h_3 line rest busy =>
    cases moves
    refine ⟨kept.of_waiting ?_ rfl rfl ?_, nofun⟩
    · simp [waiting, busy]
    · simp [kept.handled]

end GCodeIo

variable {upper : Text → Text}

theorem orderly_of_reachable {io : GCodeIo}
    (reached : Reachable (· = GCodeIo.initial) (step upper false) io) : io.Orderly upper := by
  refine reached.induct_invariant ?_ ?_
  · rintro _ rfl _
    exact ⟨⟨nofun, nofun, rfl, rfl⟩, fun _ => rfl⟩
  · rintro before input after - - moves ⟨kept, settled⟩
    cases input with
    | read data =>
      rw [step] at moves
      split at moves
      · cases moves
        exact kept.processData settled data
      · cases moves
    | next => exact kept.processNext moves

namespace GCodeIo

variable {io after : GCodeIo}

def Drains (upper : Text → Text) (io : GCodeIo) : Prop :=
  ∃ count done, run (step upper false) (fun _ => True) io (List.replicate count .next) = some done ∧
    done.batch = none ∧ done.dispatched = io.dispatched ++ io.waiting

def work (io : GCodeIo) : Nat :=
  match io.batch with
  | none => 0
  | some lines => lines.length + 1 + 2 * io.pendingCommands.length

theorem Drains.before (moves : io.processNext upper = some after)
    (same : after.dispatched ++ after.waiting = io.dispatched ++ io.waiting) (drains : Drains upper after) :
    Drains upper io := by
  obtain ⟨count, done, executes, idle, dispatched⟩ := drains
  refine ⟨count + 1, done, ?_, idle, dispatched.trans same⟩
  rw [replicate_succ, run, if_pos trivial, step, moves]
  exact executes

/-- A batch that has come to its end leaves less work. -/
theorem work_drain_lt (busy : io.batch = some []) : io.drain.work < io.work := by
  rcases drain_cases io with ⟨-, same⟩ | ⟨filled, same⟩
  · simp only [same, work, busy, length_nil]
    omega
  · have positive := length_pos_iff.mpr filled
    simp only [same, work, busy, length_nil]
    omega

theorem Kept.drains (io : GCodeIo) (kept : Kept upper io) (settled : io.Settled) : Drains upper io := by
  cases busy : io.batch with
  | none =>
    refine ⟨0, io, rfl, busy, ?_⟩
    rw [waiting, busy, settled busy]
    exact (append_nil _).symm
  | some lines =>
    cases lines with
    | nil =>
      have moves : io.processNext upper = some io.drain := by
        rw [GCodeIo.processNext, busy]
      have done : io.batch.getD [] = [] := by rw [busy]; rfl
      have next := Kept.drains io.drain (kept.drain done) (settled_drain io)
      exact next.before moves (by rw [dispatched_drain, waiting_drain done])
    | cons line rest =>
      have moves : io.processNext upper = some { io with
          batch := some rest
          dispatched := io.dispatched ++ [line]
          handled := io.handled ++ [parseCommand upper line] } := by
        rw [GCodeIo.processNext, busy]
      obtain ⟨keptNext, settledNext⟩ := kept.processNext moves
      exact (Kept.drains _ keptNext settledNext).before moves (by simp [waiting, busy])
termination_by io.work
decreasing_by
  · exact work_drain_lt busy
  · simp only [work, busy, length_cons]
    omega

end GCodeIo

/-- A read that does not decode on its own has no end of a line in it, and none
comes behind it. -/
def Harmless (reads : List (List UInt8)) : Prop :=
  ∀ front data back, reads = front ++ data :: back → decode data = none → 10 ∉ data ++ back.flatten

theorem lines_decoded_iff {reads : List (List UInt8)} {text : Text} (stream : reads.flatten = bytes text) :
    closedLines '\n' (decodedText reads) = closedLines '\n' text ↔ Harmless reads := by
  have newline : UInt8.ofNat '\n'.toNat = 10 := rfl
  rw [closedLines_eq_iff_bytes (by decide), bytes_decodedText, ← stream, newline,
    closedPart_filter_iff]
  · simp only [Option.isSome_eq_false_iff, Option.isNone_iff_eq_none]
    rfl
  · rintro data - missing rfl
    cases missing

/-- **The lines dispatched.** Once a stream has been read, the lines that were
dispatched and those that wait, which will be, are the lines of the stream exactly
if no read that starts or ends within a character matters for a line. -/
theorem lines_dispatched_iff (upper : Text → Text) {io : GCodeIo} {text : Text}
    (reached : Reachable (· = GCodeIo.initial) (step upper false) io) (stream : io.reads.flatten = bytes text) :
    (io.dispatched ++ io.waiting = closedLines '\n' text ↔ Harmless io.reads) ∧ io.Drains upper ∧
      io.handled = io.dispatched.map (parseCommand upper) := by
  obtain ⟨kept, settled⟩ := orderly_of_reachable reached
  refine ⟨?_, kept.drains io settled, kept.handled⟩
  rw [← lines_decoded_iff stream, ← kept.text, closedLines_closed_append kept.unbroken kept.whole]

/-- A command arrives while the first one is processed. -/
theorem lines_dispatched_iff_paused :
    ∃ io : GCodeIo, io.reads = [[77, 49, 10, 71], [50, 10]] ∧ io.batch = some [] ∧
      (io.dispatched ++ io.waiting = [['M', '1'], ['G', '2']] ↔ Harmless io.reads) := by
  obtain ⟨io, reached, read, busy⟩ := exists_reachable (· = GCodeIo.initial) (step (·.map Char.toUpper) false)
    .initial rfl [.read [77, 49, 10, 71], .next, .read [50, 10]]
    (fun io => io.reads = [[77, 49, 10, 71], [50, 10]] ∧ io.batch = some []) (by decide +kernel)
  have stream : io.reads.flatten = bytes ['M', '1', '\n', 'G', '2', '\n'] := by
    rw [read]
    decide +kernel
  have lines : closedLines '\n' ['M', '1', '\n', 'G', '2', '\n'] = [['M', '1'], ['G', '2']] := by decide +kernel
  refine ⟨io, read, busy, ?_⟩
  rw [← lines]
  exact (lines_dispatched_iff _ reached stream).1

/-- The line `é` comes in two reads, and neither of them decodes. -/
theorem line_lost :
    ∃ io, Reachable (· = GCodeIo.initial) (step id false) io ∧ io.reads = [[0xC3], [0xA9, 10]] ∧
      io.reads.flatten = bytes ['é', '\n'] ∧ closedLines '\n' ['é', '\n'] = [['é']] ∧
      io.batch = none ∧ io.dispatched = [] := by
  obtain ⟨io, reached, read, idle, dispatched⟩ := exists_reachable (· = GCodeIo.initial) (step id false)
    .initial rfl [.read [0xC3], .read [0xA9, 10]]
    (fun io => io.reads = [[0xC3], [0xA9, 10]] ∧ io.batch = none ∧ io.dispatched = []) (by decide +kernel)
  refine ⟨io, reached, read, ?_, by decide +kernel, idle, dispatched⟩
  rw [read]
  decide +kernel

end MagnetoX.Host.Gcode
