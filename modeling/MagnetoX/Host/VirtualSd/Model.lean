import MagnetoX.Library.Run
import MagnetoX.Library.TextOffset

/-!
Owns the model of `klippy/extras/virtual_sdcard.py`: the file that is printed,
the timer callback `work_handler` with its loop, and the commands that load,
start, pause and cancel a print.

`work_handler` hands control to the reactor in every pass of its loop, so a
pass is one step and its variables are part of the state. What a pass finds
outside of this module (whether the G-Code mutex is taken, what the commands of
a line do) comes with the step. Text is a list of characters; `scripts` records
what `run_script` was given since the file was loaded.
-/

namespace MagnetoX.Host.VirtualSd

open Library.Lines Library.TextOffset

abbrev Text := List Char

/-- A file that `io.open(fname, 'r', newline='')` opened. The reader decodes
UTF-8 from a byte offset on: there is no text to be had from within a
character. -/
structure TextFile where
  contents : Text
  upcoming : Option Text
deriving DecidableEq, Repr

/-- A position that `seek` is given is a byte offset. -/
def TextFile.seek (f : TextFile) (position : Nat) : TextFile :=
  { f with upcoming := fromByte f.contents position }

/-- `read(count)` returns `count` characters unless the file ends, and fails if
the bytes do not decode. -/
def TextFile.read (f : TextFile) (count : Nat) : Option (Text × TextFile) :=
  f.upcoming.map (fun text => (text.take count, { f with upcoming := some (text.drop count) }))

inductive Note where
  | reset
  | setCurrentFile (filename : String)
  | noteStart
  | notePause
  | noteComplete
  | noteError (message : String)
  | noteCancel
deriving DecidableEq, Repr

/-- The variables of `work_handler`. The stack `lines` is written with its top
first. -/
structure Locals where
  partialInput : Text
  lines : List Text
deriving DecidableEq, Repr

/-- `work_timer`: none, registered, or its callback at the head of the loop. -/
inductive Work where
  | idle
  | registered
  | running (locals : Locals)
deriving DecidableEq, Repr

structure VirtualSD where
  currentFile : Option TextFile
  filePosition : Nat
  fileSize : Nat
  printStats : List Note
  mustPauseWork : Bool
  cmdFromSd : Bool
  nextFilePosition : Nat
  work : Work
  responses : List String
  scripts : List Text
deriving DecidableEq, Repr

namespace VirtualSD

def initial : VirtualSD where
  currentFile := none
  filePosition := 0
  fileSize := 0
  printStats := []
  mustPauseWork := false
  cmdFromSd := false
  nextFilePosition := 0
  work := .idle
  responses := []
  scripts := []

def note (sd : VirtualSD) (note : Note) : VirtualSD :=
  { sd with printStats := sd.printStats ++ [note] }

def respondRaw (sd : VirtualSD) (message : String) : VirtualSD :=
  { sd with responses := sd.responses ++ [message] }

def isActive (sd : VirtualSD) : Bool := decide (sd.work ≠ .idle)

def Paused (sd : VirtualSD) : Prop := sd.work = .idle ∧ sd.currentFile ≠ none

instance (sd : VirtualSD) : Decidable sd.Paused :=
  inferInstanceAs (Decidable (_ ∧ _))

def Completed (sd : VirtualSD) : Prop :=
  sd.work = .idle ∧ sd.printStats.getLast? = some .noteComplete ∧
    sd.responses.getLast? = some "Done printing file"

instance (sd : VirtualSD) : Decidable sd.Completed :=
  inferInstanceAs (Decidable (_ ∧ _ ∧ _))

/-- Called from elsewhere, `do_pause` then waits until the work has stopped. -/
def doPause (sd : VirtualSD) : VirtualSD :=
  if sd.isActive then { sd with mustPauseWork := true } else sd

/-- `do_cancel`, once the work has stopped or from a line of the file. -/
def doCancel (sd : VirtualSD) : VirtualSD :=
  match sd.currentFile with
  | none => { sd with filePosition := 0, fileSize := 0 }
  | some _ =>
      { (sd.doPause.note .noteCancel) with
        currentFile := none
        filePosition := 0
        fileSize := 0 }

def setFilePosition (sd : VirtualSD) (position : Nat) : VirtualSD :=
  { sd with nextFilePosition := position }

/-- It logs the text around the position in the file. -/
def handleShutdown (sd : VirtualSD) : VirtualSD :=
  if sd.isActive then
    let readpos := sd.filePosition - 1024
    let logs := fun (f : TextFile) =>
      let f := f.seek readpos
      ((f.read (sd.filePosition - readpos + 128)).map Prod.snd).getD f
    { sd with mustPauseWork := true, currentFile := sd.currentFile.map logs }
  else sd

/-- `work_handler` up to its loop. -/
def startWork (sd : VirtualSD) : VirtualSD :=
  match sd.currentFile with
  | none => { sd with work := .idle }
  | some f =>
      { (sd.note .noteStart) with
        currentFile := some (f.seek sd.filePosition)
        work := .running ⟨[], []⟩ }

/-- `work_handler` after its loop. -/
def finishWork (sd : VirtualSD) (errorMessage : Option String) : VirtualSD :=
  let sd := { sd with work := .idle, cmdFromSd := false }
  match errorMessage with
  | some message => sd.note (.noteError message)
  | none => if sd.currentFile ≠ none then sd.note .notePause else sd.note .noteComplete

def readData (sd : VirtualSD) (partialInput : Text) : VirtualSD :=
  match sd.currentFile.bind (fun f => f.read 8192) with
  | none => sd.finishWork none
  | some ([], _) =>
      -- End of file
      ({ sd with currentFile := none }.respondRaw "Done printing file").finishWork none
  | some (data, f) =>
      let (lines, partialInput) := feed '\n' partialInput data
      { sd with currentFile := some f, work := .running ⟨partialInput, lines⟩ }

/-- What the commands of a line, or of `on_error_gcode`, do to this module. -/
inductive Effect where
  | doPause
  | doCancel
  | setFilePosition (position : Nat)
deriving DecidableEq, Repr

def apply (sd : VirtualSD) : Effect → VirtualSD
  | .doPause => sd.doPause
  | .doCancel => sd.doCancel
  | .setFilePosition position => sd.setFilePosition position

/-- How `run_script` ends. After a G-Code error `on_error_gcode` is rendered and
run, with its effects; `none` if it does not render. -/
inductive Result where
  | ok
  | gcodeError (message : String) (onError : Option (Text × List Effect))
  | exception
deriving DecidableEq, Repr

structure Outcome where
  effects : List Effect
  result : Result
deriving DecidableEq, Repr

def runScript (sd : VirtualSD) (script : Text) (effects : List Effect) : VirtualSD :=
  effects.foldl apply { sd with scripts := sd.scripts ++ [script] }

def dispatch (sd : VirtualSD) (line : Text) (rest : Locals) (outcome : Outcome) : VirtualSD :=
  let nextFilePosition := sd.filePosition + line.length + 1
  let sd := { sd with cmdFromSd := true, nextFilePosition }.runScript line outcome.effects
  match outcome.result with
  | .gcodeError message none => sd.finishWork (some message)
  | .gcodeError message (some (script, effects)) =>
      (sd.runScript script effects).finishWork (some message)
  | .exception => sd.finishWork none
  | .ok =>
      let sd := { sd with cmdFromSd := false, filePosition := sd.nextFilePosition }
      -- Do we need to skip around?
      if sd.nextFilePosition ≠ nextFilePosition then
        match sd.currentFile with
        | none => { sd with work := .idle }
        | some f =>
            { sd with currentFile := some (f.seek sd.filePosition), work := .running ⟨[], []⟩ }
      else { sd with work := .running rest }

/-- What a pass of the loop finds: whether the mutex is taken, and how the
command that it dispatches ends. -/
structure Pass where
  busy : Bool
  outcome : Outcome
deriving DecidableEq, Repr

/-- One pass of the loop; none are made once `work_handler` has returned. -/
def pass (sd : VirtualSD) (p : Pass) : VirtualSD :=
  match sd.work with
  | .running ⟨partialInput, lines⟩ =>
      if sd.mustPauseWork then sd.finishWork none
      else
        match lines with
        | [] => sd.readData partialInput
        | line :: lines =>
            -- Pause if any other request is pending in the gcode class
            if p.busy then sd else sd.dispatch line ⟨partialInput, lines⟩ p.outcome
  | _ => sd

def workHandler (sd : VirtualSD) (passes : List Pass) : VirtualSD :=
  passes.foldl pass sd.startWork

structure Failure where
  message : String
  sd : VirtualSD
deriving DecidableEq, Repr

def doResume (sd : VirtualSD) : Except Failure VirtualSD :=
  if sd.isActive then .error ⟨"SD busy", sd⟩
  else .ok { sd with mustPauseWork := false, work := .registered }

/-- `_reset_file`, once the work has stopped. -/
def resetFile (sd : VirtualSD) : VirtualSD :=
  { (sd.note .reset) with currentFile := none, filePosition := 0, fileSize := 0 }

/-- The file of that name in the list of files, or else the last one whose name
differs only in case. -/
def lookupFile (lower : String → String) (files : List (String × Text)) (filename : String) :
    Option Text :=
  match files.find? (fun file => file.1 = filename) with
  | some file => some file.2
  | none => (files.reverse.find? (fun file => lower file.1 = lower filename)).map Prod.snd

def loadFile (sd : VirtualSD) (lower : String → String) (files : List (String × Text))
    (filename : String) : Except Failure VirtualSD :=
  match lookupFile lower files filename with
  | none => .error ⟨"Unable to open file", sd⟩
  | some contents =>
      let fsize := byteLength contents
      let sd := (sd.respondRaw s!"File opened:{filename} Size:{fsize}").respondRaw "File selected"
      .ok { (sd.note (.setCurrentFile filename)) with
        currentFile := some ((⟨contents, some []⟩ : TextFile).seek 0)
        filePosition := 0
        fileSize := fsize
        scripts := [] }

def withoutSlash (filename : String) : String :=
  match filename.toList with
  | '/' :: rest => String.ofList rest
  | _ => filename

def cmdM23 (sd : VirtualSD) (lower : String → String) (files : List (String × Text))
    (filename : String) : Except Failure VirtualSD :=
  if sd.isActive then .error ⟨"SD busy", sd⟩
  else sd.resetFile.loadFile lower files (withoutSlash filename)

/-- An empty name has no first character. -/
def cmdSdcardPrintFile (sd : VirtualSD) (lower : String → String) (files : List (String × Text))
    (filename : String) : Except Failure VirtualSD :=
  if sd.isActive then .error ⟨"SD busy", sd⟩
  else if filename = "" then .error ⟨"string index out of range", sd.resetFile⟩
  else (sd.resetFile.loadFile lower files (withoutSlash filename)).bind doResume

def cmdM24 (sd : VirtualSD) : Except Failure VirtualSD := sd.doResume

def cmdM25 (sd : VirtualSD) : VirtualSD := sd.doPause

def cmdM26 (sd : VirtualSD) (position : Nat) : Except Failure VirtualSD :=
  if sd.isActive then .error ⟨"SD busy", sd⟩ else .ok { sd with filePosition := position }

inductive Event where
  | cmdM23 (files : List (String × Text)) (filename : String)
  | cmdSdcardPrintFile (files : List (String × Text)) (filename : String)
  | cmdSdcardResetFile
  | cmdM24
  | cmdM25
  | cmdM26 (position : Nat)
  | doCancel
  | handleShutdown
  | workTimer
  | pass (p : Pass)
deriving DecidableEq, Repr

def Event.outcome (lower : String → String) (sd : VirtualSD) :
    Event → Except Failure VirtualSD
  | .cmdM23 files filename => sd.cmdM23 lower files filename
  | .cmdSdcardPrintFile files filename => sd.cmdSdcardPrintFile lower files filename
  | .cmdSdcardResetFile => .ok sd.resetFile
  | .cmdM24 => sd.cmdM24
  | .cmdM25 => .ok sd.cmdM25
  | .cmdM26 position => sd.cmdM26 position
  | .doCancel => .ok sd.doCancel
  | .handleShutdown => .ok sd.handleShutdown
  | .workTimer => .ok sd.startWork
  | .pass p => .ok (sd.pass p)

/-- The timer fires while it is registered and passes are made while the loop
runs. A command that closes the file waits for the work to stop. -/
def Event.enabled (sd : VirtualSD) : Event → Bool
  | .cmdSdcardResetFile => !sd.isActive
  | .doCancel => !sd.isActive
  | .workTimer => decide (sd.work = .registered)
  | .pass _ => decide (sd.work ≠ .idle ∧ sd.work ≠ .registered)
  | _ => true

def step (lower : String → String) (sd : VirtualSD) (event : Event) : Option VirtualSD :=
  if event.enabled sd then
    match event.outcome lower sd with
    | .ok after => some after
    | .error failure => some failure.sd
  else none

end VirtualSD

end MagnetoX.Host.VirtualSd
