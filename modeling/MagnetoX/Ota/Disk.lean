import Mathlib.Data.List.AList
import Mathlib.Data.List.Perm.Subperm
import MagnetoX.Library.CrashLogic
import MagnetoX.Ota.Paths

/-!
Owns the machine that the update engine runs on: its files, the commands by which
the engine looks at them and changes them, and what the environment may make of a
command. A command may succeed, fail, or be the point at which the engine is killed or
power is lost; the last three may leave a half-written file behind.

Files are kept under their resolved paths. Directories exist as far as they are
needed, so that `mkdir -p` only counts as a command that can fail.
-/

namespace MagnetoX.Ota

open Library.CrashLogic

abbrev Content := Text

abbrev Files := AList (fun _ : Path => Content)

/-- What `write_status` records. The time stamp is left out. -/
structure Status where
  state : Text
  phase : Text
  version : Text
  error : Text
deriving DecidableEq, Repr

structure Machine where
  files : Files
  status : Option Status
  /-- Every path that has been read, written, deleted or searched so far. -/
  touched : List Path
deriving DecidableEq

inductive Command where
  /-- `[ -f path ]`, and `cat` or the reading side of `cp`. -/
  | read (path : Path)
  /-- `find . -type f` below a directory. -/
  | find (directory : Path)
  /-- `ls -1t` of a directory. -/
  | list (directory : Path)
  /-- The writing side of `cp`. -/
  | copyTo (path : Path) (content : Content)
  /-- `echo text > path`. -/
  | echo (path : Path) (text : Content)
  /-- `echo text >> path`. -/
  | echoAppend (path : Path) (text : Content)
  /-- `mv -f source dest`, an atomic rename. -/
  | rename (source dest : Path)
  /-- `rm -f path`. -/
  | remove (path : Path)
  /-- `rm -rf directory`. -/
  | removeTree (directory : Path)
  /-- A command without effect on the files: `mkdir -p`, `sync`, `apt-get`, ... -/
  | system
  /-- `write_status`. -/
  | report (status : Status)
deriving DecidableEq

/-- Most commands answer with their success. -/
abbrev Command.Resp : Command → Type
  | .read _ => Option Content
  | .find _ => List Path
  | .list _ => List Path
  | _ => Bool

abbrev Script := Prog Command.Resp

def Command.paths : Command → List Path
  | .read path => [path]
  | .find directory => [directory]
  | .list directory => [directory]
  | .copyTo path _ => [path]
  | .echo path _ => [path]
  | .echoAppend path _ => [path]
  | .rename source dest => [source, dest]
  | .remove path => [path]
  | .removeTree directory => [directory]
  | .system => []
  | .report _ => []

inductive Verdict where
  | succeeds
  | fails
  /-- The engine is killed, or power is lost. -/
  | cut
deriving DecidableEq, Repr

structure Fate where
  verdict : Verdict
  /-- What a write that does not succeed leaves in the file. -/
  left : Option Content
  /-- What an `rm -rf` that does not succeed has not yet removed. -/
  kept : Path → Bool
  /-- The order in which `find` comes across files. -/
  order : List Path → List Path
  /-- The order in which `ls -1t` lists directories, given the newest first. It is another
  one if the clock has been set back. -/
  listed : List Path → List Path

/-- How far the environment can go: what a write of a short text leaves in a file if it
does not succeed, given what a fate would leave there, and whether fates can make `ls -1t`
list older directories first. -/
structure Medium where
  echo : Path → Content → Option Content
  echoAppend : Path → Content → Option Content
  /-- The clock is never set back. -/
  steady : Bool

/-- When power is lost any part of a file may have reached the disk, but a file in
`unit` is written as one unit. -/
def powerLoss (unit : Path) : Medium where
  echo path left := if path = unit then none else some left
  echoAppend _ left := some left
  steady := false

/-- When a process is killed, or the disk is full, a file may have been truncated, but
a short text is written at once. The clock runs on. -/
def killed : Medium where
  echo _ _ := some []
  echoAppend _ _ := none
  steady := true

def Verdict.answer : Verdict → Option Bool
  | .succeeds => some true
  | .fails => some false
  | .cut => none

def below (files : Files) (directory : Path) : List Path :=
  (files.keys.filter (fun path => directory.isPrefixOf path)).map
    (fun path => path.drop directory.length)

/-- Neither `ls` nor `*` shows a name that begins with a dot. -/
def visible : Path → Bool
  | [] => false
  | name :: _ => name.head? ≠ some '.'

/-- The entries of a directory, those written to last before the others. -/
def entries (files : Files) (directory : Path) : List Path :=
  ((((below files directory).filter visible).map (fun path => path.take 1)).reverse.dedup).reverse

def removeAll (files : Files) (paths : List Path) : Files :=
  paths.foldl (fun files path => files.erase path) files

def rearranged (order : List Path → List Path) (paths : List Path) : List Path :=
  if (order paths).Perm paths then order paths else paths

/-- The file after a write: the whole content, or what is left of a write that does not
succeed. -/
def Fate.write (fate : Fate) (path : Path) (content : Content) (left : Option Content)
    (files : Files) : Files :=
  match fate.verdict, left with
  | .succeeds, _ => files.insert path content
  | _, some left => files.insert path left
  | _, none => files

def Command.effect (medium : Medium) (fate : Fate) (files : Files) : Command → Files
  | .read _ => files
  | .find _ => files
  | .list _ => files
  | .copyTo path content => fate.write path content fate.left files
  | .echo path text => fate.write path text (fate.left.bind (medium.echo path)) files
  | .echoAppend path text =>
      fate.write path ((files.lookup path).getD [] ++ text)
        (fate.left.bind (medium.echoAppend path)) files
  | .rename source dest =>
      match fate.verdict, files.lookup source with
      | .succeeds, some content => (files.erase source).insert dest content
      | _, _ => files
  | .remove path => if fate.verdict = .succeeds then files.erase path else files
  | .removeTree directory =>
      removeAll files (files.keys.filter (fun path => directory.isPrefixOf path &&
        (decide (fate.verdict = .succeeds) || !fate.kept path)))
  | .system => files
  | .report _ => files

/-- The answer of a command; none if the engine ends there. -/
def Command.answer (medium : Medium) (fate : Fate) (files : Files) :
    (command : Command) → Option command.Resp
  | .read path => if fate.verdict = .cut then none else some (files.lookup path)
  | .find directory =>
      if fate.verdict = .cut then none else some (rearranged fate.order (below files directory))
  | .list directory =>
      if fate.verdict = .cut then none
      else if medium.steady then some (entries files directory)
      else some (rearranged fate.listed (entries files directory))
  | .copyTo _ _ => fate.verdict.answer
  | .echo _ _ => fate.verdict.answer
  | .echoAppend _ _ => fate.verdict.answer
  | .rename source _ =>
      if (files.lookup source).isSome then fate.verdict.answer
      else if fate.verdict = .cut then none else some false
  | .remove _ => fate.verdict.answer
  | .removeTree _ => fate.verdict.answer
  | .system => fate.verdict.answer
  | .report _ => fate.verdict.answer

def Command.status (fate : Fate) (status : Option Status) : Command → Option Status
  | .report new => if fate.verdict = .succeeds then some new else status
  | _ => status

def step (medium : Medium) : Step Command.Resp Fate Machine := fun command fate machine =>
  (command.answer medium fate machine.files,
    { files := command.effect medium fate machine.files
      status := command.status fate machine.status
      touched := command.paths ++ machine.touched })

end MagnetoX.Ota
