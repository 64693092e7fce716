import MagnetoX.Library.Lines
import MagnetoX.Library.Search

/-!
Owns the model of the autosave part of `klippy/configfile.py`: how the autosave
block is found in a config file, how fields that are saved are commented out of
the rest of it, and the command `SAVE_CONFIG` with the files that it writes.

Texts are lists of characters. Python's `configparser` is not part of the source:
a parsed file is its sections with their options, and `_build_config_wrapper`,
which parses a text together with the files it includes, is a parameter.
-/

namespace MagnetoX.Host.ConfigFile

open Library.Search

abbrev Text := List Char

/-- The characters that `str.strip` and `str.isspace` take for white space. -/
def isSpace (c : Char) : Bool :=
  c.val ∈ [0x09, 0x0A, 0x0B, 0x0C, 0x0D, 0x1C, 0x1D, 0x1E, 0x1F, 0x20, 0x85, 0xA0, 0x1680, 0x2000,
    0x2001, 0x2002, 0x2003, 0x2004, 0x2005, 0x2006, 0x2007, 0x2008, 0x2009, 0x200A, 0x2028, 0x2029,
    0x202F, 0x205F, 0x3000]

/-- `configparser.RawConfigParser`: the options of the section `DEFAULT` and the
other sections, in order. -/
structure FileConfig where
  defaults : List (Text × Text)
  sections : List (Text × List (Text × Text))
deriving DecidableEq, Repr

def optionxform (option : Text) : Text := option.map Char.toLower

def hasKey (items : List (Text × Text)) (option : Text) : Bool :=
  items.any (fun item => item.1 = option)

def FileConfig.hasOption (c : FileConfig) (parent : Option Text) (option : Text) : Bool :=
  let option := optionxform option
  match parent with
  | none => hasKey c.defaults option
  | some name =>
      if name = [] ∨ name = "DEFAULT".toList then hasKey c.defaults option
      else
        match c.sections.find? (fun entry => entry.1 = name) with
        | none => false
        | some entry => hasKey entry.2 option || hasKey c.defaults option

def indentLines (value : Text) : Text :=
  value.flatMap (fun c => if c = '\n' then ['\n', '\t'] else [c])

def writeSection (name : Text) (items : List (Text × Text)) : Text :=
  "[".toList ++ name ++ "]\n".toList ++
    items.flatMap (fun item => item.1 ++ " = ".toList ++ indentLines item.2 ++ ['\n']) ++ ['\n']

def FileConfig.write (c : FileConfig) : Text :=
  (if c.defaults = [] then [] else writeSection "DEFAULT".toList c.defaults) ++
    c.sections.flatMap (fun entry => writeSection entry.1 entry.2)

def buildConfigString (c : FileConfig) : Text := strip isSpace c.write

/-- A file that is opened as text is read with every line end as a newline. -/
def universalNewlines : Text → Text
  | '\r' :: '\n' :: rest => '\n' :: universalNewlines rest
  | '\r' :: rest => '\n' :: universalNewlines rest
  | c :: rest => c :: universalNewlines rest
  | [] => []

def replaceLineEnds : Text → Text
  | '\r' :: '\n' :: rest => '\n' :: replaceLineEnds rest
  | c :: rest => c :: replaceLineEnds rest
  | [] => []

def readConfigFile (file : Text) : Text := replaceLineEnds (universalNewlines file)

theorem not_mem_universalNewlines (file : Text) : '\r' ∉ universalNewlines file := by
  fun_induction universalNewlines file <;> simp_all [eq_comm]

theorem universalNewlines_of_not_mem {file : Text} (free : '\r' ∉ file) :
    universalNewlines file = file := by
  fun_induction universalNewlines file <;> simp_all

theorem replaceLineEnds_of_not_mem {data : Text} (free : '\r' ∉ data) :
    replaceLineEnds data = data := by
  fun_induction replaceLineEnds data <;> simp_all

theorem not_mem_readConfigFile (file : Text) : '\r' ∉ readConfigFile file := by
  rw [readConfigFile, replaceLineEnds_of_not_mem (not_mem_universalNewlines file)]
  exact not_mem_universalNewlines file

theorem readConfigFile_of_not_mem {file : Text} (free : '\r' ∉ file) : readConfigFile file = file := by
  rw [readConfigFile, replaceLineEnds_of_not_mem (not_mem_universalNewlines file),
    universalNewlines_of_not_mem free]

def autosaveHeader : Text :=
  "\n#*# ".toList ++ "<---------------------- SAVE_CONFIG ---------------------->\n".toList ++
    "#*# DO NOT EDIT THIS BLOCK OR BELOW. The contents are auto-generated.\n".toList ++ "#*#\n".toList

/-- The start of a line of an autosave block. -/
def autosaveMark : Text := "\n#*# ".toList

def modified (line : Text) : Bool :=
  !"#*#".toList.isPrefixOf line || (decide (4 ≤ line.length) && !"#*# ".toList.isPrefixOf line)

def atHeader (data : Text) : Text × Text :=
  match cut autosaveHeader data with
  | some (before, after) => (before, strip isSpace after)
  | none => (data, [])

def findAutosaveData (data : Text) : Text × Text :=
  let regularData := (atHeader data).1
  let autosaveData := (atHeader data).2
  let lines := autosaveData.splitOn '\n'
  -- Check for errors and strip line prefixes
  if occurs autosaveMark regularData then
    -- autosave state corrupted
    (data, [])
  else if autosaveData ≠ [] ∧ lines.any modified then
    -- modifications after header
    (data, [])
  else (regularData, ['\n'].intercalate ([[]] ++ lines.map (List.drop 4) ++ [[]]))

/-- What `_strip_duplicates` carries from line to line. -/
structure Place where
  parent : Option Text
  isDupField : Bool
deriving DecidableEq, Repr

/-- `comment_r` and `rstrip` applied to a line. -/
def prunedLine (line : Text) : Text :=
  rstrip isSpace (line.takeWhile (fun c => c ≠ '#' ∧ c ≠ ';'))

/-- `value_r` applied to a line. -/
def fieldName (prunedLine : Text) : Text :=
  prunedLine.takeWhile (fun c => c.isAlphanum || c = '_')

def stripLine (config : FileConfig) (place : Place) (line : Text) : Place × Text :=
  match prunedLine line with
  | [] => (place, line)
  | first :: rest =>
      if isSpace first then (place, if place.isDupField then '#' :: line else line)
      else if first = '[' then (⟨some (strip isSpace rest.dropLast), false⟩, line)
      else if config.hasOption place.parent (fieldName (first :: rest)) then
        (⟨place.parent, true⟩, '#' :: line)
      else (⟨place.parent, false⟩, line)

def stripLines (config : FileConfig) : Place → List Text → List Text
  | _, [] => []
  | place, line :: lines =>
      let (place, line) := stripLine config place line
      line :: stripLines config place lines

/-- Comment out fields in `data` that are defined in `config`. -/
def stripDuplicates (data : Text) (config : FileConfig) : Text :=
  ['\n'].intercalate (stripLines config ⟨none, false⟩ (data.splitOn '\n'))

def savedLine (l : Text) : Text := strip isSpace ("#*# ".toList ++ l)

def autosaveBlock (autosaveData : Text) : Text :=
  let lines := (autosaveData.splitOn '\n').map savedLine
  ['\n'].intercalate ((['\n'] ++ rstrip isSpace autosaveHeader) :: lines ++ [[]])

/-- An option of the autosave data that `config` defines as well. -/
def includeConflict (autosave config : FileConfig) : Option (Text × Text) :=
  let options := autosave.sections.flatMap (fun entry =>
    (entry.2 ++ autosave.defaults).map (fun item => (entry.1, item.1)))
  options.find? (fun option => config.hasOption (some option.1) option.2)

abbrev Files := Text → Option Text

def Files.set (files : Files) (name : Text) (contents : Option Text) : Files :=
  fun other => if other = name then contents else files other

def Files.rename (files : Files) (source target : Text) : Files :=
  (files.set target (files source)).set source (if source = target then files source else none)

/-- The names of the backup and of the temporary file; the date starts with a dash. -/
def backupNames (cfgname stamp : Text) : Text × Text :=
  let datestr := '-' :: stamp
  if ".cfg".toList <:+ cfgname then
    let base := cfgname.take (cfgname.length - 4)
    (base ++ datestr ++ ".cfg".toList, base ++ "_autosave.cfg".toList)
  else (cfgname ++ datestr, cfgname ++ "_autosave".toList)

def savedData (build : Text → Option FileConfig) (autosave : FileConfig) (data : Text) :
    Except String Text :=
  let regularData := (findAutosaveData data).1
  match build regularData with
  | none => .error "Unable to parse existing config on SAVE_CONFIG"
  | some _ =>
      let regularData := stripDuplicates regularData autosave
      match build regularData with
      | none => .error "Internal error on command:\"SAVE_CONFIG\""
      | some config =>
          match includeConflict autosave config with
          | some (parent, option) =>
              let parent := String.ofList parent
              let option := String.ofList option
              .error s!"SAVE_CONFIG section '{parent}' option '{option}' conflicts with included value"
          | none =>
              .ok (rstrip isSpace regularData ++ autosaveBlock (buildConfigString autosave))

/-- Create new config file with temporary name and swap with main config. -/
def swapConfig (files : Files) (cfgname stamp data : Text) : Files :=
  let (backupName, tempName) := backupNames cfgname stamp
  ((files.set tempName (some data)).rename cfgname backupName).rename tempName cfgname

/-- `SAVE_CONFIG` in the case that every file operation succeeds. -/
def cmdSaveConfig (build : Text → Option FileConfig) (autosave : FileConfig) (files : Files)
    (cfgname stamp : Text) : Except String Files :=
  if autosave.sections = [] then .ok files
  else
    match files cfgname with
    | none => .error "Unable to parse existing config on SAVE_CONFIG"
    | some file =>
        (savedData build autosave (readConfigFile file)).map (swapConfig files cfgname stamp)

end MagnetoX.Host.ConfigFile
