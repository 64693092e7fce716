import MagnetoX.Ota.Disk

/-!
Owns the programs of the update engine `ota-update.sh`: `atomic_install`,
`restore_from_backup`, the two alternate modes and the phases of an update from the
version gate on.

The phases before, `phase_preflight` and `phase_download`, only look at the world and
write to the staging directory. The staged payload is given as contents.

`main` sources `ota.conf`. The documented options choose the release, which is given
here; any other line may make anything of the run, as it could move the install roots
or empty the denylist. The phases are those under the constants of the script. Every
run is assumed to be one of this engine, also after an update that has replaced
`ota-update.sh`.

Every script carries the phase and the version that `write_status` reports. A command
that may not fail ends the run through the `ERR` trap, with the line of the command.
-/

namespace MagnetoX.Ota

open Library.CrashLogic.Prog

def BACKUP_ROOT : Text := OTA_HOME ++ "/backup".toList
def LAST_BACKUP_FILE : Text := OTA_HOME ++ "/last-backup".toList
def APPLY_MARKER : Text := OTA_HOME ++ "/apply-in-progress".toList
def INSTALLED_VERSION_FILE : Text := OTA_HOME ++ "/installed-version".toList
def STATUS_FILE : Text := OTA_HOME ++ "/status".toList
def LOCK_FILE : Text := OTA_HOME ++ "/lock".toList
def STAGING_DIR : Text := OTA_HOME ++ "/staging".toList
def BACKUPS_TO_KEEP : Nat := 3
def OTA_CONF : Text := OTA_HOME ++ "/ota.conf".toList
def SYSTEMD_DIR : Text := "/etc/systemd/system".toList

def readFile (path : Path) : Script (Option Content) := perform (Command.read path)
def findFiles (directory : Path) : Script (List Path) := perform (Command.find directory)
def listEntries (directory : Path) : Script (List Path) := perform (Command.list directory)
def copyTo (path : Path) (content : Content) : Script Bool := perform (Command.copyTo path content)
def echo (path : Path) (text : Content) : Script Bool := perform (Command.echo path text)
def echoAppend (path : Path) (text : Content) : Script Bool :=
  perform (Command.echoAppend path text)
def rename (source dest : Path) : Script Bool := perform (Command.rename source dest)
def remove (path : Path) : Script Bool := perform (Command.remove path)
def removeTree (directory : Path) : Script Bool := perform (Command.removeTree directory)
def system : Script Bool := perform Command.system
def report (status : Status) : Script Bool := perform (Command.report status)

/-- What a status reports besides its state: `CURRENT_PHASE` and `TARGET_VERSION`. -/
structure Context where
  phase : Text
  version : Text
deriving DecidableEq, Repr

def writeStatus (context : Context) (state error : Text) : Script Bool :=
  report ⟨state, context.phase, context.version, error⟩

def die {α : Type} (context : Context) (message : Text) : Script α := do
  let _ ← writeStatus context "failed".toList message
  exit 1

def onErr {α : Type} (context : Context) (line : Nat) : Script α :=
  die context ("unexpected error in phase '".toList ++ context.phase ++ "' (line ".toList ++
    (toString line).toList ++ ")".toList)

def must (context : Context) (line : Nat) (command : Script Bool) : Script Unit := do
  if ← command then pure () else onErr context line

def phase (context : Context) : Script Unit :=
  must context 71 (writeStatus context "running".toList [])

/-- The lines that `while read` sees: those that end in a newline. -/
def lines (text : Content) : List Text := (text.splitOn '\n').dropLast

/-- `$(cat ...)` drops the newlines at the end. -/
def captured (text : Content) : Text := (text.reverse.dropWhile (· = '\n')).reverse

/-- The temporary name of `atomic_install`. -/
def temporary (dest : Text) : Text := dest ++ ".ota-new".toList

/-- Atomically install what `source` reads as `dest`. -/
def atomicInstall (source : Script (Option Content)) (dest : Text) : Script Bool := do
  if ← system then
    match ← source with
    | none => pure false
    | some content =>
        if ← copyTo (resolve (temporary dest)) content then
          if ← system then
            rename (resolve (temporary dest)) (resolve dest)
          else pure false
        else pure false
  else pure false

def restoreSaved (context : Context) (backupDir : Text) (found : Path) : Script Unit :=
  let rel := ['/'].intercalate found
  if rel = [] then pure ()
  else
    match destFor rel with
    | none => die context ("unmappable path in backup: ".toList ++ rel)
    | some dest => do
        if ← atomicInstall
            (readFile (resolve (backupDir ++ "/files/".toList ++ rel))) dest then pure ()
        else die context ("failed restoring ".toList ++ rel)

def removeCreated (context : Context) (rel : Text) : Script Unit :=
  if rel = [] then pure ()
  else
    match destFor rel with
    | none => pure ()
    | some dest => must context 211 (remove (resolve dest))

/-- The files recorded in a backup directory, which has to be complete. -/
def savedFiles (context : Context) (backupDir : Text) : Script (List Path) :=
  if backupDir = [] then die context "backup directory not found: ".toList
  else do
    let present ← findFiles (resolve backupDir)
    if present = [] then die context ("backup directory not found: ".toList ++ backupDir)
    else
      let complete ← readFile (resolve (backupDir ++ "/.backup-complete".toList))
      if complete = none then
        die context ("backup at ".toList ++ backupDir ++
          " is incomplete — refusing to restore from it".toList)
      else findFiles (resolve (backupDir ++ "/files".toList))

/-- Put them back, and delete files that were newly introduced by the failed update. -/
def putBack (context : Context) (backupDir : Text) (saved : List Path) : Script Unit := do
  forEach saved (restoreSaved context backupDir)
  let created ← readFile (resolve (backupDir ++ "/new-files.list".toList))
  forEach (lines (created.getD [])) (removeCreated context)
  must context 214 system

def restoreFromBackup (context : Context) (backupDir : Text) : Script Unit := do
  let saved ← savedFiles context backupDir
  putBack context backupDir saved

/-- The backup on record. -/
def lastBackup (context : Context) : Script Text := do
  let recorded ← readFile (resolve LAST_BACKUP_FILE)
  let backupDir := captured (recorded.getD [])
  if backupDir = [] then
    die context ("no backup on record (nothing in ".toList ++ LAST_BACKUP_FILE ++ ")".toList)
  else pure backupDir

def modeRestoreLast : Script Unit := do
  let context : Context := ⟨"restore-last".toList, []⟩
  let backupDir ← lastBackup context
  restoreFromBackup context backupDir
  must context 240 (remove (resolve APPLY_MARKER))
  must context 71 (writeStatus context "restored".toList [])

def modeVerifyOrRestore : Script Unit := do
  let context : Context := ⟨"verify".toList, []⟩
  match ← readFile (resolve APPLY_MARKER) with
  | none => exit 0
  | some marker =>
      restoreFromBackup context (captured marker)
      must context 258 (remove (resolve APPLY_MARKER))
      must context 71 (writeStatus context "restored".toList
        "previous update interrupted mid-apply; rolled back at boot".toList)

/-- A release: what its manifest says and the contents of its payload, by the names of
a path in it. The files are the lines that `jq -r '.files[]'` prints. -/
structure Release where
  version : Text
  manifest : Content
  files : List Text
  aptPackages : Text
  payload : Path → Content
  oneLine : ∀ rel ∈ files, '\n' ∉ rel

/-- Back up one file of the manifest, or note that it is new. -/
def backupOne (context : Context) (backupDir rel : Text) : Script Unit :=
  match destFor rel with
  | none => onErr context 421
  | some dest => do
      match ← readFile (resolve dest) with
      | some content =>
          must context 423 system
          if ← copyTo (resolve (backupDir ++ "/files/".toList ++ rel)) content then pure ()
          else die context ("failed backing up ".toList ++ dest)
      | none =>
          must context 426
            (echoAppend (resolve (backupDir ++ "/new-files.list".toList)) (rel ++ ['\n']))

/-- The end of `phase_backup`, when all files have been backed up. -/
def completeBackup (context : Context) (release : Release) (backupDir : Text) : Script Unit := do
  must context 430
    (copyTo (resolve (backupDir ++ "/manifest.json".toList)) release.manifest)
  must context 431 (echo (resolve (backupDir ++ "/.backup-complete".toList)) [])
  must context 432 system
  must context 433 (echo (resolve LAST_BACKUP_FILE) (backupDir ++ ['\n']))

def phaseBackup (release : Release) (backupDir : Text) : Script Unit := do
  let context : Context := ⟨"backup".toList, release.version⟩
  phase context
  must context 417 system
  must context 418 (echo (resolve (backupDir ++ "/new-files.list".toList)) [])
  forEach release.files (backupOne context backupDir)
  completeBackup context release backupDir

def applyOne (release : Release) (rel : Text) : Script Bool :=
  match destFor rel with
  | none => pure false
  | some dest => atomicInstall (pure (some (release.payload (names rel)))) dest

/-- Everything else first, the engine's own files last. -/
def applyOrder (files : List Text) : List Text :=
  files.filter (fun rel => !"ota/".toList.isPrefixOf rel) ++
    files.filter (fun rel => "ota/".toList.isPrefixOf rel)

/-- Apply a file; if that fails, roll back and end. -/
def applyOrRollBack (release : Release) (backupDir rel : Text) : Script Unit := do
  if ← applyOne release rel then pure ()
  else
    let context : Context := ⟨"rollback".toList, release.version⟩
    restoreFromBackup context backupDir
    must context 461 (remove (resolve APPLY_MARKER))
    let _ ← writeStatus context "rolled-back".toList
      ("apply failed at ".toList ++ rel ++ "; previous files restored".toList)
    exit 1

/-- `phase_apply` up to the removal of the marker. -/
def applyFiles (release : Release) (backupDir : Text) : Script Unit := do
  let context : Context := ⟨"apply".toList, release.version⟩
  phase context
  must context 449 (echo (resolve APPLY_MARKER) (backupDir ++ ['\n']))
  must context 450 system
  forEach (applyOrder release.files) (applyOrRollBack release backupDir)
  must context 470 (remove (resolve APPLY_MARKER))

def phaseApply (release : Release) (backupDir : Text) : Script Unit := do
  applyFiles release backupDir
  must ⟨"apply".toList, release.version⟩ 471 system

def phaseApt (release : Release) : Script Unit := do
  if release.aptPackages = [] then pure ()
  else
    let context : Context := ⟨"apt".toList, release.version⟩
    phase context
    if ← system then
      if ← system then pure ()
      else die context ("apt-get install failed (".toList ++ release.aptPackages ++ ")".toList)
    else die context "apt-get update failed".toList

/-- The loop of `prune_backups`, for what `ls -1t` has printed. -/
def pruneListed (context : Context) (listed : List Path) : Script Unit :=
  forEach (listed.drop BACKUPS_TO_KEEP) (fun directory =>
    must context 224 (removeTree (resolve BACKUP_ROOT ++ directory)))

def pruneBackups (context : Context) : Script Unit := do
  let listed ← listEntries (resolve BACKUP_ROOT)
  pruneListed context listed

/-- `rm -rf "${STAGING_DIR:?}"/*`. -/
def clearStaging (context : Context) : Script Unit := do
  let listed ← listEntries (resolve STAGING_DIR)
  forEach listed (fun entry => must context 508 (removeTree (resolve STAGING_DIR ++ entry)))

/-- Install a staged unit if it has changed. -/
def installUnit (context : Context) (unit : Text) : Script Bool := do
  match ← readFile (resolve (OTA_HOME ++ '/' :: unit)) with
  | none => pure false
  | some staged =>
      let installed ← readFile (resolve (SYSTEMD_DIR ++ '/' :: unit))
      if installed = some staged then pure false
      else
        must context 499 (copyTo (resolve (SYSTEMD_DIR ++ '/' :: unit)) staged)
        pure true

/-- The first step of `phase_finalize`. -/
def recordVersion (release : Release) : Script Unit := do
  let context : Context := ⟨"finalize".toList, release.version⟩
  phase context
  must context 489 (echo (resolve INSTALLED_VERSION_FILE) (release.version ++ ['\n']))

/-- The others: install the units, prune the backups, restart the services. -/
def cleanUp (release : Release) : Script Unit := do
  let context : Context := ⟨"finalize".toList, release.version⟩
  must context 490 system
  let update ← installUnit context "magneto-ota.service".toList
  let verify ← installUnit context "magneto-ota-verify.service".toList
  if update || verify then must context 504 system
  pruneBackups context
  clearStaging context
  must context 71 (writeStatus context "success".toList [])

def phaseFinalize (release : Release) : Script Unit := do
  recordVersion release
  cleanUp release

/-- How a run is started: `OTA_FORCE`, the order of `sort -V` (which of two versions it
puts last), the test for regular files, the top level of the payload, the time stamp, and
what the shell makes of an `ota.conf` that is not as documented. -/
structure Setting where
  force : Bool
  newest : Text → Text → Text
  test : FileTest
  payloadDir : Text
  tops : List Text
  stamp : Text
  undocumented : Content → Script Unit

/-- A line that is empty or a comment, or sets an option of `ota.conf.example` to a text in
which the shell expands nothing. -/
def documentedLine (line : Text) : Bool :=
  line.isEmpty || line.head? == some '#' ||
    ["OTA_REPO=\"", "OTA_CHANNEL=\"", "OTA_BASE_URL=\""].any fun option =>
      option.toList.isPrefixOf line && match (line.drop option.length).reverse with
        | '"' :: value => value.all (fun letter => !"\"\\$`".toList.contains letter)
        | _ => false

/-- The lines of `ota.conf`, if there is one, are documented. -/
def Documented (conf : Option Content) : Prop :=
  ∀ line ∈ (conf.getD []).splitOn '\n', documentedLine line = true

instance (conf : Option Content) : Decidable (Documented conf) :=
  inferInstanceAs (Decidable (∀ line ∈ _, _))

/-- `. "$OTA_CONF"`. -/
def sourceConf (setting : Setting) : Script Unit := do
  let conf ← readFile (resolve OTA_CONF)
  if Documented conf then pure ()
  else
    setting.undocumented (conf.getD [])
    exit 0

def upToDate (context : Context) : Script Unit := do
  must context 71 (writeStatus context "up-to-date".toList [])
  exit 0

/-- The version gate of `phase_resolve`. -/
def versionGate (setting : Setting) (release : Release) : Script Unit := do
  let context : Context := ⟨"resolve".toList, release.version⟩
  let recorded ← readFile (resolve INSTALLED_VERSION_FILE)
  let installed := captured (recorded.getD [])
  if setting.force ∨ installed = [] then pure ()
  else if installed = release.version then upToDate context
  else if setting.newest installed release.version = installed then upToDate context
  else pure ()

def backupDirFor (setting : Setting) (release : Release) : Text :=
  BACKUP_ROOT ++ '/' :: (release.version ++ '-' :: setting.stamp)

def installUpdate (setting : Setting) (release : Release) : Script Unit := do
  phaseBackup release (backupDirFor setting release)
  phaseApply release (backupDirFor setting release)
  phaseApt release
  phaseFinalize release

/-- `main` without an option, up to the phases that change files. -/
def updateTo (setting : Setting) (release : Release) (install : Script Unit) : Script Unit := do
  sourceConf setting
  versionGate setting release
  match phaseStage setting.test setting.payloadDir setting.tops release.files with
  | .error message => die ⟨"stage".toList, release.version⟩ message
  | .ok _ => install

def updateMain (setting : Setting) (release : Release) : Script Unit :=
  updateTo setting release (installUpdate setting release)

end MagnetoX.Ota
