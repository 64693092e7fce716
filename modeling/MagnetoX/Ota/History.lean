import MagnetoX.Ota.Update

/-!
Owns histories of the engine: updates, `--restore-last` and `--verify-or-restore` runs, one
after the other, each of which may complete, fail or be killed at any point.
-/

namespace MagnetoX.Ota

open Library.CrashLogic Library.CrashLogic.Prog List

inductive Task where
  | update (setting : Setting) (release : Release)
  | restoreLast
  | verifyOrRestore

def Task.script : Task → Script Unit
  | .update setting release => updateMain setting release
  | .restoreLast => modeRestoreLast
  | .verifyOrRestore => modeVerifyOrRestore

structure Event where
  task : Task
  fates : List Fate

def Event.ending (event : Event) (machine : Machine) : Ending Fate Machine Unit :=
  event.task.script.run (step killed) event.fates machine

def Event.after (event : Event) (machine : Machine) : Machine := (event.ending machine).state

/-- The states after histories every event of which is admitted where it begins. -/
inductive Reached (admits : Machine → Event → Prop) (start : Machine) : Machine → Prop where
  | start : Reached admits start start
  | next {machine : Machine} {event : Event} (before : Reached admits start machine)
      (admitted : admits machine event) : Reached admits start (event.after machine)

theorem Reached.induct_invariant {admits : Machine → Event → Prop} {start machine : Machine}
    {invariant : Machine → Prop} (reached : Reached admits start machine)
    (initially : invariant start)
    (preserved : ∀ before event, admits before event → invariant before →
      invariant (event.after before)) : invariant machine := by
  induction reached with
  | start => exact initially
  | next _ admitted ih => exact preserved _ _ admitted ih

/-- The manifest passes `phase_stage`. -/
def Accepted (setting : Setting) (release : Release) : Prop :=
  phaseStage setting.test setting.payloadDir setting.tops release.files = .ok ()

/-- An update that can be carried out: if its manifest is accepted, its entries name plain
files, the options are documented, and the backup gets a directory of its own. -/
structure Proper (setting : Setting) (release : Release) (machine : Machine) : Prop where
  plain : Accepted setting release → ∀ rel ∈ release.files, Plain (place rel)
  documented : Documented (machine.files.lookup (resolve OTA_CONF))
  slash : '/' ∉ backupName setting release
  newline : '\n' ∉ backupName setting release
  fresh : ∀ path, backupAt (backupName setting release) <+: path →
    machine.files.lookup path = none

def Looked (before after : Machine) : Prop :=
  after.files = before.files ∧ ∀ path ∈ after.touched, path ∈ before.touched ∨ OfEngine path

/-- What a run of `main` leaves behind: it may not have got past the version gate and the
checks of the manifest. -/
inductive MainLeft (setting : Setting) (release : Release) (began : Machine → Prop)
    (before after : Machine) : Prop where
  | refused (looked : Looked before after)
  | begun (accepted : Accepted setting release) (left : began after)

section Main

variable {medium : Medium} {setting : Setting} {release : Release} {before middle after : Machine} {path : Path}

theorem Looked.refl (machine : Machine) : Looked machine machine := ⟨rfl, fun _ member => .inl member⟩

theorem Looked.touch (looked : Looked before after) (own : OfEngine path) : Looked before (after.touch path) := by
  refine ⟨looked.1, ?_⟩
  intro other member
  rcases mem_cons.mp member with rfl | earlier
  · exact .inr own
  · exact looked.2 other earlier

theorem sourceConf_wp (documented : Documented (before.files.lookup (resolve OTA_CONF))) :
    (sourceConf setting).wp (step medium)
      (.returning (fun _ after => after = before.touch (resolve OTA_CONF)) (Looked before)) before := by
  have begins := Looked.refl before
  apply wp_do.mpr
  apply wp_readFile begins (begins.touch (.inr (.head _)))
  dsimp only
  rw [if_pos documented]
  rfl

/-- The version gate only reads the record. If it ends the run normally, the record names
the release or a newer one. -/
theorem versionGate_wp (begins : Looked before middle) :
    (versionGate setting release).wp (step medium)
      ⟨fun _ after => after = middle.touch (resolve INSTALLED_VERSION_FILE),
        fun code after => Looked before after ∧
          (code = 0 → recordOf middle INSTALLED_VERSION_FILE ≠ [] ∧
            (recordOf middle INSTALLED_VERSION_FILE = release.version ∨
              setting.newest (recordOf middle INSTALLED_VERSION_FILE) release.version =
                recordOf middle INSTALLED_VERSION_FILE)), Looked before⟩ middle := by
  have read := begins.touch (.inl own_version)
  have answers : ∀ {returns : Unit → Machine → Prop} {answer : Prop} context, answer →
      (upToDate context).wp (step medium)
        ⟨returns, fun code after => Looked before after ∧ (code = 0 → answer), Looked before⟩
        (middle.touch (resolve INSTALLED_VERSION_FILE)) := by
    intro _ _ context holds
    apply wp_do.mpr
    apply wp_must_report _ read
    · exact ⟨read, fun _ => holds⟩
    · exact fun _ _ looked _ => ⟨looked, nofun⟩
  unfold versionGate
  apply wp_do.mpr
  apply wp_readFile begins read
  dsimp only
  rw [← recordOf]
  split
  · rfl
  · rename_i goesOn
    have named : recordOf middle INSTALLED_VERSION_FILE ≠ [] := fun empty => goesOn (.inr empty)
    split
    · rename_i same
      exact answers _ ⟨named, .inl same⟩
    · split
      · rename_i newer
        exact answers _ ⟨named, .inr newer⟩
      · rfl

abbrev Machine.begun (machine : Machine) : Machine :=
  (machine.touch (resolve OTA_CONF)).touch (resolve INSTALLED_VERSION_FILE)

variable (proper : Proper setting release before)
include proper

theorem Proper.orderly (accepted : Accepted setting release) : Orderly setting release before.begun :=
  ⟨fun rel isFile => ⟨phaseStage_installs accepted isFile, proper.plain accepted rel isFile⟩,
    proper.slash, proper.newline, proper.fresh⟩

/-- What holds of the phases, from where the manifest has been accepted. -/
theorem updateTo_wp {install : Script Unit} {returned : Unit → Machine → Prop} {began : Machine → Prop}
    (installs : Orderly setting release before.begun →
      install.wp (step medium) (.returning returned began) before.begun) :
    (updateTo setting release install).wp (step medium)
      (.returning (fun value after => Accepted setting release ∧ returned value after)
        (MainLeft setting release began before)) before := by
  have sourced := (Looked.refl before).touch (.inr (.head _))
  have looked := sourced.touch (.inl own_version)
  apply wp_do.mpr
  apply wp_imp (sourceConf_wp proper.documented)
  · rintro _ _ rfl
    apply wp_do.mpr
    apply wp_mono (versionGate_wp sourced)
    · rintro _ _ rfl
      dsimp only
      split
      · apply wp_do.mpr
        exact wp_report (.refused looked) (.refused looked) (.refused looked)
      · rename_i accepted
        apply wp_imp (installs (proper.orderly accepted))
        · exact fun _ _ holds => ⟨accepted, holds⟩
        · exact fun _ left => .begun accepted left
    · exact fun _ _ left => .refused left.1
    · exact fun _ left => .refused left
  · exact fun _ left => .refused left

/-- **An update**, from the version gate on. -/
theorem MainLeft.of_event {fates : List Fate} :
    MainLeft setting release (UpdateLeft killed setting release before.begun) before
      (Event.after ⟨.update setting release, fates⟩ before) := by
  have meets := run_meets (@updateTo_wp killed _ _ _ proper _ _ _ installUpdate_wp) fates
  exact meets.state (fun _ _ ⟨accepted, left⟩ => .begun accepted left) (fun _ _ same => same)
    (fun _ same => same)

theorem Proper.places_plain (accepted : Accepted setting release) : ∀ path ∈ release.places, Plain path := by
  intro path isPlace
  obtain ⟨rel, isFile, rfl⟩ := mem_map.mp isPlace
  exact proper.plain accepted rel isFile

end Main

section Restores

variable {machine : Machine} {places : List Path} {view : View} {fates : List Fate}

theorem RestoreLeft.of_restoreLast (restorable : recordOf machine LAST_BACKUP_FILE ≠ [] →
      Restorable machine (recordOf machine LAST_BACKUP_FILE) places view) :
    RestoreLeft places view (resolve (recordOf machine LAST_BACKUP_FILE)) machine
      (Event.after ⟨.restoreLast, fates⟩ machine) := by
  have meets := run_meets (@modeRestoreLast_wp killed machine places view restorable) fates
  exact meets.state (fun _ _ ⟨_, done⟩ => .restored done)
    (fun _ _ left => left) (fun _ left => left)

theorem RestoreLeft.of_verify (restorable : recordOf machine APPLY_MARKER ≠ [] →
      Restorable machine (recordOf machine APPLY_MARKER) places view) :
    RestoreLeft places view (resolve (recordOf machine APPLY_MARKER)) machine
      (Event.after ⟨.verifyOrRestore, fates⟩ machine) := by
  have meets := run_meets (@modeVerifyOrRestore_wp killed machine places view restorable) fates
  exact meets.state (fun _ _ ⟨_, done⟩ => .restored done)
    (fun _ _ left => left.1) (fun _ left => left)

end Restores

section Own

variable {medium : Medium} {release : Release} {setting : Setting} {backupDir name other : Text}
  {before after : Machine} {places : List Path} {path : Path}

theorem below_root (inside : backupAt other <+: path) : resolve BACKUP_ROOT <+: path :=
  IsPrefix.trans (prefix_append _ _) inside

theorem BackingUp.other_backup (backing : BackingUp release (backupAt name) before after)
    (different : other ≠ name) (inside : backupAt other <+: path) :
    after.files.lookup path = before.files.lookup path :=
  backing.others path (fun also => different (backupAt_unique inside also))
    (not_record_of_backup (below_root inside))

/-- Complete backups stay what they are while files are replaced or put back. -/
theorem Frame.captures (frame : Frame (resolve APPLY_MARKER :: places) before after)
    (plain : ∀ path ∈ places, Plain path)
    (complete : after.files.lookup (backupAt other ++ [COMPLETE]) ≠ none) :
    before.files.lookup (backupAt other ++ [COMPLETE]) ≠ none ∧
      ∀ {more view}, Captures before.files (backupAt other) more view →
        Captures after.files (backupAt other) more view := by
  have same : ∀ path, backupAt other <+: path →
      after.files.lookup path = before.files.lookup path :=
    fun path inside => frame.backup plain (below_root inside)
  rw [same _ (prefix_append _ _)] at complete
  exact ⟨complete, fun captures => captures.congr same⟩

theorem Snapshot.restorable {view : View}
    (snapshot : Snapshot before.files (backupAt name) places view)
    (plain : ∀ path ∈ places, Plain path) (isDir : resolve backupDir = backupAt name) :
    Restorable before backupDir places view := by
  refine ⟨?_, ?_, plain⟩
  · rw [isDir]
    exact fun _ => snapshot.toCaptures
  · rw [isDir]
    exact prefix_append _ _

theorem ApplyLeft.frame (left : ApplyLeft medium release backupDir before after) :
    Frame (resolve APPLY_MARKER :: release.places) before after := by
  cases left with
  | idle frame _ =>
    apply frame.mono
    intro path member
    rw [mem_singleton.mp member]
    exact .head _
  | applying frame _ _ => exact frame
  | undone frame _ _ => exact frame

/-- A complete backup after an update is the new one, which shows the files as they were,
or what is left of an earlier one. -/
theorem UpdateLeft.backups (plain : ∀ path ∈ release.places, Plain path)
    (left : UpdateLeft medium setting release before after) (other : Text)
    (complete : after.files.lookup (backupAt other ++ [COMPLETE]) ≠ none) :
    (other = backupName setting release ∧ Captures after.files (backupAt other) release.places before.files.lookup) ∨
      before.files.lookup (backupAt other ++ [COMPLETE]) ≠ none ∧
        ∀ {places view}, Captures before.files (backupAt other) places view →
          Captures after.files (backupAt other) places view := by
  by_cases isNew : other = backupName setting release
  · subst isNew
    left
    refine ⟨rfl, ?_⟩
    rcases left with (left | ⟨saved, backed, record, left⟩) |
      ⟨saved, applied, ⟨backed, record, frame, marker, installed⟩, left⟩
    · rcases left with unfinished | ⟨backed, _⟩
      · exact absurd unfinished.incomplete complete
      · exact backed.snapshot.toCaptures
    · apply backed.snapshot.toCaptures.congr
      exact fun path inside => left.frame.backup plain (below_root inside)
    · apply Captures.mono backed.snapshot.toCaptures
      intro path content inside present
      rw [← frame.backup plain (below_root inside)]
      exact left.backups path content (below_root inside) present
  · have fewer : ∀ path content, backupAt other <+: path →
        after.files.lookup path = some content → before.files.lookup path = some content := by
      intro path content inside present
      rcases left with (left | ⟨saved, backed, record, left⟩) |
        ⟨saved, applied, ⟨backed, record, frame, marker, installed⟩, left⟩
      · rwa [left.backing.other_backup isNew inside] at present
      · rwa [left.frame.backup plain (below_root inside),
          backed.other_backup isNew inside] at present
      · have before := left.backups path content (below_root inside) present
        rwa [frame.backup plain (below_root inside), backed.other_backup isNew inside] at before
    obtain ⟨content, isContent⟩ := Option.ne_none_iff_exists'.mp complete
    have earlier := fewer _ content (prefix_append _ _) isContent
    exact .inr ⟨Option.ne_none_iff_exists'.mpr ⟨content, earlier⟩,
      fun captures => captures.mono fewer⟩

/-- A record after an update is as before, names nothing, or names the new backup. -/
def Renamed (backupDir : Text) (file : Text) (before after : Machine) : Prop :=
  after.files.lookup (resolve file) = before.files.lookup (resolve file) ∨
    recordOf after file = [] ∨ after.files.lookup (resolve file) = some (backupDir ++ ['\n'])

theorem recordOf_torn {file left rest : Text} (isRest : killed.echo (resolve file) left = some rest)
    (torn : after.files.lookup (resolve file) = some rest) : recordOf after file = [] := by
  cases isRest
  rw [recordOf, torn]
  rfl

theorem UpdateLeft.lastBackup (plain : ∀ path ∈ release.places, Plain path)
    (left : UpdateLeft killed setting release before after) :
    Renamed (backupDirFor setting release) LAST_BACKUP_FILE before after := by
  rcases left with (left | ⟨saved, backed, record, left⟩) |
    ⟨saved, applied, ⟨backed, record, frame, marker, installed⟩, left⟩
  · rcases left with unfinished | ⟨_, same | ⟨left, rest, isRest, torn⟩⟩
    · exact .inl unfinished.record
    · exact .inl same
    · exact .inr (.inl (recordOf_torn isRest torn))
  · right
    right
    rw [left.frame.own_record plain own_lastBackup (by decide)]
    exact record
  · right
    right
    rw [left.records _ (by decide) (by decide), frame.own_record plain own_lastBackup (by decide)]
    exact record

section

variable (backing : BackingUp release (backupAt name) before after)
include backing

theorem BackingUp.own_file (isRecord : path ∈ ownFiles)
    (notRecord : path ≠ resolve LAST_BACKUP_FILE) :
    after.files.lookup path = before.files.lookup path :=
  backing.others path
    (fun inside => (ownFiles_not_below path isRecord).1 (below_root inside)) notRecord

theorem BackingUp.marker :
    after.files.lookup (resolve APPLY_MARKER) = before.files.lookup (resolve APPLY_MARKER) :=
  backing.own_file (by decide) (by decide)

theorem BackingUp.version :
    after.files.lookup (resolve INSTALLED_VERSION_FILE) =
      before.files.lookup (resolve INSTALLED_VERSION_FILE) :=
  backing.own_file (by decide) (by decide)

end

theorem UpdateLeft.marker (left : UpdateLeft killed setting release before after) :
    Renamed (backupDirFor setting release) APPLY_MARKER before after := by
  rcases left with (left | ⟨saved, backed, record, left⟩) |
    ⟨saved, applied, ⟨backed, record, frame, marker, installed⟩, left⟩
  · exact .inl left.backing.marker
  · cases left with
    | idle _ marker =>
      rcases marker with same | ⟨left, rest, isRest, torn⟩
      · exact .inl (same.trans backed.marker)
      · exact .inr (.inl (recordOf_torn isRest torn))
    | applying _ marker _ => exact .inr (.inr marker)
    | undone _ marker _ => exact .inr (.inl (recordOf_none marker))
  · right
    left
    apply recordOf_none
    rw [left.records _ (by decide) (by decide)]
    exact marker

/-- Everything that an update touches. -/
theorem UpdateLeft.touched (left : UpdateLeft medium setting release before after) :
    ∀ path ∈ after.touched, (path ∈ before.touched ∨ Allowed release.places path) ∨ OfEngine path := by
  have unmarked : ∀ {path}, Allowed (resolve APPLY_MARKER :: release.places) path →
      Allowed release.places path := by
    intro path allowed
    rcases allowed with own | isPlace | ⟨installed, member, isPlain, isTemp⟩
    · exact .inl own
    · rcases mem_cons.mp isPlace with rfl | isPlace
      · exact .inl own_marker
      · exact .inr (.inl isPlace)
    · rcases mem_cons.mp member with rfl | member
      · exact absurd own_marker isPlain.notOwn
      · exact .inr (.inr ⟨installed, member, isPlain, isTemp⟩)
  intro path member
  rcases left with (left | ⟨saved, backed, record, left⟩) |
    ⟨saved, applied, ⟨backed, record, frame, marker, installed⟩, left⟩
  · exact .inl (left.backing.touched path member)
  · rcases left.frame.touched path member with earlier | allowed
    · exact .inl (backed.touched path earlier)
    · exact .inl (.inr (unmarked allowed))
  · rcases left.touched path member with earlier | own
    · rcases frame.touched path earlier with earlier | allowed
      · exact .inl (backed.touched path earlier)
      · exact .inl (.inr (unmarked allowed))
    · exact .inr own

end Own

end MagnetoX.Ota
