import Mathlib.Data.List.Dedup
import MagnetoX.Ota.Apply

/-!
Owns the whole run of an update after the version gate: `phase_apt`, `prune_backups`,
`phase_finalize`, and what an update that ends at any point leaves behind.
-/

namespace MagnetoX.Ota

open Library.CrashLogic.Prog List

/-! ### Removing files -/

section Remove

variable {files : Files} {paths : List Path} {path : Path}

theorem lookup_removeAll :
    (removeAll files paths).lookup path = if path ∈ paths then none else files.lookup path := by
  induction paths generalizing files with
  | nil => rfl
  | cons first paths ih =>
    rw [removeAll, foldl_cons, ← removeAll, ih]
    by_cases same : path = first
    · rw [same, AList.lookup_erase]
      simp
    · rw [AList.lookup_erase_ne same]
      simp [same]

theorem lookup_removeAll_of_not_mem (outside : path ∉ paths) :
    (removeAll files paths).lookup path = files.lookup path := by
  rw [lookup_removeAll, if_neg outside]

theorem lookup_of_removeAll {content : Content}
    (present : (removeAll files paths).lookup path = some content) :
    files.lookup path = some content := by
  rw [lookup_removeAll] at present
  split at present
  · cases present
  · exact present

end Remove

/-! ### Entries of the backup directory -/

section Entries

variable {files : Files} {directory : Path} {name : Text}

theorem mem_entries {entry : Path} (member : entry ∈ entries files directory) :
    ∃ name, entry = [name] ∧ name.head? ≠ some '.' := by
  rw [entries, mem_reverse, mem_dedup, mem_reverse, mem_map] at member
  obtain ⟨path, isBelow, rfl⟩ := member
  have isVisible := (mem_filter.mp isBelow).2
  cases path with
  | nil => cases isVisible
  | cons name rest => exact ⟨name, rfl, of_decide_eq_true isVisible⟩

theorem entries_nodup (files : Files) (directory : Path) : (entries files directory).Nodup :=
  nodup_reverse.mpr (nodup_dedup _)

/-- The entry that was written to last is listed first. -/
theorem entries_eq_cons {rest : List Path} {inner : Path}
    (isBelow : below files directory = (name :: inner) :: rest) (isVisible : name.head? ≠ some '.') :
    ∃ older, entries files directory = [name] :: older := by
  have shown : visible (name :: inner) = true := decide_eq_true isVisible
  rw [entries, isBelow, filter_cons_of_pos shown, map_cons, take_succ_cons,
    take_zero, reverse_cons]
  rw [dedup_append]
  obtain ⟨older, isLast⟩ := suffix_union_right
    ((rest.filter visible).map (fun path => path.take 1)).reverse [[name]].dedup
  rw [← isLast, reverse_append]
  exact ⟨older.reverse, rfl⟩

/-- The newest backup is not among those that are pruned. -/
theorem newest_not_pruned (newest : Newest name files) :
    [name] ∉ (entries files (resolve BACKUP_ROOT)).drop BACKUPS_TO_KEEP := by
  intro pruned
  have member := mem_of_mem_drop pruned
  obtain ⟨other, same, isVisible⟩ := mem_entries member
  cases same
  obtain ⟨rest, isBelow⟩ := newest
  obtain ⟨older, isEntries⟩ := entries_eq_cons isBelow isVisible
  have nodup := entries_nodup files (resolve BACKUP_ROOT)
  rw [isEntries] at nodup pruned
  have later : [name] ∈ older.drop 2 := pruned
  exact (nodup_cons.mp nodup).1 (mem_of_mem_drop later)

end Entries

/-! ### `prune_backups` and the staging directory -/

/-- What is changed at the end of an update: nothing but units, backups and staged files,
and the newest backup only if the clock was set back. -/
structure Cleaning (medium : Medium) (name : Text) (before after : Machine) : Prop where
  plain : ∀ path, Plain path → after.files.lookup path = before.files.lookup path
  records : ∀ path ∈ ownFiles, after.files.lookup path = before.files.lookup path
  backups : ∀ path content, resolve BACKUP_ROOT <+: path →
    after.files.lookup path = some content → before.files.lookup path = some content
  kept : medium.steady = true → ∀ path, backupAt name <+: path →
    after.files.lookup path = before.files.lookup path
  touched : ∀ path ∈ after.touched, path ∈ before.touched ∨ OfEngine path

variable {path : Path}

section Cleaning

variable {medium : Medium} {name : Text} {context : Context} {before after : Machine}
  {directory : Path}

theorem Cleaning.refl (medium : Medium) (name : Text) (machine : Machine) :
    Cleaning medium name machine machine :=
  ⟨fun _ _ => rfl, fun _ _ => rfl, fun _ _ _ same => same, fun _ _ _ => rfl,
    fun _ member => .inl member⟩

theorem Cleaning.withStatus (cleaning : Cleaning medium name before after)
    (status : Option Status) : Cleaning medium name before (after.withStatus status) :=
  { cleaning with }

theorem Cleaning.touch (cleaning : Cleaning medium name before after) (own : OfEngine path) :
    Cleaning medium name before (after.touch path) where
  plain := cleaning.plain
  records := cleaning.records
  backups := cleaning.backups
  kept := cleaning.kept
  touched other member := by
    rcases mem_cons.mp member with rfl | earlier
    · exact .inr own
    · exact cleaning.touched other earlier

theorem ownFiles_not_below : ∀ path ∈ ownFiles,
    ¬ resolve BACKUP_ROOT <+: path ∧ ¬ resolve STAGING_DIR <+: path := by
  decide

theorem Cleaning.removeTree {paths : List Path} (cleaning : Cleaning medium name before after)
    (inside : resolve BACKUP_ROOT <+: directory ∨ resolve STAGING_DIR <+: directory)
    (apart : medium.steady = true → ∀ path, directory <+: path →
      ¬ backupAt name <+: path) (isBelow : ∀ path ∈ paths, directory <+: path) :
    Cleaning medium name before (after.update (removeAll after.files paths) [directory]) where
  plain path isPlain := by
    rw [← cleaning.plain path isPlain]
    apply lookup_removeAll_of_not_mem
    intro member
    apply isPlain.notOwn
    rcases inside with inBackup | inStaging
    · exact .inr (.inl (inBackup.trans (isBelow path member)))
    · exact .inr (.inr (inStaging.trans (isBelow path member)))
  records path isRecord := by
    rw [← cleaning.records path isRecord]
    apply lookup_removeAll_of_not_mem
    intro member
    rcases inside with inBackup | inStaging
    · exact (ownFiles_not_below path isRecord).1 (inBackup.trans (isBelow path member))
    · exact (ownFiles_not_below path isRecord).2 (inStaging.trans (isBelow path member))
  backups path content inBackup present :=
    cleaning.backups path content inBackup (lookup_of_removeAll present)
  kept steady path isKept := by
    rw [← cleaning.kept steady path isKept]
    apply lookup_removeAll_of_not_mem
    intro member
    exact apart steady path (isBelow path member) isKept
  touched path member := by
    rcases mem_cons.mp member with rfl | earlier
    · right
      left
      rcases inside with inBackup | inStaging
      · exact .inr (.inl inBackup)
      · exact .inr (.inr inStaging)
    · exact cleaning.touched path earlier

theorem removeTrees_wp {line : Nat} {entries : List Path}
    (inside : ∀ entry ∈ entries, resolve BACKUP_ROOT <+: directory ++ entry ∨
      resolve STAGING_DIR <+: directory ++ entry)
    (apart : medium.steady = true → ∀ entry ∈ entries, ∀ path, directory ++ entry <+: path →
      ¬ backupAt name <+: path) (cleaning : Cleaning medium name before after) :
    (forEach entries (fun entry => must context line (removeTree (directory ++ entry)))).wp
      (step medium) (.returning (fun _ => Cleaning medium name before) (Cleaning medium name before))
      after := by
  apply wp_forEach (fun _ => Cleaning medium name before) cleaning
  · intro done entry rest next split cleaning
    have member : entry ∈ entries := by
      rw [split]
      exact mem_append_right _ (.head _)
    apply wp_must (fun _ status removed _ => Cleaning.withStatus removed status)
    apply wp_removeTree cleaning
    intro paths isBelow
    have removed := cleaning.removeTree (inside entry member)
      (fun steady => apart steady entry member) isBelow
    refine ⟨?_, removed⟩
    intro ok
    cases ok with
    | true => exact removed
    | false => exact removed
  · exact fun _ same => same

theorem pruneBackups_wp (newest : Newest name after.files)
    (cleaning : Cleaning medium name before after) :
    (pruneBackups context).wp (step medium)
      (.returning (fun _ => Cleaning medium name before) (Cleaning medium name before)) after := by
  have own : OfEngine (resolve BACKUP_ROOT) := .inl (Own.of_backup (prefix_refl _))
  apply wp_do.mpr
  apply wp_listEntries cleaning (cleaning.touch own)
  intro listed _ inOrder
  apply removeTrees_wp
  · exact fun entry _ => .inl (prefix_append _ _)
  · intro steady entry member path inEntry inNewest
    rw [inOrder steady] at member
    obtain ⟨other, rfl, _⟩ := mem_entries (mem_of_mem_drop member)
    rw [backupAt_unique inEntry inNewest] at member
    exact newest_not_pruned newest member
  · exact cleaning.touch own

theorem clearStaging_wp (cleaning : Cleaning medium name before after) :
    (clearStaging context).wp (step medium)
      (.returning (fun _ => Cleaning medium name before) (Cleaning medium name before)) after := by
  have own : OfEngine (resolve STAGING_DIR) := .inl (.inr (.inr (prefix_refl _)))
  apply wp_do.mpr
  apply wp_listEntries cleaning (cleaning.touch own)
  intro listed _ _
  apply removeTrees_wp
  · exact fun entry _ => .inr (prefix_append _ _)
  · intro _ entry _ path inStaging inNewest
    have staged := IsPrefix.trans (prefix_append _ _) inStaging
    have backed := IsPrefix.trans (prefix_append _ _) inNewest
    have same := prefix_of_prefix_length_le staged backed (by decide)
    revert same
    decide
  · exact cleaning.touch own

/-! ### The units -/

theorem units_apart : ∀ path ∈ unitsIn SYSTEMD_DIR, path ∉ ownFiles ∧ ¬ resolve BACKUP_ROOT <+: path := by decide

theorem Cleaning.writeUnit (cleaning : Cleaning medium name before after) (isUnit : path ∈ unitsIn SYSTEMD_DIR)
    (content : Content) : Cleaning medium name before (after.write path content) where
  plain other isPlain := by
    rw [← cleaning.plain other isPlain]
    apply AList.lookup_insert_ne
    rintro rfl
    exact isPlain.notUnit isUnit
  records other isRecord := by
    rw [← cleaning.records other isRecord]
    apply AList.lookup_insert_ne
    rintro rfl
    exact (units_apart _ isUnit).1 isRecord
  backups other saved inBackup present := by
    apply cleaning.backups other saved inBackup
    rwa [Machine.write, Machine.update, AList.lookup_insert_ne] at present
    rintro rfl
    exact (units_apart _ isUnit).2 inBackup
  kept steady other isKept := by
    rw [← cleaning.kept steady other isKept]
    apply AList.lookup_insert_ne
    rintro rfl
    exact (units_apart _ isUnit).2 (IsPrefix.trans (prefix_append _ _) isKept)
  touched other member := by
    rcases mem_cons.mp member with rfl | earlier
    · exact .inr (.inr (.tail _ (mem_append_right _ isUnit)))
    · exact cleaning.touched other earlier

/-- A unit is installed; the backups are as they were. -/
theorem installUnit_wp {unit : Text} (isStaged : resolve (OTA_HOME ++ '/' :: unit) ∈ unitsIn OTA_HOME)
    (isUnit : resolve (SYSTEMD_DIR ++ '/' :: unit) ∈ unitsIn SYSTEMD_DIR) (newest : Newest name after.files)
    (cleaning : Cleaning medium name before after) :
    (installUnit context unit).wp (step medium)
      (.returning (fun _ last => Newest name last.files ∧ Cleaning medium name before last)
        (Cleaning medium name before)) after := by
  have staged := cleaning.touch (.inr (.tail _ (mem_append_left _ isStaged)))
  have read := staged.touch (.inr (.tail _ (mem_append_right _ isUnit)))
  have looked := read.touch (.inr (.tail _ (mem_append_right _ isUnit)))
  unfold installUnit
  apply wp_do.mpr
  apply wp_readFile cleaning staged
  dsimp only
  split
  · exact ⟨newest, staged⟩
  · apply wp_do.mpr
    apply wp_readFile staged read
    dsimp only
    split
    · exact ⟨newest, read⟩
    · have written := read.writeUnit isUnit
      apply wp_do.mpr
      apply wp_must (fun _ status cleaned _ => Cleaning.withStatus cleaned status)
      apply wp_copyTo read ⟨looked, looked⟩
      · obtain ⟨rest, isBelow⟩ := newest
        exact ⟨⟨rest, (below_insert (units_apart _ isUnit).2).trans isBelow⟩, written _⟩
      · exact fun rest => ⟨written rest, written rest⟩

end Cleaning

/-! ### `phase_apt` and `phase_finalize` -/

/-- What `phase_finalize` leaves behind, whether it runs to its end or not. -/
structure FinalizeLeft (medium : Medium) (release : Release) (name : Text)
    (before after : Machine) : Prop where
  plain : ∀ path, Plain path → after.files.lookup path = before.files.lookup path
  records : ∀ path ∈ ownFiles, path ≠ resolve INSTALLED_VERSION_FILE →
    after.files.lookup path = before.files.lookup path
  version : after.files.lookup (resolve INSTALLED_VERSION_FILE) =
      before.files.lookup (resolve INSTALLED_VERSION_FILE) ∨
    (∃ left rest, medium.echo (resolve INSTALLED_VERSION_FILE) left = some rest ∧
      after.files.lookup (resolve INSTALLED_VERSION_FILE) = some rest) ∨
    after.files.lookup (resolve INSTALLED_VERSION_FILE) = some (release.version ++ ['\n'])
  backups : ∀ path content, resolve BACKUP_ROOT <+: path →
    after.files.lookup path = some content → before.files.lookup path = some content
  kept : medium.steady = true → ∀ path, backupAt name <+: path →
    after.files.lookup path = before.files.lookup path
  touched : ∀ path ∈ after.touched, path ∈ before.touched ∨ OfEngine path

section Finalize

variable {medium : Medium} {release : Release} {name : Text} {before after : Machine}

theorem FinalizeLeft.refl (medium : Medium) (release : Release) (name : Text) (machine : Machine) :
    FinalizeLeft medium release name machine machine :=
  ⟨fun _ _ => rfl, fun _ _ _ => rfl, .inl rfl, fun _ _ _ same => same, fun _ _ _ => rfl,
    fun _ member => .inl member⟩

theorem FinalizeLeft.withStatus (left : FinalizeLeft medium release name before after)
    (status : Option Status) : FinalizeLeft medium release name before (after.withStatus status) :=
  { left with }

theorem FinalizeLeft.stops {α : Type} {returns : α → Machine → Prop} :
    Stops (.returning returns (FinalizeLeft medium release name before)) :=
  fun _ status left _ => left.withStatus status

theorem not_version_of_plain (isPlain : Plain path) : path ≠ resolve INSTALLED_VERSION_FILE := by
  rintro rfl
  exact isPlain.notOwn own_version

theorem not_version_of_backup (inBackup : resolve BACKUP_ROOT <+: path) :
    path ≠ resolve INSTALLED_VERSION_FILE := by
  rintro rfl
  exact absurd inBackup (by decide)

theorem FinalizeLeft.write {content : Content} (status : Option Status)
    (written : content = release.version ++ ['\n'] ∨
      ∃ left, medium.echo (resolve INSTALLED_VERSION_FILE) left = some content) :
    FinalizeLeft medium release name before
      ((before.withStatus status).write (resolve INSTALLED_VERSION_FILE) content) where
  plain path isPlain := AList.lookup_insert_ne (not_version_of_plain isPlain)
  records path _ other := AList.lookup_insert_ne other
  version := by
    right
    rcases written with rfl | ⟨left, isContent⟩
    · exact .inr (AList.lookup_insert _)
    · exact .inl ⟨left, content, isContent, AList.lookup_insert _⟩
  backups path saved inBackup present := by
    rw [Machine.write, Machine.update,
      AList.lookup_insert_ne (not_version_of_backup inBackup)] at present
    exact present
  kept _ path isKept := AList.lookup_insert_ne
    (not_version_of_backup (IsPrefix.trans (prefix_append _ _) isKept))
  touched path member := by
    rcases mem_cons.mp member with rfl | earlier
    · exact .inr (.inl own_version)
    · exact .inl earlier

theorem FinalizeLeft.clean {middle : Machine} (left : FinalizeLeft medium release name before middle)
    (cleaning : Cleaning medium name middle after) :
    FinalizeLeft medium release name before after where
  plain path isPlain := (cleaning.plain path isPlain).trans (left.plain path isPlain)
  records path isRecord other := (cleaning.records path isRecord).trans (left.records path isRecord other)
  version := by
    rw [cleaning.records _ (by decide)]
    exact left.version
  backups path content inBackup present :=
    left.backups path content inBackup (cleaning.backups path content inBackup present)
  kept steady path isKept := (cleaning.kept steady path isKept).trans (left.kept steady path isKept)
  touched path member := by
    rcases cleaning.touched path member with earlier | own
    · exact left.touched path earlier
    · exact .inr own

open FinalizeLeft

/-- The version is recorded. -/
theorem recordVersion_wp (newest : Newest name before.files) :
    (recordVersion release).wp (step medium)
      (.returning (fun _ after => FinalizeLeft medium release name before after ∧ Newest name after.files ∧
          after.files.lookup (resolve INSTALLED_VERSION_FILE) = some (release.version ++ ['\n']))
        (FinalizeLeft medium release name before)) before := by
  have begins := refl medium release name before
  unfold recordVersion
  apply wp_seq (phase_wp begins begins.withStatus)
  rintro _ started ⟨running, _, status, rfl⟩
  apply wp_must_echo stops running
  · exact running.clean ((Cleaning.refl _ _ _).touch (.inl own_version))
  · exact fun left rest isRest => .write status (.inr ⟨left, isRest⟩)
  obtain ⟨rest, isBelow⟩ := newest
  exact ⟨.write status (.inl rfl), ⟨rest, (below_insert (by decide)).trans isBelow⟩, AList.lookup_insert _⟩

/-- What `phase_finalize` does after that. -/
theorem cleanUp_wp (newest : Newest name before.files) :
    (cleanUp release).wp (step medium)
      (.returning (fun _ => Cleaning medium name before) (Cleaning medium name before)) before := by
  have stops : ∀ {returns : Unit → Machine → Prop}, Stops (.returning returns (Cleaning medium name before)) :=
    fun _ status cleaned _ => Cleaning.withStatus cleaned status
  have begins := Cleaning.refl medium name before
  unfold cleanUp
  apply wp_do.mpr
  apply wp_must_system stops begins
  apply wp_seq (installUnit_wp (by decide) (by decide) newest begins)
  intro update first ⟨newest, cleaning⟩
  apply wp_seq (installUnit_wp (by decide) (by decide) newest cleaning)
  intro verify second ⟨newest, cleaning⟩
  have cleaned : (do pruneBackups ⟨"finalize".toList, release.version⟩
                     clearStaging ⟨"finalize".toList, release.version⟩
                     must ⟨"finalize".toList, release.version⟩ 71
                       (writeStatus ⟨"finalize".toList, release.version⟩ "success".toList [])).wp (step medium)
      (.returning (fun _ => Cleaning medium name before) (Cleaning medium name before)) second := by
    apply wp_seq (pruneBackups_wp newest cleaning)
    intro _ pruned cleaning
    apply wp_seq (clearStaging_wp cleaning)
    intro _ cleared cleaning
    exact wp_must_report stops cleaning (cleaning.withStatus _)
  split
  · exact wp_do.mpr (wp_must_system stops cleaning cleaned)
  · exact cleaned

def Reported (before after : Machine) : Prop := ∃ status, after = before.withStatus status

theorem phaseApt_wp : (phaseApt release).wp (step medium)
    (.returning (fun _ => Reported before) (Reported before)) before := by
  have begins : Reported before before := ⟨before.status, rfl⟩
  unfold phaseApt
  split
  · exact begins
  · have stops : ∀ {returns : Unit → Machine → Prop}, Stops (.returning returns (Reported before)) := by
      rintro _ _ status ⟨_, rfl⟩ _
      exact ⟨status, rfl⟩
    apply wp_seq (phase_wp begins (fun status => ⟨status, rfl⟩))
    rintro _ started ⟨running, _⟩
    apply wp_do.mpr
    apply wp_system running
    intro updated
    cases updated with
    | false => exact wp_die stops running
    | true =>
      apply wp_do.mpr
      apply wp_system running
      intro installed
      cases installed with
      | false => exact wp_die stops running
      | true => exact running

end Finalize

/-! ### The whole update -/

def backupName (setting : Setting) (release : Release) : Text :=
  release.version ++ '-' :: setting.stamp

/-- What an update leaves behind that ends before the marker has been removed. -/
inductive Unapplied (medium : Medium) (setting : Setting) (release : Release) (before after : Machine) :
    Prop where
  | saving (left : BackupLeft medium release (backupName setting release) before after)
  | applying (saved : Machine) (backed : BackedUp release (backupName setting release) before saved)
      (record : saved.files.lookup (resolve LAST_BACKUP_FILE) = some (backupDirFor setting release ++ ['\n']))
      (left : ApplyLeft medium release (backupDirFor setting release) saved after)

/-- All files have been replaced and the marker has been removed. -/
structure Applied (setting : Setting) (release : Release) (before saved applied : Machine) : Prop where
  backed : BackedUp release (backupName setting release) before saved
  record : saved.files.lookup (resolve LAST_BACKUP_FILE) = some (backupDirFor setting release ++ ['\n'])
  frame : Frame (resolve APPLY_MARKER :: release.places) saved applied
  marker : applied.files.lookup (resolve APPLY_MARKER) = none
  installed : Installed release applied.files

/-- What an update leaves behind that ends at some point after the version gate. -/
inductive UpdateLeft (medium : Medium) (setting : Setting) (release : Release) (before after : Machine) :
    Prop where
  | unapplied (left : Unapplied medium setting release before after)
  | finalizing (saved applied : Machine) (done : Applied setting release before saved applied)
      (left : FinalizeLeft medium release (backupName setting release) applied after)

section Update

variable {medium : Medium} {release : Release} {setting : Setting} {before after : Machine}

/-- An update that can be carried out: the entries are installed as plain files, and the
backup gets a directory of its own. -/
structure Orderly (setting : Setting) (release : Release) (machine : Machine) : Prop where
  isOrdinary : ∀ rel ∈ release.files, Ordinary rel
  slash : '/' ∉ backupName setting release
  newline : '\n' ∉ backupName setting release
  fresh : ∀ path, backupAt (backupName setting release) <+: path →
    machine.files.lookup path = none

theorem resolve_backupDirFor (slash : '/' ∉ backupName setting release) :
    resolve (backupDirFor setting release) = backupAt (backupName setting release) := by
  apply resolve_entry _ _ slash
  have long : '-' ∈ backupName setting release := mem_append_right _ (.head _)
  refine ⟨ne_nil_of_mem long, ?_, ?_⟩
  · intro same
    rw [same] at long
    revert long
    decide
  · intro same
    rw [same] at long
    revert long
    decide

theorem backupDirFor_inRoot (slash : '/' ∉ backupName setting release) :
    resolve BACKUP_ROOT <+: resolve (backupDirFor setting release) := by
  rw [resolve_backupDirFor slash]
  exact prefix_append _ _

theorem captured_backupDir (newline : '\n' ∉ backupName setting release) :
    captured (backupDirFor setting release ++ ['\n']) = backupDirFor setting release := by
  have nonempty : backupName setting release ≠ [] := by
    unfold backupName
    exact append_ne_nil_of_right_ne_nil _ nofun
  have ends : (backupDirFor setting release).getLast? =
      some ((backupName setting release).getLast nonempty) := by
    have spelled : backupDirFor setting release =
        (BACKUP_ROOT ++ ['/']) ++ backupName setting release := by
      rw [append_assoc]
      rfl
    rw [spelled, getLast?_append_of_ne_nil _ nonempty, getLast?_eq_some_getLast nonempty]
  apply captured_line ends
  intro isNewline
  apply newline
  rw [← isNewline]
  exact getLast_mem nonempty

/-- An update up to the removal of the marker. -/
def applyUpdate (setting : Setting) (release : Release) : Script Unit := do
  phaseBackup release (backupDirFor setting release)
  applyFiles release (backupDirFor setting release)

/-- From there to the record of the version. -/
def settleUpdate (release : Release) : Script Unit := do
  must ⟨"apply".toList, release.version⟩ 471 system
  phaseApt release
  recordVersion release

/-- An update up to the record of its version. -/
def recordUpdate (setting : Setting) (release : Release) : Script Unit := do
  applyUpdate setting release
  settleUpdate release

theorem installUpdate_eq :
    installUpdate setting release = recordUpdate setting release >>= fun _ => cleanUp release := by
  simp only [installUpdate, applyUpdate, recordUpdate, settleUpdate, phaseApply, phaseFinalize, bind_assoc]

theorem applyUpdate_wp (orderly : Orderly setting release before) :
    (applyUpdate setting release).wp (step medium)
      (.returning (fun _ after => ∃ saved, Applied setting release before saved after)
        (Unapplied medium setting release before)) before := by
  have isDir := @resolve_backupDirFor release setting orderly.slash
  have inRoot := @backupDirFor_inRoot release setting orderly.slash
  apply wp_do.mpr
  apply wp_imp (phaseBackup_wp isDir orderly.isOrdinary (by rw [isDir]; exact orderly.fresh))
  · intro _ saved ⟨backed, record⟩
    have same : ∀ path ∈ release.places, saved.files.lookup path = before.files.lookup path :=
      fun path member => backed.plain (prefix_append _ _)
        (places_plain orderly.isOrdinary path member)
    have snapshot := backed.snapshot.view_congr same
    rw [← isDir] at snapshot
    apply wp_imp (applyFiles_wp inRoot orderly.isOrdinary snapshot)
    · exact fun _ _ ⟨frame, marker, installed⟩ => ⟨saved, backed, record, frame, marker, installed⟩
    · exact fun _ left => .applying saved backed record left
  · exact fun _ left => .saving left

def Recorded (release : Release) (machine : Machine) : Prop :=
  machine.files.lookup (resolve INSTALLED_VERSION_FILE) = some (release.version ++ ['\n'])

theorem settleUpdate_wp {saved applied : Machine} (done : Applied setting release before saved applied) :
    (settleUpdate release).wp (step medium)
      (.returning (fun _ after => FinalizeLeft medium release (backupName setting release) applied after ∧
          Newest (backupName setting release) after.files ∧ Recorded release after)
        (FinalizeLeft medium release (backupName setting release) applied)) applied := by
  have begins := FinalizeLeft.refl medium release (backupName setting release) applied
  apply wp_do.mpr
  apply wp_must_system FinalizeLeft.stops begins
  apply wp_do.mpr
  apply wp_imp (@phaseApt_wp medium release applied)
  · rintro _ provided ⟨status, rfl⟩
    obtain ⟨rest, isBelow⟩ := done.backed.newest
    apply wp_imp (@recordVersion_wp medium release _ (applied.withStatus status)
      ⟨rest, done.frame.backups.trans isBelow⟩)
    · exact fun _ _ ⟨left, recorded⟩ => ⟨{ left with }, recorded⟩
    · exact fun _ left => { left with }
  · rintro _ ⟨status, rfl⟩
    exact begins.withStatus status

theorem recordUpdate_wp (orderly : Orderly setting release before) :
    (recordUpdate setting release).wp (step medium)
      (.returning (fun _ after => ∃ saved applied, Applied setting release before saved applied ∧
          FinalizeLeft medium release (backupName setting release) applied after ∧
          Newest (backupName setting release) after.files ∧ Recorded release after)
        (UpdateLeft medium setting release before)) before := by
  apply wp_do.mpr
  apply wp_imp (applyUpdate_wp orderly)
  · intro _ applied ⟨saved, done⟩
    apply wp_imp (settleUpdate_wp done)
    · exact fun _ _ recorded => ⟨saved, applied, done, recorded⟩
    · exact fun _ left => .finalizing saved applied done left
  · exact fun _ left => .unapplied left

/-- **An update**, cut or failing at any point. -/
theorem installUpdate_wp (orderly : Orderly setting release before) :
    (installUpdate setting release).wp (step medium)
      (.returning (fun _ => UpdateLeft medium setting release before)
        (UpdateLeft medium setting release before)) before := by
  rw [installUpdate_eq]
  apply wp_do.mpr
  apply wp_imp (recordUpdate_wp orderly)
  · intro _ named ⟨saved, applied, done, left, newest, _⟩
    have finishes : ∀ after, Cleaning medium (backupName setting release) named after →
        UpdateLeft medium setting release before after :=
      fun _ cleaning => .finalizing saved applied done (left.clean cleaning)
    exact wp_imp (cleanUp_wp newest) (fun _ => finishes) finishes
  · exact fun _ left => left

end Update

end MagnetoX.Ota
