import MagnetoX.Ota.CrashAtomic
import MagnetoX.Ota.History

/-!
Owns path confinement: where the entries of an accepted manifest are installed, and which
files the engine touches over whole histories of updates and restores.
-/

namespace MagnetoX.Ota

open List

/-- A place of one of the releases that `phase_stage` accepts. -/
def Managed (releases : List Release) (path : Path) : Prop :=
  ∃ release ∈ releases, (∃ setting, Accepted setting release) ∧ path ∈ release.places

/-- The engine's files, the files of the releases, and their temporary names. -/
def Confined (releases : List Release) (path : Path) : Prop :=
  OfEngine path ∨ Managed releases path ∨ ∃ installed, Managed releases installed ∧ path = tempOf installed

def NamesBackup (machine : Machine) (file : Text) : Prop :=
  recordOf machine file = [] ∨ ∃ name, resolve (recordOf machine file) = backupAt name

/-- The backups only speak of files of the releases, and the records only of backups. -/
structure Tame (releases : List Release) (machine : Machine) : Prop where
  backups : ∀ name, machine.files.lookup (backupAt name ++ [COMPLETE]) ≠ none →
    ∃ places view, (∀ path ∈ places, Managed releases path ∧ Plain path) ∧
      Captures machine.files (backupAt name) places view
  marker : NamesBackup machine APPLY_MARKER
  lastBackup : NamesBackup machine LAST_BACKUP_FILE
  touched : ∀ path ∈ machine.touched, Confined releases path

section Confinement

variable {releases : List Release} {machine after : Machine} {places : List Path} {view : View}
  {setting : Setting} {release : Release} {file : Text}

theorem Confined.of_allowed {path : Path} (managed : ∀ path ∈ places, Managed releases path)
    (allowed : Allowed places path) : Confined releases path := by
  rcases allowed with own | isPlace | ⟨installed, member, _, isTemp⟩
  · exact .inl (.inl own)
  · exact .inr (.inl (managed path isPlace))
  · exact .inr (.inr ⟨installed, managed installed member, isTemp⟩)

theorem NamesBackup.congr (names : NamesBackup machine file)
    (same : after.files.lookup (resolve file) = machine.files.lookup (resolve file)) :
    NamesBackup after file := by
  unfold NamesBackup recordOf
  rw [same]
  exact names

/-- A record names a backup that can be restored from. -/
theorem Tame.restorable (tame : Tame releases machine) (names : NamesBackup machine file) :
    ∃ places view, (∀ path ∈ places, Managed releases path ∧ Plain path) ∧
      (recordOf machine file ≠ [] → Restorable machine (recordOf machine file) places view) := by
  rcases names with nothing | ⟨name, isName⟩
  · exact ⟨[], machine.files.lookup, forall_mem_nil _, fun named => absurd nothing named⟩
  · have inRoot : resolve BACKUP_ROOT <+: resolve (recordOf machine file) := by
      rw [isName]
      exact prefix_append _ _
    by_cases complete : machine.files.lookup (backupAt name ++ [COMPLETE]) = none
    · refine ⟨[], machine.files.lookup, forall_mem_nil _, fun _ => ⟨?_, inRoot, ?_⟩⟩
      · rw [isName]
        exact fun isComplete => absurd complete isComplete
      · exact forall_mem_nil _
    · obtain ⟨places, view, managed, captures⟩ := tame.backups name complete
      refine ⟨places, view, managed, fun _ => ⟨?_, inRoot, fun path member => (managed path member).2⟩⟩
      rw [isName]
      exact fun _ => captures

/-- Replacing files and putting them back keeps the state tame. -/
theorem Tame.frame (tame : Tame releases machine)
    (managed : ∀ path ∈ places, Managed releases path ∧ Plain path)
    (frame : Frame (resolve APPLY_MARKER :: places) machine after)
    (marker : NamesBackup after APPLY_MARKER) : Tame releases after where
  backups name complete := by
    obtain ⟨complete, still⟩ := frame.captures (fun path member => (managed path member).2) complete
    obtain ⟨saved, view, isManaged, captures⟩ := tame.backups name complete
    exact ⟨saved, view, isManaged, still captures⟩
  marker := marker
  lastBackup := tame.lastBackup.congr
    (frame.own_record (fun path member => (managed path member).2) own_lastBackup (by decide))
  touched path member := by
    rcases frame.touched path member with earlier | own | isPlace | ⟨installed, inside, isPlain, isTemp⟩
    · exact tame.touched path earlier
    · exact .inl (.inl own)
    · rcases mem_cons.mp isPlace with rfl | isPlace
      · exact .inl (.inl own_marker)
      · exact .inr (.inl (managed path isPlace).1)
    · rcases mem_cons.mp inside with rfl | inside
      · exact absurd own_marker isPlain.notOwn
      · exact .inr (.inr ⟨installed, (managed installed inside).1, isTemp⟩)

theorem Tame.restore {directory : Path} (tame : Tame releases machine)
    (managed : ∀ path ∈ places, Managed releases path ∧ Plain path)
    (left : RestoreLeft places view directory machine after) : Tame releases after := by
  apply tame.frame managed left.frame
  cases left with
  | stopped within =>
    apply tame.marker.congr
    exact within.own _ own_marker
      (not_mem_of_own (fun path member => (managed path member).2) own_marker)
  | restored done => exact .inl (recordOf_none done.marker)

theorem NamesBackup.renamed (slash : '/' ∉ backupName setting release)
    (newline : '\n' ∉ backupName setting release) (names : NamesBackup machine file)
    (renamed : Renamed (backupDirFor setting release) file machine after) :
    NamesBackup after file := by
  rcases renamed with same | nothing | isNew
  · exact names.congr same
  · exact .inl nothing
  · right
    refine ⟨backupName setting release, ?_⟩
    rw [recordOf, isNew, Option.getD_some, captured_backupDir newline, resolve_backupDirFor slash]

theorem Tame.looked (tame : Tame releases machine) (looked : Looked machine after) : Tame releases after := by
  obtain ⟨files, touched⟩ := looked
  refine ⟨?_, ?_, ?_, ?_⟩
  · rw [files]
    exact tame.backups
  · exact tame.marker.congr (by rw [files])
  · exact tame.lastBackup.congr (by rw [files])
  · intro path isTouched
    rcases touched path isTouched with earlier | own
    · exact tame.touched path earlier
    · exact .inl own

theorem Tame.update {fates : List Fate} (tame : Tame releases machine)
    (member : release ∈ releases) (proper : Proper setting release machine) :
    Tame releases (Event.after ⟨.update setting release, fates⟩ machine) := by
  cases MainLeft.of_event proper with
  | refused looked => exact tame.looked looked
  | begun accepted left =>
    have plain := proper.places_plain accepted
    have managed : ∀ path ∈ release.places, Managed releases path :=
      fun path isPlace => ⟨release, member, ⟨setting, accepted⟩, isPlace⟩
    have begun : Tame releases machine.begun :=
      tame.looked (((Looked.refl machine).touch (.inr (.head _))).touch (.inl own_version))
    refine ⟨?_, ?_, ?_, ?_⟩
    · intro name complete
      rcases left.backups plain name complete with ⟨rfl, captures⟩ | ⟨before, still⟩
      · exact ⟨release.places, _, fun path isPlace => ⟨managed path isPlace, plain path isPlace⟩,
          captures⟩
      · obtain ⟨places, view, isManaged, captures⟩ := tame.backups name before
        exact ⟨places, view, isManaged, still captures⟩
    · exact begun.marker.renamed proper.slash proper.newline left.marker
    · exact begun.lastBackup.renamed proper.slash proper.newline (left.lastBackup plain)
    · intro path isTouched
      rcases left.touched path isTouched with (earlier | allowed) | own
      · exact begun.touched path earlier
      · exact Confined.of_allowed managed allowed
      · exact .inl own

/-- The updates of a history are those of the releases, and can be carried out. -/
def AdmitsProper (releases : List Release) (machine : Machine) (event : Event) : Prop :=
  match event.task with
  | .update setting release => release ∈ releases ∧ Proper setting release machine
  | .restoreLast => True
  | .verifyOrRestore => True

theorem Tame.event {event : Event} (tame : Tame releases machine)
    (admitted : AdmitsProper releases machine event) : Tame releases (event.after machine) := by
  obtain ⟨task, fates⟩ := event
  cases task with
  | update setting release => exact tame.update admitted.1 admitted.2
  | restoreLast =>
    obtain ⟨places, view, managed, restorable⟩ := tame.restorable tame.lastBackup
    exact tame.restore managed (.of_restoreLast restorable)
  | verifyOrRestore =>
    obtain ⟨places, view, managed, restorable⟩ := tame.restorable tame.marker
    exact tame.restore managed (.of_verify restorable)

structure Pristine (machine : Machine) : Prop where
  own : ∀ path, Own path → machine.files.lookup path = none
  touched : machine.touched = []

theorem Pristine.tame (pristine : Pristine machine) : Tame releases machine where
  backups name complete :=
    absurd (pristine.own _ (Own.of_backup (below_root (prefix_append _ _)))) complete
  marker := .inl (recordOf_none (pristine.own _ own_marker))
  lastBackup := .inl (recordOf_none (pristine.own _ own_lastBackup))
  touched path member := by
    rw [pristine.touched] at member
    cases member

end Confinement

theorem pristine_of_keys {machine : Machine} (outside : ∀ key ∈ machine.files.keys, ¬ Own key)
    (touched : machine.touched = []) : Pristine machine :=
  ⟨fun path own => AList.lookup_eq_none.mpr
    (fun member => outside path (AList.mem_keys.mp member) own), touched⟩

theorem macrosMachine_pristine : Pristine macrosMachine :=
  pristine_of_keys (by decide +kernel) rfl

theorem engineRelease_proper :
    Proper (nightlySetting "20260101-120000".toList) engineRelease macrosMachine :=
  ⟨fun _ rel isFile => (engineRelease_ordinary rel isFile).plain, by decide +kernel, engineRelease_orderly.slash,
    engineRelease_orderly.newline, engineRelease_orderly.fresh⟩

end MagnetoX.Ota
