import MagnetoX.Ota.Confinement

/-!
Owns the consistency of backups over histories: as long as no update starts on top of an
interrupted one and no `--restore-last` is interrupted, every complete backup shows files
of one consistent set, the files before any update or after some complete update.
-/

namespace MagnetoX.Ota

open Library.CrashLogic.Prog List

/-! ### Consistent sets of files -/

def Release.install (release : Release) (view : View) : View := fun path =>
  match release.files.find? (fun rel => place rel = path) with
  | some rel => some (release.payload (names rel))
  | none => view path

/-- The files before any update or after some complete update. -/
inductive Consistent (releases : List Release) (initial : View) : View → Prop where
  | initial : Consistent releases initial initial
  | install {view : View} {release : Release} (earlier : Consistent releases initial view)
      (member : release ∈ releases) : Consistent releases initial (release.install view)

def overlay (places : List Path) (saved view : View) : View := fun path =>
  if path ∈ places then saved path else view path

def Agrees (view : View) (machine : Machine) : Prop :=
  ∀ path, Plain path → machine.files.lookup path = view path

/-- An update was interrupted while it replaced files: the marker names a backup of them,
which is also the one on record. -/
structure Interrupted (view : View) (machine : Machine) (name : Text) (places : List Path) : Prop where
  marker : resolve (recordOf machine APPLY_MARKER) = backupAt name
  record : recordOf machine LAST_BACKUP_FILE = recordOf machine APPLY_MARKER
  snapshot : Snapshot machine.files (backupAt name) places view
  plain : ∀ path ∈ places, Plain path
  others : ∀ path, Plain path → path ∉ places → machine.files.lookup path = view path
  unsettled : Unsettled machine.status

/-- The backup on record takes the files back to a consistent set. -/
structure Restores (releases : List Release) (initial view : View) (machine : Machine)
    (name : Text) (places : List Path) (saved restored : View) : Prop where
  record : resolve (recordOf machine LAST_BACKUP_FILE) = backupAt name
  snapshot : Snapshot machine.files (backupAt name) places saved
  plain : ∀ path ∈ places, Plain path
  whole : Consistent releases initial saved
  consistent : Consistent releases initial restored
  back : ∀ path, Plain path → restored path = overlay places saved view path

/-- The complete backups are of consistent sets. -/
abbrev Backups (releases : List Release) (initial : View) (machine : Machine) : Prop :=
  ∀ name, machine.files.lookup (backupAt name ++ [COMPLETE]) ≠ none →
    ∃ places saved, Consistent releases initial saved ∧ (∀ path ∈ places, Plain path) ∧
      Captures machine.files (backupAt name) places saved

/-- The backup on record, if there is one, is such a backup. -/
abbrev OnRecord (releases : List Release) (initial view : View) (machine : Machine) : Prop :=
  recordOf machine LAST_BACKUP_FILE = [] ∨
    ∃ name places saved restored, Restores releases initial view machine name places saved restored

/-- The state of the engine between two runs. -/
structure Sound (releases : List Release) (initial view : View) (machine : Machine) : Prop where
  consistent : Consistent releases initial view
  backups : Backups releases initial machine
  files : (recordOf machine APPLY_MARKER = [] ∧ Agrees view machine) ∨
    ∃ name places, Interrupted view machine name places
  lastBackup : OnRecord releases initial view machine

section Views

variable {release : Release} {view : View} {path : Path}

theorem install_of_mem {files : Files} (installed : Installed release files)
    (isPlace : path ∈ release.places) : release.install view path = files.lookup path := by
  obtain ⟨rel, isFile, rfl⟩ := mem_map.mp isPlace
  unfold Release.install
  cases found : release.files.find? (fun other => place other = place rel) with
  | none =>
    have unfound := find?_eq_none.mp found rel isFile
    exact absurd (decide_eq_true rfl) unfound
  | some other =>
    have same := find?_some found
    rw [← of_decide_eq_true same]
    exact (installed other (mem_of_find?_eq_some found)).symm

theorem install_of_not_mem (outside : path ∉ release.places) :
    release.install view path = view path := by
  unfold Release.install
  rw [find?_eq_none.mpr]
  intro rel isFile same
  apply outside
  rw [← of_decide_eq_true same]
  exact place_mem isFile

end Views

section Sound

variable {releases : List Release} {initial view saved restored : View} {machine after : Machine}
  {name file other : Text} {places more : List Path} {release : Release} {setting : Setting}
  {directory : Path}

theorem record_ne_nil (isBackup : resolve (recordOf machine file) = backupAt name) :
    recordOf machine file ≠ [] := by
  intro nothing
  rw [nothing, show resolve [] = [] by decide] at isBackup
  exact append_ne_nil_of_right_ne_nil _ (cons_ne_nil _ _) isBackup.symm

/-! ### Putting files back -/

theorem Sound.backups_frame (sound : Sound releases initial view machine)
    (plain : ∀ path ∈ places, Plain path)
    (frame : Frame (resolve APPLY_MARKER :: places) machine after) :
    Backups releases initial after := by
  intro name complete
  obtain ⟨complete, still⟩ := frame.captures plain complete
  obtain ⟨more, saved, consistent, isPlain, captures⟩ := sound.backups name complete
  exact ⟨more, saved, consistent, isPlain, still captures⟩

/-- A backup on record stays what it is as long as its files and the record do. -/
theorem Restores.congr (restores : Restores releases initial view machine name more saved restored)
    (record : after.files.lookup (resolve LAST_BACKUP_FILE) =
      machine.files.lookup (resolve LAST_BACKUP_FILE))
    (same : ∀ path, backupAt name <+: path → after.files.lookup path = machine.files.lookup path) :
    Restores releases initial view after name more saved restored :=
  { restores with
    record := (congrArg resolve (recordOf_congr record)).trans restores.record
    snapshot := restores.snapshot.congr same }

theorem Sound.lastBackup_congr (sound : Sound releases initial view machine)
    (record : after.files.lookup (resolve LAST_BACKUP_FILE) =
      machine.files.lookup (resolve LAST_BACKUP_FILE))
    (same : ∀ {name more saved restored},
      Restores releases initial view machine name more saved restored →
      ∀ path, backupAt name <+: path → after.files.lookup path = machine.files.lookup path) :
    OnRecord releases initial view after := by
  rcases sound.lastBackup with nothing | ⟨name, more, saved, restored, restores⟩
  · exact .inl ((recordOf_congr record).trans nothing)
  · exact .inr ⟨name, more, saved, restored, restores.congr record (same restores)⟩

theorem Sound.lastBackup_frame (sound : Sound releases initial view machine)
    (plain : ∀ path ∈ places, Plain path)
    (frame : Frame (resolve APPLY_MARKER :: places) machine after) : OnRecord releases initial view after :=
  sound.lastBackup_congr (frame.own_record plain own_lastBackup (by decide))
    (fun _ _ inside => frame.backup plain (below_root inside))

theorem not_changed {path : Path} (isPlain : Plain path) (outside : path ∉ places) :
    path ∉ resolve APPLY_MARKER :: places := by
  intro member
  rcases mem_cons.mp member with rfl | inside
  · exact isPlain.notOwn own_marker
  · exact outside inside

/-- The interrupted update is taken back, or stays interrupted. -/
theorem Sound.restore_interrupted (sound : Sound releases initial view machine)
    (interrupted : Interrupted view machine name places) (isDirectory : directory = backupAt name)
    (left : RestoreLeft places view directory machine after) :
    Sound releases initial view after := by
  have plain := interrupted.plain
  have frame := left.frame
  refine ⟨sound.consistent, sound.backups_frame plain frame, ?_, sound.lastBackup_frame plain frame⟩
  cases left with
  | stopped within =>
    right
    have marker := recordOf_congr (within.own _ own_marker (not_mem_of_own plain own_marker))
    have record := recordOf_congr
      (within.own _ own_lastBackup (not_mem_of_own plain own_lastBackup))
    refine ⟨name, places, ?_, ?_, ?_, plain, ?_, interrupted.unsettled.failing within.status⟩
    · rw [marker]
      exact interrupted.marker
    · rw [marker, record]
      exact interrupted.record
    · exact interrupted.snapshot.congr (fun path inside => frame.backup plain (below_root inside))
    · intro path isPlain outside
      rw [within.plain path isPlain outside]
      exact interrupted.others path isPlain outside
  | restored done =>
    obtain ⟨-, marker, back⟩ := done
    left
    refine ⟨recordOf_none marker, ?_⟩
    intro path isPlain
    by_cases isPlace : path ∈ places
    · apply back
      rw [isDirectory]
      exact interrupted.snapshot.covers path isPlace
    · rw [frame.plain path isPlain (not_changed isPlain isPlace)]
      exact interrupted.others path isPlain isPlace

/-- The backup on record is put back completely. -/
theorem Sound.restore_record (sound : Sound releases initial view machine)
    (agrees : Agrees view machine)
    (restores : Restores releases initial view machine name places saved restored)
    (frame : Frame (resolve APPLY_MARKER :: places) machine after)
    (unmarked : recordOf after APPLY_MARKER = [])
    (back : ∀ path ∈ places, after.files.lookup path = saved path) :
    Sound releases initial restored after := by
  have plain := restores.plain
  have agreesAfter : Agrees restored after := by
    intro path isPlain
    rw [restores.back path isPlain, overlay]
    by_cases isPlace : path ∈ places
    · rw [if_pos isPlace]
      exact back path isPlace
    · rw [if_neg isPlace, frame.plain path isPlain (not_changed isPlain isPlace),
        agrees path isPlain]
  refine ⟨restores.consistent, sound.backups_frame plain frame,
    .inl ⟨unmarked, agreesAfter⟩, ?_⟩
  right
  have again := restores.congr (frame.own_record plain own_lastBackup (by decide))
    (fun _ inside => frame.backup plain (below_root inside))
  refine ⟨name, places, saved, restored, again.record, again.snapshot, plain, again.whole,
    again.consistent, ?_⟩
  -- To put the same backup back once more changes nothing.
  intro path isPlain
  rw [overlay]
  by_cases isPlace : path ∈ places
  · rw [if_pos isPlace, restores.back path isPlain, overlay, if_pos isPlace]
  · rw [if_neg isPlace]

/-! ### Updates -/

theorem Sound.backups_update (sound : Sound releases initial view machine)
    (agrees : Agrees view machine) (plain : ∀ path ∈ release.places, Plain path)
    (left : UpdateLeft killed setting release machine after) :
    Backups releases initial after := by
  intro other complete
  rcases left.backups plain other complete with ⟨rfl, captures⟩ | ⟨before, still⟩
  · refine ⟨release.places, view, sound.consistent, plain, ?_⟩
    exact captures.view_congr (fun path isPlace => (agrees path (plain path isPlace)).symm)
  · obtain ⟨more, saved, consistent, isPlain, captures⟩ := sound.backups other before
    exact ⟨more, saved, consistent, isPlain, still captures⟩

theorem Restores.ne_fresh (restores : Restores releases initial view machine name places saved restored)
    (fresh : ∀ path, backupAt other <+: path → machine.files.lookup path = none) :
    name ≠ other := by
  rintro rfl
  exact restores.snapshot.complete (fresh _ (prefix_append _ _))

theorem Sound.lastBackup_backingUp (sound : Sound releases initial view machine)
    (fresh : ∀ path, backupAt other <+: path → machine.files.lookup path = none)
    (backing : BackingUp release (backupAt other) machine after)
    (record : after.files.lookup (resolve LAST_BACKUP_FILE) =
      machine.files.lookup (resolve LAST_BACKUP_FILE)) : OnRecord releases initial view after :=
  sound.lastBackup_congr record
    (fun restores _ inside => backing.other_backup (restores.ne_fresh fresh) inside)

theorem recordOf_backupDir (newline : '\n' ∉ backupName setting release)
    (isDir : after.files.lookup (resolve file) = some (backupDirFor setting release ++ ['\n'])) :
    recordOf after file = backupDirFor setting release := by
  rw [recordOf, isDir, Option.getD_some, captured_backupDir newline]

/-- The new backup on record takes the files back to what they were. -/
theorem Restores.of_backup {current : View} (proper : Proper setting release machine)
    (consistent : Consistent releases initial view)
    (record : after.files.lookup (resolve LAST_BACKUP_FILE) =
      some (backupDirFor setting release ++ ['\n']))
    (snapshot : Snapshot after.files (backupAt (backupName setting release)) release.places view)
    (plain : ∀ path ∈ release.places, Plain path)
    (others : ∀ path, path ∉ release.places → current path = view path) :
    Restores releases initial current after (backupName setting release) release.places view view where
  record := by
    rw [recordOf_backupDir proper.newline record, resolve_backupDirFor proper.slash]
  snapshot := snapshot
  plain := plain
  whole := consistent
  consistent := consistent
  back path _ := by
    rw [overlay]
    by_cases isPlace : path ∈ release.places
    · rw [if_pos isPlace]
    · rw [if_neg isPlace, others path isPlace]

theorem Agrees.backingUp (agrees : Agrees view machine)
    (backing : BackingUp release (backupAt name) machine after) : Agrees view after := by
  intro path isPlain
  rw [backing.plain (prefix_append _ _) isPlain]
  exact agrees path isPlain

theorem Agrees.snapshot (agrees : Agrees view machine) (plain : ∀ path ∈ release.places, Plain path)
    (backed : BackedUp release name machine after) :
    Snapshot after.files (backupAt name) release.places view :=
  backed.snapshot.view_congr (fun path isPlace => (agrees path (plain path isPlace)).symm)

theorem Agrees.install {middle : Machine} (agrees : Agrees view machine)
    (frame : Frame (resolve APPLY_MARKER :: release.places) machine middle)
    (installed : Installed release middle.files)
    (same : ∀ path, Plain path → after.files.lookup path = middle.files.lookup path) :
    Agrees (release.install view) after := by
  intro path isPlain
  rw [same path isPlain]
  by_cases isPlace : path ∈ release.places
  · exact (install_of_mem installed isPlace).symm
  · rw [install_of_not_mem isPlace, frame.plain path isPlain (not_changed isPlain isPlace)]
    exact agrees path isPlain

/-- The new files are complete, and the new backup takes them back. -/
theorem Sound.installed (sound : Sound releases initial view machine) (member : release ∈ releases)
    (proper : Proper setting release machine) (plain : ∀ path ∈ release.places, Plain path)
    (backups : Backups releases initial after)
    (record : after.files.lookup (resolve LAST_BACKUP_FILE) =
      some (backupDirFor setting release ++ ['\n']))
    (snapshot : Snapshot after.files (backupAt (backupName setting release)) release.places view)
    (marker : after.files.lookup (resolve APPLY_MARKER) = none)
    (whole : Agrees (release.install view) after) :
    Sound releases initial (release.install view) after where
  consistent := .install sound.consistent member
  backups := backups
  files := .inl ⟨recordOf_none marker, whole⟩
  lastBackup := .inr ⟨_, _, _, _, Restores.of_backup proper sound.consistent record snapshot
    plain (fun _ outside => install_of_not_mem outside)⟩

abbrev Kept (releases : List Release) (initial view : View) (machine after : Machine) : Prop :=
  Sound releases initial view after ∧ after.files.lookup (resolve INSTALLED_VERSION_FILE) =
    machine.files.lookup (resolve INSTALLED_VERSION_FILE)

section

variable (sound : Sound releases initial view machine) (agrees : Agrees view machine)
  (proper : Proper setting release machine) (plain : ∀ path ∈ release.places, Plain path)
include sound agrees proper plain

/-- **An update of consistent files** that ends before the marker has been removed leaves
the old files behind, or an interrupted update. -/
theorem Sound.unapplied (unmarked : recordOf machine APPLY_MARKER = [])
    (left : Unapplied killed setting release machine after) :
    Kept releases initial view machine after := by
  have backups := sound.backups_update agrees plain (.unapplied left)
  cases left with
  | saving left =>
    have backing := left.backing
    refine ⟨⟨sound.consistent, backups,
      .inl ⟨(recordOf_congr backing.marker).trans unmarked, agrees.backingUp backing⟩, ?_⟩,
      backing.version⟩
    rcases left with unfinished | ⟨_, same | ⟨left, rest, isRest, torn⟩⟩
    · exact sound.lastBackup_backingUp proper.fresh backing unfinished.record
    · exact sound.lastBackup_backingUp proper.fresh backing same
    · exact .inl (recordOf_torn isRest torn)
  | applying saved backed record left =>
    have frame := left.frame
    have snapshot := (agrees.snapshot plain backed).congr
      (fun path inside => frame.backup plain (below_root inside))
    have recordAfter : after.files.lookup (resolve LAST_BACKUP_FILE) =
        some (backupDirFor setting release ++ ['\n']) := by
      rw [frame.own_record plain own_lastBackup (by decide)]
      exact record
    have restores := @Restores.of_backup _ _ _ _ _ _ _ view proper sound.consistent recordAfter
      snapshot plain (fun _ _ => rfl)
    have agreesSaved := agrees.backingUp backed.toBackingUp
    have version := (frame.own_record plain own_version (by decide)).trans backed.version
    refine ⟨⟨sound.consistent, backups, ?_, .inr ⟨_, _, _, _, restores⟩⟩, version⟩
    cases left with
    | idle idle marker =>
      refine .inl ⟨?_, ?_⟩
      · rcases marker with same | ⟨left, rest, isRest, torn⟩
        · rw [recordOf_congr (same.trans backed.marker)]
          exact unmarked
        · exact recordOf_torn isRest torn
      · intro path isPlain
        rw [idle.plain path isPlain (not_marker_of_plain isPlain)]
        exact agreesSaved path isPlain
    | applying _ marker unsettled =>
      refine .inr ⟨_, _, ?_, ?_, snapshot, plain, ?_, unsettled⟩
      · rw [recordOf_backupDir proper.newline marker, resolve_backupDirFor proper.slash]
      · rw [recordOf_backupDir proper.newline marker, recordOf_backupDir proper.newline recordAfter]
      · intro path isPlain outside
        rw [frame.plain path isPlain (not_changed isPlain outside)]
        exact agreesSaved path isPlain
    | undone _ marker back =>
      refine .inl ⟨recordOf_none marker, ?_⟩
      intro path isPlain
      rw [back path isPlain]
      exact agreesSaved path isPlain

/-- One that ends later leaves the new files behind. -/
theorem Sound.finalized {saved applied : Machine} (member : release ∈ releases)
    (done : Applied setting release machine saved applied)
    (left : FinalizeLeft killed release (backupName setting release) applied after) :
    Sound releases initial (release.install view) after ∧ Installed release after.files := by
  have backups := sound.backups_update agrees plain (.finalizing saved applied done left)
  obtain ⟨backed, record, frame, marker, installed⟩ := done
  have snapshot : Snapshot after.files (backupAt (backupName setting release)) release.places view := by
    apply (agrees.snapshot plain backed).congr
    intro path inside
    rw [left.kept rfl path inside, frame.backup plain (below_root inside)]
  have recordAfter : after.files.lookup (resolve LAST_BACKUP_FILE) =
      some (backupDirFor setting release ++ ['\n']) := by
    rw [left.records _ (by decide) (by decide),
      frame.own_record plain own_lastBackup (by decide)]
    exact record
  have gone : after.files.lookup (resolve APPLY_MARKER) = none := by
    rw [left.records _ (by decide) (by decide)]
    exact marker
  have whole := (agrees.backingUp backed.toBackingUp).install frame installed left.plain
  refine ⟨sound.installed member proper plain backups recordAfter snapshot gone whole, ?_⟩
  intro rel isFile
  rw [left.plain _ (plain _ (place_mem isFile))]
  exact installed rel isFile

end

/-! ### Histories -/

/-- The run is cut between the first file that it changes and the last that it puts back. -/
def CutBetween (machine : Machine) (fates : List Fate) : Prop :=
  ¬ putBackLast.Passes (step killed) fates machine ∧ ∃ path, Plain path ∧
    (putBackLast.run (step killed) fates machine).state.files.lookup path ≠ machine.files.lookup path

/-- No update starts while the marker of an interrupted one is there, and `--restore-last`,
which sets no marker, is not itself interrupted between two files. -/
def AdmitsWhole (releases : List Release) (machine : Machine) (event : Event) : Prop :=
  match event.task with
  | .update setting release => release ∈ releases ∧ Proper setting release machine ∧
      recordOf machine APPLY_MARKER = []
  | .restoreLast => recordOf machine APPLY_MARKER ≠ [] ∨ ¬ CutBetween machine event.fates
  | .verifyOrRestore => True

theorem Interrupted.restorable (interrupted : Interrupted view machine name places)
    (isFile : recordOf machine file = recordOf machine APPLY_MARKER) :
    recordOf machine file ≠ [] → Restorable machine (recordOf machine file) places view :=
  fun _ => interrupted.snapshot.restorable interrupted.plain
    ((congrArg resolve isFile).trans interrupted.marker)

section

variable (sound : Sound releases initial view machine)
include sound

theorem Sound.agrees (unmarked : recordOf machine APPLY_MARKER = []) : Agrees view machine := by
  rcases sound.files with ⟨_, agrees⟩ | ⟨_, _, interrupted⟩
  · exact agrees
  · exact absurd unmarked (record_ne_nil interrupted.marker)

/-- A restore from the backup on record that has not changed any plain file. -/
theorem Sound.restore_unchanged
    (unmarked : recordOf machine APPLY_MARKER = []) (agrees : Agrees view machine)
    (plain : ∀ path ∈ places, Plain path) (left : RestoreLeft places saved directory machine after)
    (unchanged : ∀ path, Plain path → after.files.lookup path = machine.files.lookup path) :
    Sound releases initial view after := by
  refine ⟨sound.consistent, sound.backups_frame plain left.frame, .inl ⟨?_, ?_⟩,
    sound.lastBackup_frame plain left.frame⟩
  · cases left with
    | stopped within =>
      rw [recordOf_congr (within.own _ own_marker (not_mem_of_own plain own_marker))]
      exact unmarked
    | restored done => exact recordOf_none done.marker
  · intro path isPlain
    rw [unchanged path isPlain]
    exact agrees path isPlain

theorem Sound.verify (fates : List Fate) :
    Kept releases initial view machine (Event.after ⟨.verifyOrRestore, fates⟩ machine) := by
  rcases sound.files with ⟨unmarked, agrees⟩ | ⟨name, places, interrupted⟩
  · have none : ∀ path ∈ ([] : List Path), Plain path := forall_mem_nil _
    have left := @RestoreLeft.of_verify machine [] view fates (fun named => absurd unmarked named)
    refine ⟨sound.restore_unchanged unmarked agrees none left ?_,
      left.frame.own_record none own_version (by decide)⟩
    exact fun path isPlain => left.frame.plain path isPlain (not_marker_of_plain isPlain)
  · have left := @RestoreLeft.of_verify machine places view fates (interrupted.restorable rfl)
    exact ⟨sound.restore_interrupted interrupted interrupted.marker left,
      left.frame.own_record interrupted.plain own_version (by decide)⟩

end

theorem Restores.restorable
    (restores : Restores releases initial view machine name places saved restored) :
    recordOf machine LAST_BACKUP_FILE ≠ [] →
      Restorable machine (recordOf machine LAST_BACKUP_FILE) places saved :=
  fun _ => restores.snapshot.restorable restores.plain restores.record

section

variable (sound : Sound releases initial view machine)
include sound

/-- The backup on record, if there is one, can be restored from. -/
theorem Sound.restorable : ∃ places saved, (∀ path ∈ places, Plain path) ∧
    (recordOf machine LAST_BACKUP_FILE ≠ [] →
      Restorable machine (recordOf machine LAST_BACKUP_FILE) places saved) := by
  rcases sound.lastBackup with nothing | ⟨name, places, saved, restored, restores⟩
  · exact ⟨[], view, forall_mem_nil _, fun named => absurd nothing named⟩
  · exact ⟨places, saved, restores.plain, restores.restorable⟩

/-- `--restore-last` takes back an interrupted update, or happens to change nothing. -/
theorem Sound.restoreLast_keeps {fates : List Fate}
    (keeps : recordOf machine APPLY_MARKER ≠ [] ∨ ∀ path, Plain path →
      (Event.after ⟨.restoreLast, fates⟩ machine).files.lookup path = machine.files.lookup path) :
    Kept releases initial view machine (Event.after ⟨.restoreLast, fates⟩ machine) := by
  rcases sound.files with ⟨unmarked, agrees⟩ | ⟨name, places, interrupted⟩
  · have unchanged := keeps.resolve_left (fun marked => marked unmarked)
    obtain ⟨places, saved, plain, restorable⟩ := sound.restorable
    have left := @RestoreLeft.of_restoreLast machine places saved fates restorable
    exact ⟨sound.restore_unchanged unmarked agrees plain left unchanged,
      left.frame.own_record plain own_version (by decide)⟩
  · have isDirectory := (congrArg resolve interrupted.record).trans interrupted.marker
    have left := @RestoreLeft.of_restoreLast machine places view fates
      (interrupted.restorable interrupted.record)
    exact ⟨sound.restore_interrupted interrupted isDirectory left,
      left.frame.own_record interrupted.plain own_version (by decide)⟩

/-- `--restore-last` goes back to the files before the last update once it has put them
back, whatever happens after that. -/
theorem Sound.restoreLast_passes {fates rest : List Fate} {value : Unit}
    (unmarked : recordOf machine APPLY_MARKER = [])
    (ran : putBackLast.run (step killed) fates machine = .returns value after rest) {last : Machine}
    (left : UnmarkLeft after last) : ∃ restored, Sound releases initial restored last := by
  have agrees := sound.agrees unmarked
  rcases sound.lastBackup with nothing | ⟨name, places, saved, restored, restores⟩
  · have meets := run_meets (@putBackLast_wp killed machine [] view
      (fun named => absurd nothing named)) fates
    rw [ran] at meets
    exact absurd nothing meets.1.1
  · have meets := run_meets (@putBackLast_wp killed machine places saved restores.restorable) fates
    rw [ran] at meets
    obtain ⟨⟨_, within⟩, captures, back⟩ := meets
    have still := left.frame.still captures back
    have frame := within.unmarked.trans (left.frame.mono (cons_subset_cons _ (nil_subset _)))
    refine ⟨restored, sound.restore_record agrees restores frame ?_ ?_⟩
    · cases left with
      | stopped same =>
        rw [recordOf_congr ((same.own _ own_marker not_mem_nil).trans
          (within.own _ own_marker (not_mem_of_own restores.plain own_marker)))]
        exact unmarked
      | unmarked _ gone => exact recordOf_none gone
    · intro path isPlace
      apply still
      rw [restores.record]
      exact restores.snapshot.covers path isPlace

theorem Sound.restoreLast_whole {fates : List Fate} (unmarked : recordOf machine APPLY_MARKER = [])
    (whole : ¬ CutBetween machine fates) :
    ∃ view, Sound releases initial view (Event.after ⟨.restoreLast, fates⟩ machine) := by
  have keeps := @Sound.restoreLast_keeps _ _ _ _ sound fates
  rw [Event.after, Event.ending, Task.script, modeRestoreLast_eq] at keeps ⊢
  rcases run_bind (step killed) putBackLast _ fates machine with
    ⟨value, restored, rest, ran, continues⟩ | ⟨stops, same⟩
  · rw [continues]
    have meets := run_meets (@unmark_wp killed restored ⟨"restore-last".toList, []⟩ 240 []) rest
    apply sound.restoreLast_passes unmarked ran
    exact meets.state (fun _ _ ⟨frame, gone⟩ => .unmarked frame gone) (fun _ _ left => left.2)
      (fun _ left => left)
  · refine ⟨view, (keeps (.inr ?_)).1⟩
    intro path isPlain
    rw [same]
    by_contra changed
    exact whole ⟨stops, path, isPlain, changed⟩

theorem Sound.same_files (agrees : Agrees view machine)
    (unmarked : recordOf machine APPLY_MARKER = []) (files : after.files = machine.files) :
    Sound releases initial view after := by
  refine ⟨sound.consistent, ?_, .inl ⟨?_, ?_⟩, ?_⟩
  · rw [Backups, files]
    exact sound.backups
  · rw [recordOf, files]
    exact unmarked
  · rw [Agrees, files]
    exact agrees
  · exact sound.lastBackup_congr (by rw [files]) (fun _ _ _ => by rw [files])

theorem Sound.looked (unmarked : recordOf machine APPLY_MARKER = []) (looked : Looked machine after) :
    Kept releases initial view machine after :=
  ⟨sound.same_files (sound.agrees unmarked) unmarked looked.1, by rw [looked.1]⟩

theorem Sound.event {event : Event} (admitted : AdmitsWhole releases machine event) :
    ∃ view, Sound releases initial view (event.after machine) := by
  obtain ⟨task, fates⟩ := event
  cases task with
  | verifyOrRestore => exact ⟨view, (sound.verify fates).1⟩
  | restoreLast =>
    by_cases unmarked : recordOf machine APPLY_MARKER = []
    · exact sound.restoreLast_whole unmarked (admitted.resolve_left (fun marked => marked unmarked))
    · exact ⟨view, (sound.restoreLast_keeps (.inl unmarked)).1⟩
  | update setting release =>
    obtain ⟨member, proper, unmarked⟩ := admitted
    cases MainLeft.of_event proper with
    | refused looked => exact ⟨view, (sound.looked unmarked looked).1⟩
    | begun accepted left =>
      have plain := proper.places_plain accepted
      have agrees := sound.agrees unmarked
      have begun : Sound releases initial view machine.begun := sound.same_files agrees unmarked rfl
      cases left with
      | unapplied left => exact ⟨view, (begun.unapplied agrees { proper with } plain unmarked left).1⟩
      | finalizing saved applied done left =>
        exact ⟨release.install view, (begun.finalized agrees { proper with } plain member done left).1⟩

end

theorem Pristine.sound (pristine : Pristine machine) :
    Sound releases machine.files.lookup machine.files.lookup machine where
  consistent := .initial
  backups _ complete :=
    absurd (pristine.own _ (Own.of_backup (below_root (prefix_append _ _)))) complete
  files := .inl ⟨recordOf_none (pristine.own _ own_marker), fun _ _ => rfl⟩
  lastBackup := .inl (recordOf_none (pristine.own _ own_lastBackup))

/-- The engine says that files have been put back. -/
def Settled (status : Option Status) : Prop :=
  ∃ current, status = some current ∧
    (current.state = "restored".toList ∨ current.state = "rolled-back".toList)

theorem Unsettled.not_settled {status : Option Status} (unsettled : Unsettled status) :
    ¬ Settled status := by
  obtain ⟨current, isCurrent, early⟩ := unsettled
  rintro ⟨other, isOther, late⟩
  rw [isCurrent] at isOther
  cases isOther
  rcases early with running | failed
  · rw [running] at late
    revert late
    decide
  · rw [failed] at late
    revert late
    decide

/-- **No backup captures a half-applied update.** In every history from a machine on which
the engine has not run, each run of which may complete, fail or be killed anywhere, as long
as no update starts on an interrupted one and no `--restore-last` is cut between two files: a complete
backup shows files of one consistent set, the one on record shows all of them, and when the
engine says that files have been restored or rolled back, the files are a consistent set. -/
theorem backups_consistent (pristine : Pristine machine)
    (reached : Reached (AdmitsWhole releases) machine after) :
    (∀ name, after.files.lookup (backupAt name ++ [COMPLETE]) ≠ none →
      ∃ places saved, Consistent releases machine.files.lookup saved ∧
        Captures after.files (backupAt name) places saved) ∧
    (recordOf after LAST_BACKUP_FILE ≠ [] → ∃ name places saved,
      resolve (recordOf after LAST_BACKUP_FILE) = backupAt name ∧
        Consistent releases machine.files.lookup saved ∧
        Snapshot after.files (backupAt name) places saved) ∧
    (Settled after.status →
      ∃ view, Consistent releases machine.files.lookup view ∧ Agrees view after) := by
  obtain ⟨view, sound⟩ := @Reached.induct_invariant _ machine after
    (fun current => ∃ view, Sound releases machine.files.lookup view current) reached
    ⟨_, pristine.sound⟩ (fun _ _ admitted ⟨_, sound⟩ => sound.event admitted)
  refine ⟨?_, ?_, ?_⟩
  · intro name complete
    obtain ⟨places, saved, consistent, _, captures⟩ := sound.backups name complete
    exact ⟨places, saved, consistent, captures⟩
  · intro named
    rcases sound.lastBackup with nothing | ⟨name, places, saved, restored, restores⟩
    · exact absurd nothing named
    · exact ⟨name, places, saved, restores.record, restores.whole, restores.snapshot⟩
  · intro settled
    rcases sound.files with ⟨_, agrees⟩ | ⟨name, places, interrupted⟩
    · exact ⟨view, sound.consistent, agrees⟩
    · exact absurd settled interrupted.unsettled.not_settled

end Sound

/-! ### An interrupted update -/

/-- The update is killed when the macros have been replaced and the engine has not. -/
def killedMachine : Machine :=
  Event.after ⟨.update (nightlySetting "20260101-120000".toList) engineRelease,
    List.replicate 23 (fateOf .succeeds)⟩ macrosMachine

/-- The next boot takes it back. -/
theorem backups_consistent_killed :
    Settled (Event.after ⟨.verifyOrRestore, List.replicate 30 (fateOf .succeeds)⟩
        killedMachine).status ∧
      ∃ view, Consistent [engineRelease] macrosMachine.files.lookup view ∧
        Agrees view (Event.after ⟨.verifyOrRestore, List.replicate 30 (fateOf .succeeds)⟩
          killedMachine) := by
  have settled : Settled (Event.after ⟨.verifyOrRestore, replicate 30 (fateOf .succeeds)⟩
      killedMachine).status :=
    ⟨⟨"restored".toList, "verify".toList, [],
      "previous update interrupted mid-apply; rolled back at boot".toList⟩, by decide +kernel,
      by decide⟩
  have unmarked : recordOf macrosMachine APPLY_MARKER = [] := by decide +kernel
  have killed : Reached (AdmitsWhole [engineRelease]) macrosMachine killedMachine :=
    .next .start ⟨mem_singleton.mpr rfl, engineRelease_proper, unmarked⟩
  have booted : AdmitsWhole [engineRelease] killedMachine
      ⟨.verifyOrRestore, replicate 30 (fateOf .succeeds)⟩ := trivial
  exact ⟨settled, (backups_consistent macrosMachine_pristine (.next killed booted)).2.2 settled⟩

def laterRelease : Release :=
  macrosRelease "1.3.0".toList ["config/macros.cfg".toList, "ota/ota-update.sh".toList]
    engineRelease.oneLine

/-- Instead another update is started, whose second file cannot be replaced. -/
def mixedMachine : Machine :=
  Event.after ⟨.update (nightlySetting "20260102-120000".toList) laterRelease,
    List.replicate 23 (fateOf .succeeds) ++ fateOf .fails :: List.replicate 40 (fateOf .succeeds)⟩
    killedMachine

/-- In a consistent set the macros of a release come with its engine. -/
theorem engine_of_macros {view : View}
    (consistent : Consistent [engineRelease, laterRelease] macrosMachine.files.lookup view)
    (macros : view (place "config/macros.cfg".toList) = some "1.2.0".toList) :
    view (place "ota/ota-update.sh".toList) = some "1.2.0".toList := by
  cases consistent with
  | initial =>
    revert macros
    decide +kernel
  | install _ member =>
    rcases mem_cons.mp member with rfl | isLater
    · rfl
    · rw [mem_singleton.mp isLater] at macros
      exact absurd (Option.some.inj macros) (by decide)

/-- The second update is rolled back to a complete backup of a mixture. -/
theorem backup_captures_mixture :
    mixedMachine.files.lookup (backupAt "1.3.0-20260102-120000".toList ++ [COMPLETE]) ≠ none ∧
      Settled mixedMachine.status ∧
      ∀ places saved, Consistent [engineRelease, laterRelease] macrosMachine.files.lookup saved →
        ¬ Captures mixedMachine.files (backupAt "1.3.0-20260102-120000".toList) places saved := by
  obtain ⟨complete, status, isMacros, isNew⟩ :
      mixedMachine.files.lookup (backupAt "1.3.0-20260102-120000".toList ++ [COMPLETE]) ≠ none ∧
      mixedMachine.status = some ⟨"rolled-back".toList, "rollback".toList, "1.3.0".toList,
        "apply failed at ota/ota-update.sh; previous files restored".toList⟩ ∧
      mixedMachine.files.lookup (backupAt "1.3.0-20260102-120000".toList ++
        FILES :: names "config/macros.cfg".toList) = some "1.2.0".toList ∧
      "ota/ota-update.sh".toList ∈
        newEntries mixedMachine.files (backupAt "1.3.0-20260102-120000".toList) := by
    decide +kernel
  refine ⟨complete, ⟨_, status, by decide⟩, ?_⟩
  intro places saved consistent captures
  obtain ⟨rel, ordinary, isNames, _, isSaved⟩ := captures.saved _ _ isMacros
  rw [ordinary.place_eq_of_names ordinary_macros isNames] at isSaved
  have absent := (captures.created _ isNew).2.2
  rw [engine_of_macros consistent isSaved] at absent
  cases absent

end MagnetoX.Ota
