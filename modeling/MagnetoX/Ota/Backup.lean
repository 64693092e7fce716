import MagnetoX.Ota.Restore

/-!
Owns `phase_backup`: the backup is a snapshot of the files that are about to be replaced
as soon as it carries `.backup-complete`, and it is named as the last backup only then.
Until the record is written nothing but the new backup directory changes.
-/

namespace MagnetoX.Ota

open Library.CrashLogic.Prog List

def listing (entries : List Text) : Content := entries.flatMap (fun rel => rel ++ ['\n'])

theorem listing_concat (entries : List Text) (rel : Text) :
    listing (entries ++ [rel]) = listing entries ++ (rel ++ ['\n']) := by
  rw [listing, flatMap_append, flatMap_singleton, listing]

theorem lines_listing {entries : List Text} (oneLine : ∀ rel ∈ entries, '\n' ∉ rel) :
    lines (listing entries) = entries := by
  induction entries with
  | nil => rfl
  | cons rel entries ih =>
    have first : (listing (rel :: entries)).splitOn '\n' =
        rel :: (listing entries).splitOn '\n' := by
      have spelled : listing (rel :: entries) = rel ++ '\n' :: listing entries := by
        rw [listing, flatMap_cons, append_assoc]
        rfl
      rw [spelled, splitOn_append_cons_self_of_not_mem (oneLine rel (.head _))]
    have rest := ih (fun other member => oneLine other (.tail _ member))
    rw [lines, first, dropLast_cons_of_ne_nil (splitOn_ne_nil _ _), ← lines, rest]

def Release.places (release : Release) : List Path := release.files.map place

/-- Only the new backup and the record of the last backup have changed. -/
structure BackingUp (release : Release) (directory : Path) (before after : Machine) : Prop where
  others : ∀ path, ¬ directory <+: path → path ≠ resolve LAST_BACKUP_FILE →
    after.files.lookup path = before.files.lookup path
  touched : ∀ path ∈ after.touched, path ∈ before.touched ∨ Allowed release.places path

structure Unfinished (release : Release) (directory : Path) (before after : Machine) : Prop
    extends BackingUp release directory before after where
  incomplete : after.files.lookup (directory ++ [COMPLETE]) = none
  record : after.files.lookup (resolve LAST_BACKUP_FILE) =
    before.files.lookup (resolve LAST_BACKUP_FILE)

structure Copied (directory : Path) (before : Machine) (done : List Text) (files : Files) : Prop where
  listed : files.lookup (directory ++ [NEW_FILES]) =
    some (listing (done.filter (fun rel => before.files.lookup (place rel) = none)))
  sound : ∀ entry content, files.lookup (directory ++ FILES :: entry) = some content →
    ∃ rel ∈ done, names rel = entry ∧ before.files.lookup (place rel) = some content
  copied : ∀ rel ∈ done, ∀ content, before.files.lookup (place rel) = some content →
    files.lookup (directory ++ FILES :: names rel) = some content

/-- The directory of the given name is the one among the backups that was written to last. -/
def Newest (name : Text) (files : Files) : Prop :=
  ∃ rest, below files (resolve BACKUP_ROOT) = [name, COMPLETE] :: rest

def backupAt (name : Text) : Path := resolve BACKUP_ROOT ++ [name]

theorem backupAt_unique {name other : Text} {path : Path} (inside : backupAt name <+: path)
    (also : backupAt other <+: path) : name = other := by
  have same := prefix_of_prefix_length_le inside also (by simp [backupAt])
  exact singleton_prefix_cons_iff.mp ((prefix_append_right_inj (resolve BACKUP_ROOT)).mp same)

structure BackedUp (release : Release) (name : Text) (before after : Machine) : Prop
    extends BackingUp release (backupAt name) before after where
  snapshot : Snapshot after.files (backupAt name) release.places before.files.lookup
  newest : Newest name after.files

section Backup

variable {medium : Medium} {release : Release} {directory : Path} {before after : Machine}
  {done : List Text}

theorem BackingUp.refl (release : Release) (directory : Path) (machine : Machine) :
    BackingUp release directory machine machine :=
  ⟨fun _ _ _ => rfl, fun _ member => .inl member⟩

theorem BackingUp.withStatus (backing : BackingUp release directory before after)
    (status : Option Status) : BackingUp release directory before (after.withStatus status) :=
  { backing with }

variable {path : Path} {content : Content} {files : Files} {rel name : Text}

theorem BackingUp.touch (backing : BackingUp release directory before after)
    (allowed : Allowed release.places path) :
    BackingUp release directory before (after.touch path) where
  others := backing.others
  touched other member := by
    rcases mem_cons.mp member with rfl | earlier
    · exact .inr allowed
    · exact backing.touched other earlier

theorem BackingUp.write (backing : BackingUp release directory before after)
    (inside : directory <+: path ∨ path = resolve LAST_BACKUP_FILE) (own : Own path) :
    BackingUp release directory before (after.write path content) where
  others other outside notRecord := by
    have different : other ≠ path := by
      rintro rfl
      rcases inside with isBelow | isRecord
      · exact outside isBelow
      · exact notRecord isRecord
    rw [← backing.others other outside notRecord]
    exact AList.lookup_insert_ne different
  touched := (backing.touch (.inl own)).touched

theorem Ordinary.place_eq_of_names {other : Text} (ordinary : Ordinary rel)
    (isOrdinary : Ordinary other) (same : names rel = names other) : place rel = place other := by
  rw [← ordinary.canonical.2, same, isOrdinary.canonical.2]

theorem names_not_singleton (directory entry : Path) (different : FILES ≠ name) :
    directory ++ FILES :: entry ≠ directory ++ [name] := by
  intro same
  exact different (cons.inj (append_cancel_left same)).1

section

variable (copied : Copied directory before done files)
include copied

theorem Copied.save (ordinary : Ordinary rel) (isOrdinary : ∀ other ∈ done, Ordinary other)
    (present : before.files.lookup (place rel) = some content) :
    Copied directory before (done ++ [rel])
      (files.insert (directory ++ FILES :: names rel) content) where
  listed := by
    rw [AList.lookup_insert_ne (names_not_singleton _ _ (by decide)).symm, copied.listed,
      filter_append, filter_cons_of_neg (by simp [present]), filter_nil,
      append_nil]
  sound entry saved isSaved := by
    by_cases same : names rel = entry
    · rw [same, AList.lookup_insert] at isSaved
      cases isSaved
      exact ⟨rel, by simp, same, present⟩
    · rw [AList.lookup_insert_ne (by simpa using fun equal => same equal.symm)] at isSaved
      obtain ⟨other, member, isNames, isContent⟩ := copied.sound entry saved isSaved
      exact ⟨other, mem_append_left _ member, isNames, isContent⟩
  copied other member saved isSaved := by
    by_cases same : names other = names rel
    · have isOrdinaryOther : Ordinary other := by
        rcases mem_append.mp member with earlier | own
        · exact isOrdinary other earlier
        · rw [mem_singleton.mp own]
          exact ordinary
      rw [isOrdinaryOther.place_eq_of_names ordinary same, present] at isSaved
      rw [same, AList.lookup_insert, isSaved]
    · rw [AList.lookup_insert_ne (by simpa using same)]
      rcases mem_append.mp member with earlier | own
      · exact copied.copied other earlier saved isSaved
      · exact absurd (congrArg names (mem_singleton.mp own)) same

theorem Copied.note (absent : before.files.lookup (place rel) = none) :
    Copied directory before (done ++ [rel]) (files.insert (directory ++ [NEW_FILES])
        ((files.lookup (directory ++ [NEW_FILES])).getD [] ++ (rel ++ ['\n']))) where
  listed := by
    rw [AList.lookup_insert, copied.listed, filter_append,
      filter_cons_of_pos (by simp [absent]), filter_nil, listing_concat,
      Option.getD_some]
  sound entry saved isSaved := by
    rw [AList.lookup_insert_ne (names_not_singleton _ _ (by decide))] at isSaved
    obtain ⟨other, member, isNames, isContent⟩ := copied.sound entry saved isSaved
    exact ⟨other, mem_append_left _ member, isNames, isContent⟩
  copied other member saved isSaved := by
    rw [AList.lookup_insert_ne (names_not_singleton _ _ (by decide))]
    rcases mem_append.mp member with earlier | own
    · exact copied.copied other earlier saved isSaved
    · rw [mem_singleton.mp own, absent] at isSaved
      cases isSaved

/-- A file beside them is not part of what is put back. -/
theorem Copied.insert {beside : Text} (notFiles : FILES ≠ beside) (notNew : NEW_FILES ≠ beside) :
    Copied directory before done (files.insert (directory ++ [beside]) content) where
  listed := by
    rw [AList.lookup_insert_ne, copied.listed]
    intro same
    exact notNew (cons.inj (append_cancel_left same)).1
  sound entry saved isSaved := by
    rw [AList.lookup_insert_ne (names_not_singleton _ _ notFiles)] at isSaved
    exact copied.sound entry saved isSaved
  copied other member saved isSaved := by
    rw [AList.lookup_insert_ne (names_not_singleton _ _ notFiles)]
    exact copied.copied other member saved isSaved

end

/-- With the flag a backup of all entries is a snapshot. -/
theorem Copied.snapshot (earlier : Copied directory before release.files files)
    (isOrdinary : ∀ rel ∈ release.files, Ordinary rel) :
    Snapshot (files.insert (directory ++ [COMPLETE]) content) directory release.places
      before.files.lookup := by
  have copied : Copied directory before release.files
      (files.insert (directory ++ [COMPLETE]) content) := earlier.insert (by decide) (by decide)
  have isNew : ∀ rel, rel ∈ newEntries (files.insert (directory ++ [COMPLETE]) content) directory ↔
      rel ∈ release.files ∧ before.files.lookup (place rel) = none ∧ rel ≠ [] := by
    intro rel
    rw [newEntries, copied.listed, Option.getD_some, lines_listing, mem_filter, mem_filter]
    · simp [and_assoc]
    · exact fun other member => release.oneLine other (mem_filter.mp member).1
  refine ⟨⟨?_, ?_⟩, ?_, ?_⟩
  · intro entry saved isSaved
    obtain ⟨rel, member, isNames, isContent⟩ := copied.sound entry saved isSaved
    exact ⟨rel, isOrdinary rel member, isNames, mem_map_of_mem member, isContent⟩
  · intro rel member
    obtain ⟨isFile, absent, _⟩ := (isNew rel).mp member
    exact ⟨isOrdinary rel isFile, mem_map_of_mem isFile, absent⟩
  · rw [AList.lookup_insert]
    exact Option.some_ne_none content
  · intro path member
    obtain ⟨rel, isFile, rfl⟩ := mem_map.mp member
    have ordinary := isOrdinary rel isFile
    cases present : before.files.lookup (place rel) with
    | none => exact .inr ⟨rel, (isNew rel).mpr ⟨isFile, present, ordinary.ne_nil⟩, rfl⟩
    | some saved =>
      exact .inl ⟨rel, saved, ordinary, rfl, copied.copied rel isFile saved present⟩

theorem Unfinished.withStatus (unfinished : Unfinished release directory before after)
    (status : Option Status) : Unfinished release directory before (after.withStatus status) :=
  ⟨unfinished.toBackingUp.withStatus status, unfinished.incomplete, unfinished.record⟩

theorem Unfinished.touch (unfinished : Unfinished release directory before after)
    (allowed : Allowed release.places path) :
    Unfinished release directory before (after.touch path) :=
  ⟨unfinished.toBackingUp.touch allowed, unfinished.incomplete, unfinished.record⟩

theorem not_record_of_backup (inRoot : resolve BACKUP_ROOT <+: path) :
    path ≠ resolve LAST_BACKUP_FILE := by
  rintro rfl
  exact absurd inRoot (by decide)

theorem Unfinished.write {rest : Path} (unfinished : Unfinished release directory before after)
    (inRoot : resolve BACKUP_ROOT <+: directory) (notFlag : rest ≠ [COMPLETE]) :
    Unfinished release directory before (after.write (directory ++ rest) content) where
  toBackingUp := unfinished.toBackingUp.write (.inl (prefix_append _ _))
    (Own.of_backup (inRoot.trans (prefix_append _ _)))
  incomplete := by
    rw [← unfinished.incomplete]
    apply AList.lookup_insert_ne
    intro same
    exact notFlag (append_cancel_left same).symm
  record := by
    rw [← unfinished.record]
    apply AList.lookup_insert_ne
    exact (not_record_of_backup (inRoot.trans (prefix_append _ _))).symm

theorem Unfinished.stops {α : Type} {returns : α → Machine → Prop} :
    Stops (.returning returns (Unfinished release directory before)) :=
  fun _ status unfinished _ => unfinished.withStatus status

variable {context : Context} {backupDir : Text}

theorem BackingUp.plain (backing : BackingUp release directory before after)
    (inRoot : resolve BACKUP_ROOT <+: directory) (isPlain : Plain path) :
    after.files.lookup path = before.files.lookup path := by
  apply backing.others path
  · exact fun isBelow => isPlain.not_below (inRoot.trans isBelow)
  · rintro rfl
    exact isPlain.notOwn own_lastBackup

theorem backupOne_wp (inRoot : resolve BACKUP_ROOT <+: resolve backupDir)
    (isFile : rel ∈ release.files) (ordinary : Ordinary rel)
    (isOrdinary : ∀ other ∈ done, Ordinary other)
    (unfinished : Unfinished release (resolve backupDir) before after)
    (copied : Copied (resolve backupDir) before done after.files) :
    (backupOne context backupDir rel).wp (step medium)
      (.returning (fun _ last => Unfinished release (resolve backupDir) before last ∧
          Copied (resolve backupDir) before (done ++ [rel]) last.files)
        (Unfinished release (resolve backupDir) before)) after := by
  obtain ⟨dest, isDest, isPlace, _⟩ := ordinary.dest
  have allowed : Allowed release.places (place rel) := .inr (.inl (mem_map_of_mem isFile))
  have read : after.files.lookup (place rel) = before.files.lookup (place rel) :=
    unfinished.plain inRoot ordinary.plain
  have touched := unfinished.touch allowed
  unfold backupOne
  simp only [isDest, isPlace, ordinary.resolve_saved, resolve_newFiles]
  apply wp_do.mpr
  apply wp_readFile unfinished touched
  rw [read]
  cases present : before.files.lookup (place rel) with
  | some content =>
    have notFlag : FILES :: names rel ≠ [COMPLETE] := fun same =>
      absurd (cons.inj same).1 (by decide)
    have own : Own (resolve backupDir ++ FILES :: names rel) := resolve_backup_own inRoot _
    have opened := touched.touch (.inl own)
    apply wp_do.mpr
    apply wp_must_system Unfinished.stops touched
    apply wp_do.mpr
    apply wp_copyTo touched
    · exact ⟨wp_die Unfinished.stops opened, opened⟩
    · exact ⟨touched.write inRoot notFlag, copied.save ordinary isOrdinary present⟩
    · intro rest
      have broken : Unfinished release (resolve backupDir) before
          ((after.touch (place rel)).write (resolve backupDir ++ FILES :: names rel) rest) :=
        touched.write inRoot notFlag
      exact ⟨wp_die Unfinished.stops broken, broken⟩
  | none =>
    have notFlag : [NEW_FILES] ≠ [COMPLETE] := by decide
    have own : Own (resolve backupDir ++ [NEW_FILES]) := resolve_backup_own inRoot _
    have opened := touched.touch (.inl own)
    apply wp_must Unfinished.stops
    apply wp_echoAppend touched
    · exact ⟨opened, opened⟩
    · exact ⟨touched.write inRoot notFlag, copied.note present⟩
    · intro rest
      have broken : Unfinished release (resolve backupDir) before
          ((after.touch (place rel)).write (resolve backupDir ++ [NEW_FILES]) rest) :=
        touched.write inRoot notFlag
      exact ⟨broken, broken⟩

section

variable (backed : BackedUp release name before after)
include backed

theorem BackedUp.withStatus
    (status : Option Status) : BackedUp release name before (after.withStatus status) :=
  ⟨backed.toBackingUp.withStatus status, backed.snapshot, backed.newest⟩

theorem BackedUp.write_record :
    BackedUp release name before (after.write (resolve LAST_BACKUP_FILE) content) where
  toBackingUp := backed.toBackingUp.write (.inr rfl) own_lastBackup
  snapshot := by
    apply backed.snapshot.congr
    intro path inside
    apply AList.lookup_insert_ne
    exact not_record_of_backup (IsPrefix.trans (prefix_append _ _) inside)
  newest := by
    obtain ⟨rest, isBelow⟩ := backed.newest
    exact ⟨rest, (below_insert (by decide)).trans isBelow⟩

theorem BackedUp.touch_record :
    BackedUp release name before (after.touch (resolve LAST_BACKUP_FILE)) :=
  ⟨backed.toBackingUp.touch (.inl own_lastBackup), backed.snapshot, backed.newest⟩

end

/-- Writing the flag completes the backup. -/
theorem Unfinished.complete
    (unfinished : Unfinished release (backupAt name) before after)
    (copied : Copied (backupAt name) before release.files after.files)
    (isOrdinary : ∀ rel ∈ release.files, Ordinary rel) :
    BackedUp release name before
      (after.write (backupAt name ++ [COMPLETE]) content) where
  toBackingUp := by
    apply unfinished.toBackingUp.write (.inl (prefix_append _ _))
    apply Own.of_backup
    rw [backupAt, append_assoc]
    exact prefix_append _ _
  snapshot := copied.snapshot isOrdinary
  newest := by
    have inside : (resolve BACKUP_ROOT).isPrefixOf (backupAt name ++ [COMPLETE]) :=
      isPrefixOf_iff_prefix.mpr (by
        rw [backupAt, append_assoc]
        exact prefix_append _ _)
    rw [Newest, Machine.write, Machine.update, below, AList.keys_insert,
      filter_cons_of_pos inside, map_cons, backupAt, append_assoc, drop_left]
    exact ⟨_, rfl⟩

/-- What a backup that does not run to its end leaves behind: the record names the backup
only if it is complete. -/
def BackupLeft (medium : Medium) (release : Release) (name : Text) (before after : Machine) : Prop :=
  Unfinished release (backupAt name) before after ∨
    BackedUp release name before after ∧
      (after.files.lookup (resolve LAST_BACKUP_FILE) =
          before.files.lookup (resolve LAST_BACKUP_FILE) ∨
        ∃ left rest, medium.echo (resolve LAST_BACKUP_FILE) left = some rest ∧
          after.files.lookup (resolve LAST_BACKUP_FILE) = some rest)

theorem BackupLeft.backing (left : BackupLeft medium release name before after) :
    BackingUp release (backupAt name) before after := by
  rcases left with unfinished | ⟨backed, _⟩
  · exact unfinished.toBackingUp
  · exact backed.toBackingUp

theorem BackupLeft.withStatus (left : BackupLeft medium release name before after)
    (status : Option Status) : BackupLeft medium release name before (after.withStatus status) := by
  rcases left with unfinished | ⟨backed, record⟩
  · exact .inl (unfinished.withStatus status)
  · exact .inr ⟨backed.withStatus status, record⟩

/-- A status that is written on the way is of no concern to the backup. -/
theorem phase_wp {holds : Machine → Prop} (begins : holds before)
    (keeps : ∀ status, holds (before.withStatus status)) :
    (phase context).wp (step medium)
      ⟨fun _ after => holds after ∧ after.status =
          some ⟨"running".toList, context.phase, context.version, []⟩ ∧
          ∃ status, after = before.withStatus status, fun _ after => holds after, holds⟩ before := by
  apply wp_do.mpr
  apply wp_report begins
  · exact ⟨keeps _, rfl, _, rfl⟩
  · apply wp_do.mpr
    exact wp_report begins (keeps _) begins

theorem BackupLeft.of_unfinished (isDir : resolve backupDir = backupAt name)
    (unfinished : Unfinished release (resolve backupDir) before after) :
    BackupLeft medium release name before after := by
  rw [isDir] at unfinished
  exact .inl unfinished

theorem BackupLeft.stops {α : Type} {returns : α → Machine → Prop} :
    Stops (.returning returns (BackupLeft medium release name before)) :=
  fun _ status left _ => left.withStatus status

open BackupLeft

theorem completeBackup_wp (isDir : resolve backupDir = backupAt name)
    (isOrdinary : ∀ rel ∈ release.files, Ordinary rel)
    (unfinished : Unfinished release (resolve backupDir) before after)
    (copied : Copied (resolve backupDir) before release.files after.files) :
    (completeBackup context release backupDir).wp (step medium)
      (.returning (fun _ last => BackedUp release name before last ∧
          last.files.lookup (resolve LAST_BACKUP_FILE) = some (backupDir ++ ['\n']))
        (BackupLeft medium release name before)) after := by
  rw [isDir] at unfinished copied
  have inRoot : resolve BACKUP_ROOT <+: backupAt name := prefix_append _ _
  have own : ∀ rest, Own (backupAt name ++ rest) := fun rest =>
    Own.of_backup (inRoot.trans (prefix_append _ _))
  have notFlag : [MANIFEST] ≠ [COMPLETE] := by decide
  unfold completeBackup
  rw [resolve_manifest, resolve_complete, isDir]
  apply wp_do.mpr
  apply wp_must stops
  apply wp_copyTo (Or.inl unfinished)
  · have untouched : BackupLeft medium release name before _ :=
      .inl (unfinished.touch (.inl (own [MANIFEST])))
    exact ⟨untouched, untouched⟩
  · -- The manifest has been copied.
    have described : Unfinished release (backupAt name) before
        (after.write (backupAt name ++ [MANIFEST]) release.manifest) :=
      unfinished.write inRoot notFlag
    have touched := described.touch (.inl (own [COMPLETE]))
    have completes : ∀ content, BackedUp release name before
        ((after.write (backupAt name ++ [MANIFEST]) release.manifest).write
          (backupAt name ++ [COMPLETE]) content) :=
      fun content => described.complete (copied.insert (by decide) (by decide)) isOrdinary
    have notRecorded : ∀ content,
        ((after.write (backupAt name ++ [MANIFEST]) release.manifest).write
          (backupAt name ++ [COMPLETE]) content).files.lookup
            (resolve LAST_BACKUP_FILE) = before.files.lookup (resolve LAST_BACKUP_FILE) := by
      intro content
      rw [← described.record]
      apply AList.lookup_insert_ne
      exact (not_record_of_backup (inRoot.trans (prefix_append _ _))).symm
    apply wp_do.mpr
    apply wp_must_echo stops (.inl described) (.inl touched)
      (fun _ rest _ => .inr ⟨completes rest, .inl (notRecorded rest)⟩)
    -- The flag has been set.
    have backed := completes []
    have complete : BackupLeft medium release name before _ := .inr ⟨backed, .inl (notRecorded [])⟩
    apply wp_do.mpr
    apply wp_must_system stops complete
    apply wp_must_echo stops complete
    · exact .inr ⟨backed.touch_record, .inl (notRecorded [])⟩
    · intro left rest isRest
      exact .inr ⟨backed.write_record, .inr ⟨left, rest, isRest, AList.lookup_insert _⟩⟩
    · exact ⟨backed.write_record, AList.lookup_insert _⟩
  · intro rest
    have broken : BackupLeft medium release name before
        (after.write (backupAt name ++ [MANIFEST]) rest) :=
      .inl (unfinished.write inRoot notFlag)
    exact ⟨broken, broken⟩

/-- **`phase_backup`.** A backup that runs to its end is a snapshot, and is on record. -/
theorem phaseBackup_wp (isDir : resolve backupDir = backupAt name)
    (isOrdinary : ∀ rel ∈ release.files, Ordinary rel)
    (fresh : ∀ path, resolve backupDir <+: path → before.files.lookup path = none) :
    (phaseBackup release backupDir).wp (step medium)
      (.returning (fun _ after => BackedUp release name before after ∧
          after.files.lookup (resolve LAST_BACKUP_FILE) = some (backupDir ++ ['\n']))
        (BackupLeft medium release name before)) before := by
  have inRoot : resolve BACKUP_ROOT <+: resolve backupDir := by
    rw [isDir]
    exact prefix_append _ _
  have begins : Unfinished release (resolve backupDir) before before :=
    ⟨.refl _ _ _, fresh _ (prefix_append _ _), rfl⟩
  have notFlag : [NEW_FILES] ≠ [COMPLETE] := by decide
  have left : ∀ {after}, Unfinished release (resolve backupDir) before after →
      BackupLeft medium release name before after := of_unfinished isDir
  unfold phaseBackup
  rw [resolve_newFiles]
  apply wp_do.mpr
  apply wp_imp (phase_wp begins begins.withStatus)
  · rintro _ started ⟨unfinished, _, status, rfl⟩
    apply wp_do.mpr
    apply wp_must_system stops (left unfinished)
    apply wp_do.mpr
    apply wp_must_echo stops (left unfinished)
    · exact left (unfinished.touch (.inl (resolve_backup_own inRoot [NEW_FILES])))
    · exact fun _ rest _ => left (unfinished.write inRoot notFlag)
    · apply wp_do.mpr
      apply wp_forEach (fun done after => Unfinished release (resolve backupDir) before after ∧
        Copied (resolve backupDir) before done after.files)
      · refine ⟨unfinished.write inRoot notFlag, AList.lookup_insert _, ?_, ?_⟩
        · intro entry content present
          rw [Machine.write, Machine.update,
            AList.lookup_insert_ne (names_not_singleton _ _ (by decide)), Machine.withStatus,
            fresh _ (prefix_append _ _)] at present
          cases present
        · rintro _ ⟨⟩
      · rintro done rel rest next split ⟨unfinished, copied⟩
        have isFile : ∀ other ∈ done ++ [rel], other ∈ release.files := by
          intro other member
          rw [split, append_cons]
          exact mem_append_left _ member
        have own := isFile rel (mem_append_right _ (mem_singleton.mpr rfl))
        have earlier : ∀ other ∈ done, Ordinary other := fun other member =>
          isOrdinary other (isFile other (mem_append_left _ member))
        apply wp_imp (backupOne_wp inRoot own (isOrdinary rel own) earlier unfinished copied)
        · exact fun _ _ same => same
        · exact fun _ same => left same
      · exact fun after kept => completeBackup_wp isDir isOrdinary kept.1 kept.2
  · exact fun _ same => left same

end Backup

end MagnetoX.Ota
