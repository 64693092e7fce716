import MagnetoX.Ota.Backup
import MagnetoX.Ota.Modes

/-!
Owns `phase_apply` up to the removal of the marker: from the first file that is replaced
to the last one the marker names the backup, so that at every point the files are
untouched, or marked, or put back.
-/

namespace MagnetoX.Ota

open Library.CrashLogic.Prog List

/-- An update or a restore is under way, or has failed. -/
def Unsettled (status : Option Status) : Prop :=
  ∃ current, status = some current ∧
    (current.state = "running".toList ∨ current.state = "failed".toList)

theorem Unsettled.failing {before after : Option Status} (unsettled : Unsettled before)
    (failing : Failing before after) : Unsettled after := by
  rcases failing with rfl | ⟨status, same, failed⟩
  · exact unsettled
  · exact ⟨status, same, .inr failed⟩

def Installed (release : Release) (files : Files) : Prop :=
  ∀ rel ∈ release.files, files.lookup (place rel) = some (release.payload (names rel))

instance (release : Release) (files : Files) : Decidable (Installed release files) :=
  inferInstanceAs (Decidable (∀ rel ∈ release.files, _ = _))

/-- What `phase_apply` leaves behind if it ends before it has removed the marker. -/
inductive ApplyLeft (medium : Medium) (release : Release) (backupDir : Text)
    (before after : Machine) : Prop where
  | idle (frame : Frame [resolve APPLY_MARKER] before after)
      (marker : after.files.lookup (resolve APPLY_MARKER) =
          before.files.lookup (resolve APPLY_MARKER) ∨
        ∃ left rest, medium.echo (resolve APPLY_MARKER) left = some rest ∧
          after.files.lookup (resolve APPLY_MARKER) = some rest)
  | applying (frame : Frame (resolve APPLY_MARKER :: release.places) before after)
      (marker : after.files.lookup (resolve APPLY_MARKER) = some (backupDir ++ ['\n']))
      (unsettled : Unsettled after.status)
  | undone (frame : Frame (resolve APPLY_MARKER :: release.places) before after)
      (marker : after.files.lookup (resolve APPLY_MARKER) = none)
      (plain : ∀ path, Plain path → after.files.lookup path = before.files.lookup path)

section Places

variable {rel other : Text}

theorem roots_apart : ∀ root ∈ roots, 2 < (resolve root.directory).length ∧
    ∀ other ∈ roots, (resolve root.directory)[2]? = (resolve other.directory)[2]? →
      root = other := by
  decide

/-- Entries that go to the same place name the same file of the payload. -/
theorem Ordinary.names_eq_of_place (ordinary : Ordinary rel) (isOrdinary : Ordinary other)
    (same : place rel = place other) : names rel = names other := by
  obtain ⟨root, rest, installs⟩ := ordinary.installs
  obtain ⟨otherRoot, otherRest, otherInstalls⟩ := isOrdinary.installs
  rw [installs.place_eq, otherInstalls.place_eq] at same
  obtain ⟨deep, apart⟩ := roots_apart root installs.isRoot
  obtain ⟨otherDeep, _⟩ := roots_apart otherRoot otherInstalls.isRoot
  have third := congrArg (fun path : Path => path[2]?) same
  simp only [getElem?_append_left deep, getElem?_append_left otherDeep] at third
  obtain rfl := apart otherRoot otherInstalls.isRoot third
  rw [installs.names_eq, otherInstalls.names_eq, append_cancel_left same]

end Places

section Apply

theorem ApplyLeft.stops {α : Type} {returns : α → Machine → Prop} {medium : Medium}
    {release : Release} {backupDir : Text} {before : Machine} :
    Stops (.returning returns (ApplyLeft medium release backupDir before)) := by
  intro after status left failing
  cases left with
  | idle frame marker => exact .idle (frame.withStatus status) marker
  | applying frame marker unsettled =>
    exact .applying (frame.withStatus status) marker (unsettled.failing failing)
  | undone frame marker plain => exact .undone (frame.withStatus status) marker plain

variable {medium : Medium} {release : Release} {backupDir : Text} {before marked after : Machine}

variable {rel : Text} {places : List Path} {path : Path}

theorem place_mem (isFile : rel ∈ release.files) : place rel ∈ release.places :=
  mem_map_of_mem isFile

theorem places_plain (isOrdinary : ∀ rel ∈ release.files, Ordinary rel) :
    ∀ path ∈ release.places, Plain path := by
  intro path member
  obtain ⟨rel, isFile, rfl⟩ := mem_map.mp member
  exact (isOrdinary rel isFile).plain

theorem applyOne_wp (ordinary : Ordinary rel) :
    (applyOne release rel).wp (step medium) ⟨fun ok after => Within [place rel] before after ∧
          (ok = true → after.files.lookup (place rel) = some (release.payload (names rel))),
        fun _ _ => False, Within [place rel] before⟩ before := by
  obtain ⟨dest, isDest, _, _⟩ := ordinary.dest
  unfold applyOne
  simp only [isDest]
  exact atomicInstall_wp ordinary isDest ⟨rfl, .refl _ _⟩

theorem Installed.step {done : List Text} (isOrdinary : ∀ other ∈ done ++ [rel], Ordinary other)
    (within : Within [place rel] before after)
    (own : after.files.lookup (place rel) = some (release.payload (names rel)))
    (installed : ∀ other ∈ done,
      before.files.lookup (place other) = some (release.payload (names other))) :
    ∀ other ∈ done ++ [rel],
      after.files.lookup (place other) = some (release.payload (names other)) := by
  intro other member
  have ordinary := isOrdinary other member
  by_cases same : place other = place rel
  · have isRel := isOrdinary rel (mem_append_right _ (mem_singleton.mpr rfl))
    rw [same, own, ordinary.names_eq_of_place isRel same]
  · rw [within.plain _ ordinary.plain (fun inside => same (mem_singleton.mp inside))]
    rcases mem_append.mp member with earlier | isOwn
    · exact installed other earlier
    · exact absurd (congrArg place (mem_singleton.mp isOwn)) same

theorem mem_applyOrder {files : List Text} : rel ∈ applyOrder files ↔ rel ∈ files := by
  unfold applyOrder
  rw [mem_append, mem_filter, mem_filter, ← and_or_left]
  constructor
  · exact fun member => member.1
  · intro member
    refine ⟨member, ?_⟩
    cases "ota/".toList.isPrefixOf rel with
    | true => exact .inr rfl
    | false => exact .inl rfl

/-- The marker has been set and nothing has been replaced yet. -/
structure Marked (release : Release) (backupDir : Text) (before marked : Machine) : Prop where
  frame : Frame [resolve APPLY_MARKER] before marked
  marker : marked.files.lookup (resolve APPLY_MARKER) = some (backupDir ++ ['\n'])
  unsettled : Unsettled marked.status
  inRoot : resolve BACKUP_ROOT <+: resolve backupDir
  snapshot : Snapshot before.files (resolve backupDir) release.places before.files.lookup
  isOrdinary : ∀ rel ∈ release.files, Ordinary rel

theorem Frame.own_record (frame : Frame (resolve APPLY_MARKER :: places) before after)
    (plain : ∀ path ∈ places, Plain path) (own : Own path) (notMarker : path ≠ resolve APPLY_MARKER) :
    after.files.lookup path = before.files.lookup path := by
  apply frame.own path own
  intro member
  rcases mem_cons.mp member with isMarker | isPlace
  · exact notMarker isMarker
  · exact (plain path isPlace).notOwn own

/-- The backups do not change while files are replaced or put back. -/
theorem Frame.backup (frame : Frame (resolve APPLY_MARKER :: places) before after)
    (plain : ∀ path ∈ places, Plain path) (inRoot : resolve BACKUP_ROOT <+: path) :
    after.files.lookup path = before.files.lookup path := by
  apply frame.own_record plain (Own.of_backup inRoot)
  rintro rfl
  exact absurd inRoot (by decide)

section

variable (isMarked : Marked release backupDir before marked)
include isMarked

section

variable (within : Within release.places marked after)
include within

theorem Marked.frame_of_within :
    Frame (resolve APPLY_MARKER :: release.places) before after := by
  apply Frame.trans (isMarked.frame.mono _) within.unmarked
  intro path member
  rw [mem_singleton.mp member]
  exact .head _

theorem Marked.applying :
    ApplyLeft medium release backupDir before after := by
  apply ApplyLeft.applying (isMarked.frame_of_within within)
  · rw [within.own _ own_marker (not_mem_of_own (places_plain isMarked.isOrdinary) own_marker)]
    exact isMarked.marker
  · exact isMarked.unsettled.failing within.status

/-- A file is replaced, or everything is put back. -/
theorem applyOrRollBack_wp (isFile : rel ∈ release.files) :
    (applyOrRollBack release backupDir rel).wp (step medium)
      (.returning (fun _ last => Within [place rel] after last ∧
          last.files.lookup (place rel) = some (release.payload (names rel)))
        (ApplyLeft medium release backupDir before)) after := by
  have plain := places_plain isMarked.isOrdinary
  have onlyPlace : ∀ {last}, Within [place rel] after last → Within release.places marked last :=
    fun changes => within.at_place (place_mem isFile) changes
  unfold applyOrRollBack
  apply wp_do.mpr
  apply wp_mono (applyOne_wp (isMarked.isOrdinary rel isFile))
  · intro ok tried ⟨changes, succeeds⟩
    cases ok with
    | true => exact ⟨changes, succeeds rfl⟩
    | false =>
      have inside := onlyPlace changes
      have snapshot := isMarked.snapshot.congr (fun path isBelow =>
        (isMarked.frame_of_within inside).backup plain (isMarked.inRoot.trans isBelow))
      apply wp_do.mpr
      apply wp_mono (restoreFromBackup_wp isMarked.inRoot plain snapshot)
      · intro _ restored ⟨restores, isOld⟩
        have back := inside.trans restores
        have frame := (isMarked.frame_of_within back).unmark
        have unmarked : (restored.files.erase (resolve APPLY_MARKER)).lookup
            (resolve APPLY_MARKER) = none := AList.lookup_erase _ _
        have old : ∀ path, Plain path →
            (restored.files.erase (resolve APPLY_MARKER)).lookup path =
              before.files.lookup path := by
          intro path isPlain
          have notMarker := not_marker_of_plain isPlain
          rw [AList.lookup_erase_ne (fun same => notMarker (mem_singleton.mpr same))]
          by_cases isPlace : path ∈ release.places
          · exact isOld path isPlace
          · rw [back.plain path isPlain isPlace, isMarked.frame.plain path isPlain notMarker]
        have looked := back.trans (Within.touch own_marker restored)
        apply wp_do.mpr
        apply wp_must_remove ApplyLeft.stops (isMarked.applying back) (isMarked.applying looked)
        apply wp_do.mpr
        exact wp_report (.undone frame unmarked old)
          (.undone (frame.withStatus _) unmarked old) (.undone frame unmarked old)
      · exact fun _ _ ⟨_, restores⟩ => isMarked.applying (inside.trans restores)
      · exact fun _ restores => isMarked.applying (inside.trans restores)
  · exact fun _ _ impossible => impossible.elim
  · exact fun _ changes => isMarked.applying (onlyPlace changes)

end

theorem applyAll_wp :
    (forEach (applyOrder release.files) (applyOrRollBack release backupDir)).wp (step medium)
      (.returning (fun _ last => Within release.places marked last ∧ Installed release last.files)
        (ApplyLeft medium release backupDir before)) marked := by
  apply wp_forEach (fun done last => Within release.places marked last ∧
    ∀ rel ∈ done, last.files.lookup (place rel) = some (release.payload (names rel)))
  · exact ⟨.refl _ _, nofun⟩
  · intro done rel rest next split ⟨within, installed⟩
    have isFile : ∀ other ∈ done ++ [rel], other ∈ release.files := by
      intro other member
      apply mem_applyOrder.mp
      rw [split, append_cons]
      exact mem_append_left _ member
    have own := isFile rel (mem_append_right _ (mem_singleton.mpr rfl))
    apply wp_weaken (applyOrRollBack_wp isMarked within own)
    intro _ last ⟨changes, replaced⟩
    refine ⟨within.at_place (place_mem own) changes, ?_⟩
    exact Installed.step (fun other member => isMarked.isOrdinary other (isFile other member))
      changes replaced installed
  · intro last ⟨within, installed⟩
    exact ⟨within, fun rel isFile => installed rel (mem_applyOrder.mpr isFile)⟩

end

theorem Frame.write_marker {content : Content} (status : Option Status) :
    Frame [resolve APPLY_MARKER] before
      ((before.withStatus status).write (resolve APPLY_MARKER) content) where
  own path _ outside :=
    AList.lookup_insert_ne (fun same => outside (mem_singleton.mpr same))
  backups := below_insert (by decide)
  plain path _ outside :=
    AList.lookup_insert_ne (fun same => outside (mem_singleton.mpr same))
  touched path member := by
    rcases mem_cons.mp member with rfl | earlier
    · exact .inr (.inl own_marker)
    · exact .inl earlier

/-- **`phase_apply`.** When the marker has been removed, all files have been replaced. -/
theorem applyFiles_wp (inRoot : resolve BACKUP_ROOT <+: resolve backupDir)
    (isOrdinary : ∀ rel ∈ release.files, Ordinary rel)
    (snapshot : Snapshot before.files (resolve backupDir) release.places before.files.lookup) :
    (applyFiles release backupDir).wp (step medium)
      (.returning (fun _ after => Frame (resolve APPLY_MARKER :: release.places) before after ∧
          after.files.lookup (resolve APPLY_MARKER) = none ∧ Installed release after.files)
        (ApplyLeft medium release backupDir before)) before := by
  have begins : Frame [resolve APPLY_MARKER] before before := .refl _ _
  have idle : ∀ status, ApplyLeft medium release backupDir before (before.withStatus status) :=
    fun status => .idle (begins.withStatus status) (.inl rfl)
  have touched : Frame [resolve APPLY_MARKER] before (before.touch (resolve APPLY_MARKER)) :=
    .touch own_marker _
  unfold applyFiles
  apply wp_seq (phase_wp (.idle begins (.inl rfl)) idle)
  rintro _ started ⟨_, isRunning, status, rfl⟩
  apply wp_do.mpr
  apply wp_must_echo ApplyLeft.stops (idle status)
  · exact .idle (touched.withStatus status) (.inl rfl)
  · exact fun left rest isRest =>
      .idle (.write_marker status) (.inr ⟨left, rest, isRest, AList.lookup_insert _⟩)
  -- The marker has been set.
  have isMarked : Marked release backupDir before
      ((before.withStatus status).write (resolve APPLY_MARKER) (backupDir ++ ['\n'])) :=
    ⟨.write_marker status, AList.lookup_insert _, ⟨_, isRunning, .inl rfl⟩, inRoot, snapshot,
      isOrdinary⟩
  apply wp_do.mpr
  apply wp_must_system ApplyLeft.stops (isMarked.applying (.refl _ _))
  apply wp_seq (applyAll_wp isMarked)
  intro _ last ⟨within, installed⟩
  have frame := (isMarked.frame_of_within within).unmark
  have unmarked : (last.files.erase (resolve APPLY_MARKER)).lookup (resolve APPLY_MARKER) = none :=
    AList.lookup_erase _ _
  have still : Installed release (last.files.erase (resolve APPLY_MARKER)) := by
    intro rel isFile
    rw [AList.lookup_erase_ne]
    · exact installed rel isFile
    · intro same
      exact not_marker_of_plain (isOrdinary rel isFile).plain (mem_singleton.mpr same)
  have looked := within.trans (Within.touch own_marker last)
  exact wp_must_remove ApplyLeft.stops (isMarked.applying within) (isMarked.applying looked)
    ⟨frame, unmarked, still⟩

end Apply

end MagnetoX.Ota
