import MagnetoX.Ota.Engine

/-!
Owns the parts of the file system that the engine works on: its own files, the
temporary names of `atomic_install`, the installed units, and the plain files of the
printer, which are none of these. An ordinary entry of a manifest is installed as a plain file.
-/

namespace MagnetoX.Ota

open List

/-- The files that the engine keeps for itself. -/
def ownFiles : List Path :=
  [APPLY_MARKER, LAST_BACKUP_FILE, INSTALLED_VERSION_FILE, STATUS_FILE,
    STATUS_FILE ++ ".tmp".toList, LOCK_FILE].map resolve

/-- The engine's own files: the marker, the records, the status and the lock, everything
among the backups and in the staging directory. -/
def Own (path : Path) : Prop :=
  path ∈ ownFiles ∨ resolve BACKUP_ROOT <+: path ∨ resolve STAGING_DIR <+: path

instance (path : Path) : Decidable (Own path) := inferInstanceAs (Decidable (_ ∨ _ ∨ _))

def unitsIn (directory : Text) : List Path :=
  ["magneto-ota.service", "magneto-ota-verify.service"].map (fun unit => resolve (directory ++ '/' :: unit.toList))

/-- What belongs to the engine: its own files, its options and its units. -/
def OfEngine (path : Path) : Prop :=
  Own path ∨ path ∈ resolve OTA_CONF :: (unitsIn OTA_HOME ++ unitsIn SYSTEMD_DIR)

def Temporary (path : Path) : Prop :=
  ".ota-new".toList <:+ path.getLast?.getD []

instance (path : Path) : Decidable (Temporary path) := inferInstanceAs (Decidable (_ <:+ _))

structure Plain (path : Path) : Prop where
  notOwn : ¬ Own path
  notTemporary : ¬ Temporary path
  notUnit : path ∉ unitsIn SYSTEMD_DIR

def tempOf (path : Path) : Path := path.dropLast ++ [path.getLast?.getD [] ++ ".ota-new".toList]

theorem tempOf_concat (directory : Path) (last : Text) :
    tempOf (directory ++ [last]) = directory ++ [last ++ ".ota-new".toList] := by
  rw [tempOf, dropLast_concat, getLast?_concat, Option.getD_some]

theorem tempOf_temporary (path : Path) : Temporary (tempOf path) := by
  unfold Temporary tempOf
  rw [getLast?_concat, Option.getD_some]
  exact suffix_append _ _

theorem ownFiles_not_temporary : ∀ path ∈ ownFiles, ¬ Temporary path := by decide

/-- A temporary file lies beside the file it is for. -/
theorem below_of_tempOf {directory path : Path} (plain : ¬ Temporary directory)
    (below : directory <+: tempOf path) : directory <+: path := by
  rcases prefix_concat_iff.mp below with whole | inside
  · rw [← tempOf] at whole
    rw [whole] at plain
    exact absurd (tempOf_temporary path) plain
  · exact IsPrefix.trans inside (List.dropLast_prefix path)

theorem Own.not_tempOf {path : Path} (plain : ¬ Own path) : ¬ Own (tempOf path) := by
  intro own
  rcases own with isFile | inBackup | inStaging
  · exact ownFiles_not_temporary _ isFile (tempOf_temporary path)
  · exact plain (.inr (.inl (below_of_tempOf (by decide) inBackup)))
  · exact plain (.inr (.inr (below_of_tempOf (by decide) inStaging)))

theorem Own.of_backup {path : Path} (inBackup : resolve BACKUP_ROOT <+: path) : Own path :=
  .inr (.inl inBackup)

theorem own_marker : Own (resolve APPLY_MARKER) := by decide

theorem own_lastBackup : Own (resolve LAST_BACKUP_FILE) := by decide

theorem own_version : Own (resolve INSTALLED_VERSION_FILE) := by decide

theorem tempOf_not_plain (path : Path) : ¬ Plain (tempOf path) :=
  fun plain => plain.notTemporary (tempOf_temporary path)

/-- An entry that is installed as a plain file. -/
structure Ordinary (rel : Text) : Prop where
  installs : ∃ root rest, Installs rel root rest
  plain : Plain (place rel)

theorem slash_not_mem {path component : Text} (member : component ∈ path.splitOn '/') :
    '/' ∉ component := by
  induction path generalizing component with
  | nil =>
    rw [splitOn_nil, mem_singleton] at member
    rw [member]
    exact nofun
  | cons letter path ih =>
    rw [splitOn_cons_eq_if_modifyHead] at member
    split at member
    · rcases mem_cons.mp member with rfl | later
      · exact nofun
      · exact ih later
    · rename_i other
      cases split : path.splitOn '/' with
      | nil => exact absurd split (splitOn_ne_nil '/' path)
      | cons first rest =>
        rw [split] at member ih
        rcases mem_cons.mp member with rfl | later
        · intro slash
          rcases mem_cons.mp slash with rfl | deeper
          · simp at other
          · exact ih (.head _) deeper
        · exact ih (.tail _ later)

/-- A suffix without a slash is a suffix of the last component. -/
theorem splitOn_append_plain {path suffix last : Text} {before : List Text} (plain : '/' ∉ suffix)
    (split : path.splitOn '/' = before ++ [last]) :
    (path ++ suffix).splitOn '/' = before ++ [last ++ suffix] := by
  induction path generalizing before last with
  | nil =>
    obtain ⟨rfl, same⟩ := append_inj' (show [] ++ [[]] = before ++ [last] from split) rfl
    cases same
    exact splitOn_eq_singleton plain
  | cons letter path ih =>
    obtain ⟨early, final, isSplit⟩ : ∃ early final, path.splitOn '/' = early ++ [final] :=
      ⟨_, _, (dropLast_append_getLast (splitOn_ne_nil '/' path)).symm⟩
    rw [cons_append, splitOn_cons_eq_if_modifyHead]
    rw [splitOn_cons_eq_if_modifyHead, isSplit] at split
    split at split
    · rename_i slash
      obtain ⟨rfl, same⟩ :=
        append_inj' (show ([] :: early) ++ [final] = before ++ [last] from split) rfl
      cases same
      rw [if_pos slash, ih isSplit]
      rfl
    · rename_i other
      rw [if_neg other, ih isSplit]
      cases early with
      | nil =>
        obtain ⟨rfl, same⟩ :=
          append_inj' (show [] ++ [letter :: final] = before ++ [last] from split) rfl
        cases same
        rfl
      | cons first early =>
        obtain ⟨rfl, same⟩ := append_inj'
          (show ((letter :: first) :: early) ++ [final] = before ++ [last] from split) rfl
        cases same
        rfl

theorem names_of_split {path last : Text} {before : List Text}
    (split : path.splitOn '/' = before ++ [last]) (named : IsName last) :
    names path = before.filter (fun component => IsName component) ++ [last] := by
  simp [names, split, named]

theorem root_key_isName : ∀ root ∈ roots, IsName root.key := by decide

section Entry

variable {rel rest : Text} {root : Root}

/-- The temporary file of an entry lies beside it. -/
theorem Installs.temporary_eq (installs : Installs rel root rest) :
    resolve (temporary (root.directory ++ '/' :: rest)) = tempOf (place rel) := by
  obtain ⟨last, isLast, named, _⟩ := installs.last
  obtain ⟨before, split⟩ := getLast?_eq_some_iff.mp isLast
  have extended : (rest ++ ".ota-new".toList).splitOn '/' = before ++ [last ++ ".ota-new".toList] :=
    splitOn_append_plain (by decide) split
  have named' : IsName (last ++ ".ota-new".toList) := by
    refine ⟨?_, ?_, ?_⟩
    · exact append_ne_nil_of_right_ne_nil _ (by decide)
    · intro same
      have lengths := congrArg length same
      rw [length_append, show dot.length = 1 from rfl,
        show ".ota-new".toList.length = 8 by decide] at lengths
      omega
    · intro same
      have lengths := congrArg length same
      rw [length_append, show dotdot.length = 2 from rfl,
        show ".ota-new".toList.length = 8 by decide] at lengths
      omega
  have stays : dotdot ∉ (rest ++ ".ota-new".toList).splitOn '/' := by
    rw [extended]
    intro member
    rcases mem_append.mp member with early | final
    · apply installs.stays
      rw [split]
      exact mem_append_left _ early
    · exact named'.2.2 (mem_singleton.mp final).symm
  rw [temporary, append_assoc, cons_append, resolve_below _ stays,
    names_of_split extended named', installs.place_eq, names_of_split split named,
    ← append_assoc, ← append_assoc, tempOf_concat]

theorem Installs.names_eq (installs : Installs rel root rest) :
    names rel = root.key :: names rest := by
  have named := root_key_isName root installs.isRoot
  rw [installs.entry, names, splitOn_root installs.isRoot,
    filter_cons_of_pos (by exact decide_eq_true named), names]

theorem isName_of_mem_names {path component : Text} (member : component ∈ names path) :
    IsName component := by
  have kept := (mem_filter.mp member).2
  exact of_decide_eq_true kept

theorem splitOn_join {path : Text} (nonempty : names path ≠ []) :
    (['/'].intercalate (names path)).splitOn '/' = names path := by
  apply splitOn_intercalate '/' _ nonempty
  intro component member
  exact slash_not_mem (mem_filter.mp member).1

variable (installs : Installs rel root rest)
include installs

theorem Installs.names_ne_nil : names rest ≠ [] := by
  obtain ⟨last, isLast, _⟩ := installs.getLast?_names
  intro empty
  rw [empty] at isLast
  cases isLast

/-- An entry under its shortest spelling, as `find` prints it. -/
theorem Installs.canonical :
    Installs (['/'].intercalate (names rel)) root (['/'].intercalate (names rest)) where
  isRoot := installs.isRoot
  entry := by
    have nonempty := installs.names_ne_nil
    rw [installs.names_eq]
    cases isNames : names rest with
    | nil => exact absurd isNames nonempty
    | cons first others => simp [intercalate]
  stays := by
    rw [splitOn_join installs.names_ne_nil]
    intro member
    exact (isName_of_mem_names member).2.2 rfl
  last := by
    rw [splitOn_join installs.names_ne_nil]
    exact installs.getLast?_names

theorem Installs.names_join : names (['/'].intercalate (names rest)) = names rest := by
  conv_lhs => rw [names]
  rw [splitOn_join installs.names_ne_nil]
  apply filter_eq_self.mpr
  intro component member
  exact decide_eq_true (isName_of_mem_names member)

theorem Installs.place_canonical : place (['/'].intercalate (names rel)) = place rel := by
  rw [installs.canonical.place_eq, installs.names_join, installs.place_eq]

theorem Installs.dotdot_not_mem : dotdot ∉ rel.splitOn '/' := by
  rw [installs.entry, splitOn_root installs.isRoot]
  intro member
  rcases mem_cons.mp member with isKey | later
  · exact (root_key_isName root installs.isRoot).2.2 isKey.symm
  · exact installs.stays later

end Entry

theorem resolve_entry (directory : Text) {name : Text} (named : IsName name) (plain : '/' ∉ name) :
    resolve (directory ++ '/' :: name) = resolve directory ++ [name] := by
  have single : name.splitOn '/' = [name] := splitOn_eq_singleton plain
  rw [resolve_below, names, single, filter_cons_of_pos (by exact decide_eq_true named)]
  · rfl
  · rw [single]
    intro member
    exact named.2.2 (mem_singleton.mp member).symm

def FILES : Text := "files".toList
def NEW_FILES : Text := "new-files.list".toList
def COMPLETE : Text := ".backup-complete".toList
def MANIFEST : Text := "manifest.json".toList

theorem resolve_files (directory : Text) :
    resolve (directory ++ "/files".toList) = resolve directory ++ [FILES] :=
  resolve_entry directory (by decide) (by decide)

theorem resolve_newFiles (directory : Text) :
    resolve (directory ++ "/new-files.list".toList) = resolve directory ++ [NEW_FILES] :=
  resolve_entry directory (by decide) (by decide)

theorem resolve_complete (directory : Text) :
    resolve (directory ++ "/.backup-complete".toList) = resolve directory ++ [COMPLETE] :=
  resolve_entry directory (by decide) (by decide)

theorem resolve_manifest (directory : Text) :
    resolve (directory ++ "/manifest.json".toList) = resolve directory ++ [MANIFEST] :=
  resolve_entry directory (by decide) (by decide)

variable {rel : Text}

section

variable (ordinary : Ordinary rel)
include ordinary

theorem Ordinary.resolve_saved (directory : Text) :
    resolve (directory ++ "/files/".toList ++ rel) = resolve directory ++ FILES :: names rel := by
  obtain ⟨root, rest, installs⟩ := ordinary.installs
  have spelled : directory ++ "/files/".toList ++ rel = (directory ++ '/' :: FILES) ++ '/' :: rel := by
    rw [append_assoc, append_assoc]
    rfl
  rw [spelled, resolve_below _ installs.dotdot_not_mem, resolve_entry _ (by decide) (by decide),
    append_assoc]
  rfl

theorem Ordinary.canonical :
    Ordinary (['/'].intercalate (names rel)) ∧
      place (['/'].intercalate (names rel)) = place rel := by
  obtain ⟨root, rest, installs⟩ := ordinary.installs
  refine ⟨⟨⟨root, _, installs.canonical⟩, ?_⟩, installs.place_canonical⟩
  rw [installs.place_canonical]
  exact ordinary.plain

theorem Ordinary.ne_nil : rel ≠ [] := by
  obtain ⟨root, rest, installs⟩ := ordinary.installs
  rw [installs.entry]
  simp

/-- Where an ordinary entry and its temporary file go. -/
theorem Ordinary.dest :
    ∃ dest, destFor rel = some dest ∧ resolve dest = place rel ∧
      resolve (temporary dest) = tempOf (place rel) := by
  obtain ⟨root, rest, installs⟩ := ordinary.installs
  refine ⟨_, installs.destFor_eq, ?_, installs.temporary_eq⟩
  rw [place, installs.destFor_eq, Option.getD_some]

end

end MagnetoX.Ota
