import MagnetoX.Ota.Restore

/-!
Owns the two alternate modes of the engine, `--restore-last` and `--verify-or-restore`:
a restore from the backup on record or from the one that the marker names, after which
the marker is removed.
-/

namespace MagnetoX.Ota

open Library.CrashLogic.Prog List

/-- `$(cat ...)` of a file that `echo` has written. -/
theorem captured_line {text : Text} {last : Char} (ends : text.getLast? = some last)
    (plain : last ≠ '\n') : captured (text ++ ['\n']) = text := by
  obtain ⟨early, rfl⟩ := getLast?_eq_some_iff.mp ends
  unfold captured
  rw [reverse_append, reverse_append, reverse_singleton, singleton_append,
    dropWhile_cons_of_pos (by decide), reverse_singleton, singleton_append,
    dropWhile_cons_of_neg (by simpa using plain), reverse_cons, reverse_reverse]

variable {path : Path}

section Marker

variable {before after : Machine} {places : List Path}

theorem not_marker_of_plain (isPlain : Plain path) : path ∉ [resolve APPLY_MARKER] := by
  intro member
  rw [mem_singleton.mp member] at isPlain
  exact isPlain.notOwn own_marker

theorem Within.unmarked (within : Within places before after) :
    Frame (resolve APPLY_MARKER :: places) before after :=
  within.toFrame.mono (fun _ member => .tail _ member)

theorem Frame.unmark (frame : Frame (resolve APPLY_MARKER :: places) before after) :
    Frame (resolve APPLY_MARKER :: places) before
      (after.update (after.files.erase (resolve APPLY_MARKER)) [resolve APPLY_MARKER]) where
  own path isOwn outside := by
    rw [← frame.own path isOwn outside]
    apply AList.lookup_erase_ne
    rintro rfl
    exact outside (.head _)
  backups := by
    rw [← frame.backups]
    exact below_erase (by decide)
  plain path isPlain outside := by
    rw [← frame.plain path isPlain outside]
    apply AList.lookup_erase_ne
    rintro rfl
    exact outside (.head _)
  touched path member := by
    rcases mem_cons.mp member with rfl | earlier
    · exact .inr (.inl own_marker)
    · exact frame.touched path earlier

end Marker

structure Restorable (machine : Machine) (backupDir : Text) (places : List Path) (view : View) :
    Prop where
  captures : machine.files.lookup (resolve backupDir ++ [COMPLETE]) ≠ none →
    Captures machine.files (resolve backupDir) places view
  inRoot : resolve BACKUP_ROOT <+: resolve backupDir
  plain : ∀ path ∈ places, Plain path

/-- Everything has been put back and the marker removed. -/
structure Restored (places : List Path) (view : View) (directory : Path) (before after : Machine) : Prop where
  frame : Frame (resolve APPLY_MARKER :: places) before after
  marker : after.files.lookup (resolve APPLY_MARKER) = none
  back : ∀ path, Covers before.files directory path → after.files.lookup path = view path

/-- What a restore leaves behind, which may stop with the marker as it was. -/
inductive RestoreLeft (places : List Path) (view : View) (directory : Path) (before after : Machine) : Prop where
  | stopped (within : Within places before after)
  | restored (done : Restored places view directory before after)

section Modes

variable {medium : Medium} {machine after : Machine} {places : List Path} {view : View}
  {context : Context} {backupDir : Text}

variable {directory : Path} {file : Text}

theorem Covers.plain {files : Files} (covers : Covers files directory path)
    (captures : Captures files directory places view) : Plain path := by
  rcases covers with ⟨rel, content, ordinary, rfl, _⟩ | ⟨rel, isNew, rfl⟩
  · exact ordinary.plain
  · exact (captures.created rel isNew).1.plain

theorem RestoreLeft.frame (left : RestoreLeft places view directory machine after) :
    Frame (resolve APPLY_MARKER :: places) machine after := by
  cases left with
  | stopped within => exact within.unmarked
  | restored done => exact done.frame

/-- How both modes end. -/
def unmark (context : Context) (line : Nat) (message : Text) : Script Unit := do
  must context line (remove (resolve APPLY_MARKER))
  must context 71 (writeStatus context "restored".toList message)

inductive UnmarkLeft (before after : Machine) : Prop where
  | stopped (within : Within [] before after)
  | unmarked (frame : Frame [resolve APPLY_MARKER] before after)
      (gone : after.files.lookup (resolve APPLY_MARKER) = none)

theorem UnmarkLeft.frame (left : UnmarkLeft machine after) : Frame [resolve APPLY_MARKER] machine after := by
  cases left with
  | stopped within => exact within.unmarked
  | unmarked frame _ => exact frame

theorem UnmarkLeft.withStatus {status : Option Status} (left : UnmarkLeft machine after)
    (failing : Failing after.status status) : UnmarkLeft machine (after.withStatus status) := by
  cases left with
  | stopped within => exact .stopped (within.withStatus status failing)
  | unmarked frame gone => exact .unmarked (frame.withStatus status) gone

theorem unmark_wp {line : Nat} {message : Text} :
    (unmark context line message).wp (step medium)
      ⟨fun _ after => Frame [resolve APPLY_MARKER] machine after ∧
          after.files.lookup (resolve APPLY_MARKER) = none,
        fun code after => code = 1 ∧ UnmarkLeft machine after, UnmarkLeft machine⟩ machine := by
  have begins := Within.refl [] machine
  have frame := begins.unmarked.unmark
  have gone : (machine.files.erase (resolve APPLY_MARKER)).lookup (resolve APPLY_MARKER) = none :=
    AList.lookup_erase _ _
  have stops : ∀ {returns : Unit → Machine → Prop}, Stops ⟨returns,
      fun code after => code = 1 ∧ UnmarkLeft machine after, UnmarkLeft machine⟩ :=
    fun _ _ left failing => ⟨rfl, left.withStatus failing⟩
  apply wp_do.mpr
  apply wp_must_remove stops (.stopped begins) (.stopped (.touch own_marker machine))
  exact wp_must_report stops (.unmarked frame gone) ⟨frame.withStatus _, gone⟩

/-- The files stay as they have been put back. -/
theorem Frame.still {restored : Machine} (frame : Frame [resolve APPLY_MARKER] restored after)
    (captures : Captures machine.files directory places view)
    (back : ∀ path, Covers machine.files directory path → restored.files.lookup path = view path) :
    ∀ path, Covers machine.files directory path → after.files.lookup path = view path := by
  intro path covers
  have isPlain := covers.plain captures
  rw [frame.plain path isPlain (not_marker_of_plain isPlain)]
  exact back path covers

/-- The end of a restore that has put everything back. -/
theorem unmark_restored_wp {line : Nat} {message : Text} {restored : Machine}
    (within : Within places machine restored) (captures : Captures machine.files directory places view)
    (back : ∀ path, Covers machine.files directory path → restored.files.lookup path = view path) :
    (unmark context line message).wp (step medium)
      ⟨fun _ => Restored places view directory machine,
        fun code after => code = 1 ∧ RestoreLeft places view directory machine after,
        RestoreLeft places view directory machine⟩ restored := by
  have done : ∀ {after}, Frame [resolve APPLY_MARKER] restored after →
      after.files.lookup (resolve APPLY_MARKER) = none → Restored places view directory machine after :=
    fun frame gone => ⟨within.unmarked.trans (frame.mono (cons_subset_cons _ (nil_subset _))), gone,
      frame.still captures back⟩
  have left : ∀ after, UnmarkLeft restored after → RestoreLeft places view directory machine after := by
    intro after left
    cases left with
    | stopped same => exact .stopped (within.trans (same.mono (nil_subset _)))
    | unmarked frame gone => exact .restored (done frame gone)
  apply wp_mono unmark_wp
  · exact fun _ _ ⟨frame, gone⟩ => done frame gone
  · exact fun _ _ ⟨isCode, unmarking⟩ => ⟨isCode, left _ unmarking⟩
  · exact left

/-- The script that both modes end in. -/
def restoreAndUnmark (context : Context) (line : Nat) (message backupDir : Text) : Script Unit := do
  restoreFromBackup context backupDir
  unmark context line message

theorem restoreAndUnmark_wp {line : Nat} {message : Text}
    (restorable : Restorable machine backupDir places view) :
    (restoreAndUnmark context line message backupDir).wp (step medium)
      ⟨fun _ => Restored places view (resolve backupDir) machine,
        fun code after => code = 1 ∧ RestoreLeft places view (resolve backupDir) machine after,
        RestoreLeft places view (resolve backupDir) machine⟩ machine := by
  apply wp_do.mpr
  apply wp_mono (restoreFromBackup_captures_wp restorable.inRoot restorable.plain
    restorable.captures)
  · exact fun _ _ ⟨within, captures, back⟩ => unmark_restored_wp within captures back
  · exact fun _ _ ⟨isCode, within⟩ => ⟨isCode, .stopped within⟩
  · exact fun _ within => .stopped within

def recordOf (machine : Machine) (file : Text) : Text :=
  captured ((machine.files.lookup (resolve file)).getD [])

theorem recordOf_none (gone : after.files.lookup (resolve file) = none) :
    recordOf after file = [] := by
  rw [recordOf, gone]
  rfl

theorem recordOf_congr
    (same : after.files.lookup (resolve file) = machine.files.lookup (resolve file)) :
    recordOf after file = recordOf machine file := by
  rw [recordOf, recordOf, same]

theorem Restored.touch (own : Own path) (done : Restored places view directory (machine.touch path) after) :
    Restored places view directory machine after :=
  { done with frame := (Frame.touch own machine).trans done.frame }

theorem RestoreLeft.touch (own : Own path)
    (left : RestoreLeft places view directory (machine.touch path) after) :
    RestoreLeft places view directory machine after := by
  cases left with
  | stopped within => exact .stopped ((Within.touch own machine).trans within)
  | restored done => exact .restored (done.touch own)

/-- A record that names nothing is refused. -/
theorem restoreAndUnmark_nil {line : Nat} {message : Text} (empty : backupDir = []) :
    (restoreAndUnmark context line message backupDir).wp (step medium)
      (stopping places machine (fun _ _ => False)) machine := by
  rw [empty]
  apply wp_do.mpr
  exact wp_die Within.stops (Within.refl _ _)

theorem lastBackup_wp :
    (lastBackup context).wp (step medium) (stopping places machine (fun backupDir after =>
      (backupDir = recordOf machine LAST_BACKUP_FILE ∧ backupDir ≠ []) ∧
        after = machine.touch (resolve LAST_BACKUP_FILE))) machine := by
  have touched : Within places machine (machine.touch (resolve LAST_BACKUP_FILE)) :=
    .touch own_lastBackup machine
  unfold lastBackup
  apply wp_do.mpr
  apply wp_readFile (Within.refl _ _) touched
  dsimp only
  rw [← recordOf]
  split
  · exact wp_die Within.stops touched
  · rename_i named
    exact ⟨⟨rfl, named⟩, rfl⟩

/-- `--restore-last` up to the first file that it puts back. -/
def findLast : Script (Text × List Path) := do
  let backupDir ← lastBackup ⟨"restore-last".toList, []⟩
  let saved ← savedFiles ⟨"restore-last".toList, []⟩ backupDir
  pure (backupDir, saved)

/-- `--restore-last` up to the last one. -/
def putBackLast : Script Unit := do
  let backupDir ← lastBackup ⟨"restore-last".toList, []⟩
  restoreFromBackup ⟨"restore-last".toList, []⟩ backupDir

theorem modeRestoreLast_eq :
    modeRestoreLast = putBackLast >>= fun _ => unmark ⟨"restore-last".toList, []⟩ 240 [] := by
  rw [putBackLast, bind_assoc]
  rfl

theorem putBackLast_eq : putBackLast = findLast >>= fun found =>
    putBack ⟨"restore-last".toList, []⟩ found.1 found.2 := by
  unfold findLast putBackLast restoreFromBackup
  simp only [bind_assoc]
  rfl

section

variable (restorable : recordOf machine LAST_BACKUP_FILE ≠ [] →
  Restorable machine (recordOf machine LAST_BACKUP_FILE) places view)
include restorable

/-- Nothing changes before the first file is put back. -/
theorem findLast_wp :
    findLast.wp (step medium) (.returning (fun _ _ => True) (Within [] machine)) machine := by
  have touched : Within [] machine (machine.touch (resolve LAST_BACKUP_FILE)) := .touch own_lastBackup machine
  apply wp_do.mpr
  apply wp_mono lastBackup_wp
  · rintro _ _ ⟨⟨rfl, named⟩, rfl⟩
    apply wp_do.mpr
    apply wp_mono (savedFiles_wp (restorable named).inRoot)
    · exact fun _ _ _ => trivial
    · exact fun _ _ left => touched.trans left.2
    · exact fun _ within => touched.trans within
  · exact fun _ _ left => left.2
  · exact fun _ within => within

theorem putBackLast_wp :
    putBackLast.wp (step medium) (stopping places machine (fun _ after =>
      (recordOf machine LAST_BACKUP_FILE ≠ [] ∧ Within places machine after) ∧
        Captures machine.files (resolve (recordOf machine LAST_BACKUP_FILE)) places view ∧
        ∀ path, Covers machine.files (resolve (recordOf machine LAST_BACKUP_FILE)) path →
          after.files.lookup path = view path)) machine := by
  have touched : Within places machine (machine.touch (resolve LAST_BACKUP_FILE)) :=
    .touch own_lastBackup machine
  apply wp_seq lastBackup_wp
  rintro _ _ ⟨⟨rfl, named⟩, rfl⟩
  obtain ⟨captures, inRoot, plain⟩ := restorable named
  have again : Restorable (machine.touch (resolve LAST_BACKUP_FILE)) (recordOf machine LAST_BACKUP_FILE) places
      view := ⟨captures, inRoot, plain⟩
  apply wp_mono (restoreFromBackup_captures_wp inRoot plain again.captures)
  · exact fun _ _ ⟨within, restores⟩ => ⟨⟨named, touched.trans within⟩, restores⟩
  · exact fun _ _ ⟨isCode, within⟩ => ⟨isCode, touched.trans within⟩
  · exact fun _ within => touched.trans within

/-- **`--restore-last`.** -/
theorem modeRestoreLast_wp :
    modeRestoreLast.wp (step medium)
      (.returning (fun _ after => recordOf machine LAST_BACKUP_FILE ≠ [] ∧
          Restored places view (resolve (recordOf machine LAST_BACKUP_FILE)) machine after)
        (RestoreLeft places view (resolve (recordOf machine LAST_BACKUP_FILE)) machine)) machine := by
  rw [modeRestoreLast_eq]
  apply wp_do.mpr
  apply wp_mono (putBackLast_wp restorable)
  · intro _ restored ⟨⟨named, within⟩, captures, back⟩
    apply wp_mono (unmark_restored_wp within captures back)
    · exact fun _ _ done => ⟨named, done⟩
    · exact fun _ _ ⟨_, left⟩ => left
    · exact fun _ left => left
  · exact fun _ _ ⟨_, within⟩ => .stopped within
  · exact fun _ within => .stopped within

end

/-- **`--verify-or-restore`.** -/
theorem modeVerifyOrRestore_wp (restorable : recordOf machine APPLY_MARKER ≠ [] →
      Restorable machine (recordOf machine APPLY_MARKER) places view) :
    modeVerifyOrRestore.wp (step medium) ⟨fun _ after => recordOf machine APPLY_MARKER ≠ [] ∧
          Restored places view (resolve (recordOf machine APPLY_MARKER)) machine after,
        fun code after => RestoreLeft places view (resolve (recordOf machine APPLY_MARKER))
            machine after ∧ (code = 0 → machine.files.lookup (resolve APPLY_MARKER) = none ∧
            Within places machine after),
        RestoreLeft places view (resolve (recordOf machine APPLY_MARKER)) machine⟩ machine := by
  have touched : Within places machine (machine.touch (resolve APPLY_MARKER)) :=
    .touch own_marker machine
  unfold modeVerifyOrRestore
  apply wp_do.mpr
  apply wp_readFile (RestoreLeft.stopped (Within.refl _ _)) (RestoreLeft.stopped touched)
  cases marker : machine.files.lookup (resolve APPLY_MARKER) with
  | none => exact ⟨.stopped touched, fun _ => ⟨rfl, touched⟩⟩
  | some content =>
    have isRecord : recordOf machine APPLY_MARKER = captured content := by
      rw [recordOf, marker, Option.getD_some]
    by_cases empty : captured content = []
    · apply wp_mono (@restoreAndUnmark_nil medium (machine.touch (resolve APPLY_MARKER)) places
        ⟨"verify".toList, []⟩ _ 258 _ empty)
      · exact fun _ _ impossible => impossible.elim
      · intro code after ⟨isCode, within⟩
        refine ⟨.stopped (touched.trans within), ?_⟩
        rw [isCode]
        exact nofun
      · exact fun _ within => .stopped (touched.trans within)
    · rw [← isRecord] at empty
      obtain ⟨captures, inRoot, plain⟩ := restorable empty
      have again : Restorable (machine.touch (resolve APPLY_MARKER))
          (recordOf machine APPLY_MARKER) places view := ⟨captures, inRoot, plain⟩
      dsimp only
      rw [← isRecord]
      apply wp_mono (restoreAndUnmark_wp again)
      · exact fun _ _ done => ⟨empty, done.touch own_marker⟩
      · intro code after ⟨isCode, left⟩
        refine ⟨left.touch own_marker, ?_⟩
        rw [isCode]
        exact nofun
      · exact fun _ left => left.touch own_marker

end Modes

end MagnetoX.Ota
