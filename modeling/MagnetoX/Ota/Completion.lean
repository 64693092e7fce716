import MagnetoX.Ota.Update

/-!
Owns the runs in which every command succeeds: `restore_from_backup` then runs to its
end, and so does a boot-time verification.
-/

namespace MagnetoX.Ota

open Library.CrashLogic Library.CrashLogic.Prog

def succeeding (medium : Medium) : Step Command.Resp Fate Machine := fun command fate =>
  step medium command { fate with verdict := .succeeds }

def completes {α : Type} (returns : α → Machine → Prop) : Ends Machine α :=
  ⟨returns, fun _ _ => False, fun _ => True⟩

section Rules

variable {medium : Medium} {machine : Machine} {path : Path}

theorem succeeding_refines (medium : Medium) (command : Command) (fate : Fate) (machine : Machine) :
    ∃ other, succeeding medium command fate machine = step medium command other machine :=
  ⟨_, rfl⟩

theorem completes_readFile {returns : Option Content → Machine → Prop}
    (reads : returns (machine.files.lookup path) (machine.touch path)) :
    (readFile path).wp (succeeding medium) (completes returns) machine :=
  ⟨trivial, fun _ => reads⟩

theorem completes_findFiles {directory : Path} {returns : List Path → Machine → Prop}
    (finds : ∀ found, found.Perm (below machine.files directory) →
      returns found (machine.touch directory)) :
    (findFiles directory).wp (succeeding medium) (completes returns) machine :=
  ⟨trivial, fun _ => finds _ (rearranged_perm _ _)⟩

variable {returns : Bool → Machine → Prop} {content : Content}

theorem completes_system (holds : returns true machine) :
    system.wp (succeeding medium) (completes returns) machine :=
  ⟨trivial, fun _ => holds⟩

theorem completes_copyTo (holds : returns true (machine.write path content)) :
    (copyTo path content).wp (succeeding medium) (completes returns) machine :=
  ⟨trivial, fun _ => holds⟩

theorem completes_remove (holds : returns true (machine.update (machine.files.erase path) [path])) :
    (remove path).wp (succeeding medium) (completes returns) machine :=
  ⟨trivial, fun _ => holds⟩

theorem completes_rename {source dest : Path} (present : machine.files.lookup source = some content)
    (holds : returns true
      (machine.update ((machine.files.erase source).insert dest content) [source, dest])) :
    (rename source dest).wp (succeeding medium) (completes returns) machine := by
  refine ⟨trivial, ?_⟩
  intro fate
  simp only [succeeding, step, Command.answer, Command.effect, Command.status, Command.paths,
    present]
  exact holds

end Rules

section Restore

variable {medium : Medium} {machine current : Machine} {places found : List Path} {view : View}
  {context : Context} {backupDir : Text}

/-- What is known of a script in general is also known of it when it completes. -/
theorem completes_and {α : Type} {script : Script α} {ends : Ends Machine α}
    {returns : α → Machine → Prop} (holds : script.wp (step medium) ends machine)
    (ending : script.wp (succeeding medium) (completes returns) machine) :
    script.wp (succeeding medium)
      (completes (fun value after => ends.returns value after ∧ returns value after)) machine := by
  apply wp_mono (wp_and (wp_of_refines (succeeding_refines medium) holds) ending)
  · exact fun _ _ both => both
  · exact fun _ _ both => both.2
  · exact fun _ _ => trivial

theorem completes_must {line : Nat} {command : Script Bool} {returns : Unit → Machine → Prop}
    (holds : command.wp (succeeding medium)
      (completes (fun ok after => ok = true ∧ returns () after)) machine) :
    (must context line command).wp (succeeding medium) (completes returns) machine := by
  apply wp_seq holds
  rintro ok after ⟨rfl, isReturn⟩
  exact isReturn

theorem atomicInstall_completes {source : Script (Option Content)} {dest : Text}
    (reads : source.wp (succeeding medium) (completes (fun content _ => content ≠ none)) machine) :
    (atomicInstall source dest).wp (succeeding medium) (completes (fun ok _ => ok = true))
      machine := by
  apply wp_bind.mpr
  apply completes_system
  apply wp_seq reads
  intro found opened isFound
  cases found with
  | none => exact absurd rfl isFound
  | some content =>
    apply wp_bind.mpr
    apply completes_copyTo
    apply wp_bind.mpr
    apply completes_system
    exact completes_rename (AList.lookup_insert _) rfl

theorem removeCreated_completes {rel : Text} (ordinary : Ordinary rel) :
    (removeCreated context rel).wp (succeeding medium) (completes (fun _ _ => True)) current := by
  obtain ⟨dest, isDest, _, _⟩ := ordinary.dest
  unfold removeCreated
  simp only [ordinary.ne_nil, if_false, isDest]
  exact completes_must (completes_remove ⟨rfl, trivial⟩)

theorem removeCreated_loop_completes
    (captures : Captures machine.files (resolve backupDir) places view) :
    (forEach (lines ((machine.files.lookup (resolve backupDir ++ [NEW_FILES])).getD []))
        (removeCreated context)).wp (succeeding medium) (completes (fun _ _ => True)) current := by
  apply wp_forEach (fun _ _ => True) trivial
  · intro done rel rest next split _
    by_cases empty : rel = []
    · rw [empty]
      trivial
    · have isNew := mem_newEntries (by rw [split]; simp) empty
      exact removeCreated_completes (captures.created rel isNew).1
  · exact fun _ _ => trivial

theorem Snapshot.found_ne_nil {files : Files} {directory : Path}
    (snapshot : Snapshot files directory places view) (isPerm : found.Perm (below files directory)) :
    found ≠ [] := by
  obtain ⟨content, isComplete⟩ := Option.ne_none_iff_exists'.mp snapshot.complete
  have member := isPerm.mem_iff.mpr (mem_below.mpr ⟨content, isComplete⟩)
  exact List.ne_nil_of_mem member

section Saved

variable (inRoot : resolve BACKUP_ROOT <+: resolve backupDir) (plain : ∀ path ∈ places, Plain path)
include inRoot plain

theorem restoreSaved_completes (captures : Captures machine.files (resolve backupDir) places view)
    {entry : Path} (found : entry ∈ below machine.files (resolve backupDir ++ [FILES]))
    (within : Within places machine current) :
    (restoreSaved context backupDir entry).wp (succeeding medium) (completes (fun _ _ => True))
      current := by
  obtain ⟨content, saved⟩ := savedEntry_of_found captures found
  obtain ⟨dest, isDest, _, _⟩ := saved.ordinary.dest
  obtain ⟨_, reads⟩ := saved.reads inRoot plain within
  unfold restoreSaved
  simp only [saved.ordinary.ne_nil, if_false, isDest]
  have present : ∀ found, found = some content → found ≠ none := by
    rintro _ rfl
    exact Option.some_ne_none content
  apply wp_seq (atomicInstall_completes (completes_readFile (present _ reads)))
  rintro ok after rfl
  trivial

theorem restoreSaved_loop_completes
    (captures : Captures machine.files (resolve backupDir) places view)
    {entries : List Path}
    (found : ∀ entry ∈ entries, entry ∈ below machine.files (resolve backupDir ++ [FILES]))
    (within : Within places machine current) :
    (forEach entries (restoreSaved context backupDir)).wp (succeeding medium)
      (completes (fun _ after => Within places machine after)) current := by
  apply wp_forEach (fun _ after => Within places machine after) within
  · intro done entry rest next split inside
    have isFound := found entry (by rw [split]; simp)
    apply wp_weaken (completes_and (restoreSaved_wp inRoot plain captures isFound inside)
      (restoreSaved_completes inRoot plain captures isFound inside))
    exact fun _ last ⟨⟨changes, isPlace, _⟩, _⟩ => inside.at_place isPlace changes
  · exact fun _ same => same

/-- **A restore whose commands all succeed puts the snapshot back.** -/
theorem restoreFromBackup_completes
    (snapshot : Snapshot machine.files (resolve backupDir) places view) :
    (restoreFromBackup context backupDir).wp (succeeding medium)
      (completes (fun _ after => Within places machine after ∧
        ∀ path ∈ places, after.files.lookup path = view path)) machine := by
  have nonempty : backupDir ≠ [] := by
    rintro rfl
    exact absurd inRoot (by decide)
  have ending : (restoreFromBackup context backupDir).wp (succeeding medium)
      (completes (fun _ _ => True)) machine := by
    have own := resolve_backup_own inRoot
    unfold restoreFromBackup savedFiles putBack
    rw [resolve_complete, resolve_files, resolve_newFiles, if_neg nonempty]
    apply wp_bind.mpr
    apply wp_bind.mpr
    apply completes_findFiles
    intro present isPerm
    rw [if_neg (snapshot.found_ne_nil isPerm)]
    apply wp_bind.mpr
    apply completes_readFile
    rw [if_neg (by exact snapshot.complete)]
    apply completes_findFiles
    intro entries isEntries
    have touched : Within places machine (((machine.touch (resolve backupDir)).touch
        (resolve backupDir ++ [COMPLETE])).touch (resolve backupDir ++ [FILES])) :=
      ((Within.touch (Own.of_backup inRoot) _).trans (.touch (own [COMPLETE]) _)).trans
        (.touch (own [FILES]) _)
    apply wp_seq (restoreSaved_loop_completes inRoot plain snapshot.toCaptures
      (fun entry member => isEntries.mem_iff.mp member) touched)
    intro _ restored inside
    apply wp_bind.mpr
    apply completes_readFile
    rw [inside.own _ (own [NEW_FILES]) (not_mem_of_own plain (own [NEW_FILES]))]
    apply wp_seq (removeCreated_loop_completes snapshot.toCaptures)
    exact fun _ _ _ => completes_must (completes_system ⟨rfl, trivial⟩)
  apply wp_weaken (completes_and (restoreFromBackup_wp inRoot plain snapshot) ending)
  exact fun _ _ both => both.1

end Saved

end Restore

end MagnetoX.Ota
