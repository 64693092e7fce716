import MagnetoX.Ota.Completion
import Mathlib.Data.Char
import Mathlib.Data.List.Lex
import Mathlib.Data.List.Sort

/-!
Owns the backups that complete updates leave when the clock reads anything: `phase_backup` names a
directory and records it in the last-backup file, and `prune_backups` keeps those that `ls -1t` lists first.
The directories are those of the engine: its loop leaves the files of `pruneDirs` and no others.
-/

namespace MagnetoX.Ota

open Library.CrashLogic Library.CrashLogic.Prog List

/-- A directory below `$BACKUP_ROOT`, and whether it carries `.backup-complete`. -/
structure BackupDir where
  name : Text
  mtime : Int
  complete : Bool
deriving DecidableEq, Repr

/-- The order of `ls -1t`: the newest first, and by name. -/
def BackupDir.Before (a b : BackupDir) : Prop := b.mtime < a.mtime ∨ a.mtime = b.mtime ∧ a.name ≤ b.name

instance : DecidableRel BackupDir.Before := fun _ _ => inferInstanceAs (Decidable (_ ∨ _))

/-- No two directories have one name. -/
structure BackupStore where
  dirs : List BackupDir
  lastBackup : Option Text
  unique : (dirs.map (·.name)).Nodup

/-- A complete update: the time stamp of its backup, and the clock when `.backup-complete` was created. -/
structure CompleteRun where
  version : Text
  stamp : Text
  clock : Int

def CompleteRun.name (run : CompleteRun) : Text := run.version ++ '-' :: run.stamp

/-- The directory of `phase_backup`. One that was there is used again; a complete one gets no new entry,
and keeps its modification time. -/
def CompleteRun.dir (run : CompleteRun) (dirs : List BackupDir) : BackupDir :=
  match dirs.find? (fun dir => dir.name == run.name && dir.complete) with
  | some old => ⟨run.name, old.mtime, true⟩
  | none => ⟨run.name, run.clock, true⟩

def CompleteRun.phaseBackup (run : CompleteRun) (dirs : List BackupDir) : List BackupDir :=
  run.dir dirs :: dirs.filter (fun dir => dir.name ≠ run.name)

def BackupDir.Listed (dir : BackupDir) : Prop := dir.name.head? ≠ some '.'

instance : DecidablePred BackupDir.Listed := fun _ => inferInstanceAs (Decidable (_ ≠ _))

/-- `ls -1t "$BACKUP_ROOT"`. -/
def listBackups (dirs : List BackupDir) : List BackupDir :=
  (dirs.filter (fun dir => dir.Listed)).insertionSort BackupDir.Before

def pruneDirs (dirs : List BackupDir) : List BackupDir :=
  dirs.filter (fun dir => dir ∉ (listBackups dirs).drop BACKUPS_TO_KEEP)

section Engine

variable {dirs : List BackupDir} {medium : Medium} {machine : Machine} {context : Context}

theorem completes_removeTree {directory : Path} {returns : Bool → Machine → Prop}
    (removes : ∀ after, (∀ path, after.files.lookup path =
      if directory <+: path then none else machine.files.lookup path) → returns true after) :
    (removeTree directory).wp (succeeding medium) (completes returns) machine := by
  refine ⟨trivial, fun fate => removes _ ?_⟩
  intro path
  change (removeAll machine.files (machine.files.keys.filter _)).lookup path = _
  rw [lookup_removeAll]
  by_cases isFile : path ∈ machine.files.keys
  · simp [isFile]
  · rw [AList.lookup_eq_none.mpr isFile, ite_self, ite_self]

/-- **The engine's loop**, given what `ls -1t` prints, keeps the files of the directories that `pruneDirs` keeps,
and removes those of the others. -/
theorem pruneListed_dirs (unique : (dirs.map (·.name)).Nodup) :
    (pruneListed context ((listBackups dirs).map (fun dir => [dir.name]))).wp (succeeding medium)
      (completes (fun _ after => ∀ dir ∈ dirs, ∀ path, backupAt dir.name <+: path →
        after.files.lookup path = if dir ∈ pruneDirs dirs then machine.files.lookup path else none)) machine := by
  unfold pruneListed
  rw [← map_drop]
  apply wp_forEach (fun done after => ∀ path, after.files.lookup path =
    if ∃ entry ∈ done, resolve BACKUP_ROOT ++ entry <+: path then none else machine.files.lookup path)
  · simp
  · intro done entry rest before _ kept
    apply completes_must
    apply completes_removeTree
    intro after removed
    refine ⟨rfl, fun path => ?_⟩
    rw [removed, kept]
    simp only [mem_append, mem_singleton, or_and_right, exists_or, exists_eq_left]
    split
    · simp [*]
    · simp [*]
  · intro after pruned dir isDir path inside
    have removed : (∃ entry ∈ ((listBackups dirs).drop BACKUPS_TO_KEEP).map (fun dir => [dir.name]),
        resolve BACKUP_ROOT ++ entry <+: path) ↔ dir ∉ pruneDirs dirs := by
      rw [pruneDirs, mem_filter, not_and, decide_eq_true_iff, not_not, forall_prop_of_true isDir]
      constructor
      · rintro ⟨_, member, also⟩
        obtain ⟨other, isOther, rfl⟩ := mem_map.mp member
        have listed := mem_of_mem_drop isOther
        rw [listBackups, mem_insertionSort] at listed
        have names := backupAt_unique inside also
        rwa [inj_on_of_nodup_map unique isDir (mem_of_mem_filter listed) names]
      · exact fun member => ⟨_, mem_map_of_mem member, inside⟩
    rw [pruned]
    simp only [removed, ite_not]

/-- **`prune_backups`** where `ls -1t` lists the directories by their modification times: a run whose commands
succeed leaves those of `pruneDirs`. -/
theorem pruneBackups_dirs {fate : Fate} {fates rest : List Fate} {after : Machine}
    (unique : (dirs.map (·.name)).Nodup) (unsteady : medium.steady = false)
    (shown : ((listBackups dirs).map (fun dir => [dir.name])).Perm (entries machine.files (resolve BACKUP_ROOT)))
    (inOrder : fate.listed (entries machine.files (resolve BACKUP_ROOT)) =
      (listBackups dirs).map (fun dir => [dir.name]))
    (ran : (pruneBackups context).run (succeeding medium) (fate :: fates) machine = .returns () after rest) :
    ∀ dir ∈ dirs, ∀ path, backupAt dir.name <+: path →
      after.files.lookup path = if dir ∈ pruneDirs dirs then machine.files.lookup path else none := by
  have listed : (pruneBackups context).run (succeeding medium) (fate :: fates) machine =
      (pruneListed context ((listBackups dirs).map (fun dir => [dir.name]))).run (succeeding medium) fates
        (machine.touch (resolve BACKUP_ROOT)) := by
    have answers : rearranged fate.listed (entries machine.files (resolve BACKUP_ROOT)) =
        (listBackups dirs).map (fun dir => [dir.name]) := by
      rw [rearranged, inOrder, if_pos shown]
    change run (succeeding medium) (call (Command.list (resolve BACKUP_ROOT)) (pruneListed context)) _ _ = _
    simp only [run, succeeding, step, Command.answer, unsteady, answers]
    rfl
  have meets := run_meets (@pruneListed_dirs _ medium (machine.touch (resolve BACKUP_ROOT)) context unique) fates
  rw [← listed, ran] at meets
  exact meets

end Engine

theorem CompleteRun.dir_name (run : CompleteRun) (dirs : List BackupDir) : (run.dir dirs).name = run.name := by
  unfold dir
  split <;> rfl

theorem CompleteRun.dir_complete (run : CompleteRun) (dirs : List BackupDir) : (run.dir dirs).complete = true := by
  unfold dir
  split <;> rfl

variable {dirs : List BackupDir}

theorem CompleteRun.unique_phaseBackup (run : CompleteRun)
    (unique : (dirs.map (·.name)).Nodup) : ((run.phaseBackup dirs).map (·.name)).Nodup := by
  rw [phaseBackup, map_cons, nodup_cons, dir_name]
  refine ⟨?_, unique.sublist (filter_sublist.map _)⟩
  simp

def BackupStore.update (store : BackupStore) (run : CompleteRun) : BackupStore where
  dirs := pruneDirs (run.phaseBackup store.dirs)
  lastBackup := some run.name
  unique := (run.unique_phaseBackup store.unique).sublist (List.filter_sublist.map _)

/-- `--restore-last` has something to restore. -/
def BackupStore.Restorable (store : BackupStore) : Prop :=
  ∃ dir ∈ store.dirs, some dir.name = store.lastBackup ∧ dir.complete = true

/-- How many of the other directories are listed before the one of the run. -/
def BackupStore.newer (store : BackupStore) (run : CompleteRun) : Nat :=
  store.dirs.countP (fun dir => dir.name ≠ run.name ∧ dir.Listed ∧ dir.Before (run.dir store.dirs))

theorem BackupDir.Before.antisymm {a b : BackupDir} (before : a.Before b) (after : b.Before a) : a.name = b.name := by
  rcases before with less | ⟨same, le⟩ <;> rcases after with less' | ⟨same', le'⟩
  · omega
  · omega
  · omega
  · exact le_antisymm le le'

theorem unique_listBackups (unique : (dirs.map (·.name)).Nodup) :
    ((listBackups dirs).map (·.name)).Nodup := by
  rw [listBackups, ((perm_insertionSort _ _).map _).nodup_iff]
  exact unique.sublist (filter_sublist.map _)

theorem pairwise_listBackups (dirs : List BackupDir) : (listBackups dirs).Pairwise BackupDir.Before := by
  have total : Std.Total BackupDir.Before := ⟨fun a b => by
    rcases lt_trichotomy a.mtime b.mtime with less | same | more
    · exact .inr (.inl less)
    · exact (le_total a.name b.name).imp (fun le => .inr ⟨same, le⟩) (fun le => .inr ⟨same.symm, le⟩)
    · exact .inl (.inl more)⟩
  have trans : IsTrans BackupDir BackupDir.Before := ⟨fun a b c first second => by
    rcases first with less | ⟨same, le⟩ <;> rcases second with less' | ⟨same', le'⟩
    · exact .inl (less'.trans less)
    · exact .inl (same' ▸ less)
    · exact .inl (same ▸ less')
    · exact .inr ⟨same.trans same', le.trans le'⟩⟩
  exact pairwise_insertionSort _ _

section Run

variable {store : BackupStore} {run : CompleteRun}

theorem BackupStore.restorable_update_iff : (store.update run).Restorable ↔
    run.dir store.dirs ∉ (listBackups (run.phaseBackup store.dirs)).drop BACKUPS_TO_KEEP := by
  constructor
  · rintro ⟨dir, member, isLast, -⟩
    obtain ⟨isDir, kept⟩ := mem_filter.mp member
    rcases mem_cons.mp isDir with rfl | older
    · exact of_decide_eq_true kept
    · exact absurd (Option.some.inj isLast) (of_decide_eq_true (mem_filter.mp older).2)
  · intro kept
    exact ⟨_, mem_filter.mpr ⟨.head _, decide_eq_true kept⟩, congrArg some (run.dir_name _),
      run.dir_complete _⟩

/-- The directories listed before that of the run are the newer ones. -/
theorem BackupStore.newer_eq {pre post : List BackupDir}
    (isList : listBackups (run.phaseBackup store.dirs) = pre ++ run.dir store.dirs :: post) :
    store.newer run = pre.length ∧ run.dir store.dirs ∉ post := by
  have names : run.name ∉ (pre ++ post).map (·.name) := by
    have nodup := unique_listBackups (run.unique_phaseBackup store.unique)
    rw [isList, map_append, map_cons, nodup_middle, ← map_append, nodup_cons,
      run.dir_name] at nodup
    exact nodup.1
  have other {dir : BackupDir} (member : dir ∈ pre ++ post) : dir.name ≠ run.name :=
    fun same => names (same ▸ mem_map_of_mem member)
  have sorted := pairwise_listBackups (run.phaseBackup store.dirs)
  rw [isList, pairwise_append] at sorted
  obtain ⟨-, after, before⟩ := sorted
  have count : store.newer run = (pre ++ run.dir store.dirs :: post).countP
      (fun dir => dir.name ≠ run.name ∧ dir.Before (run.dir store.dirs)) := by
    rw [← isList, listBackups, (perm_insertionSort _ _).countP_eq, countP_filter, CompleteRun.phaseBackup,
      countP_cons_of_neg (by simp [run.dir_name]), countP_filter, BackupStore.newer]
    congr 1
    funext dir
    simp
    grind
  constructor
  · rw [count, countP_append, countP_eq_length.mpr, countP_cons_of_neg (by simp [run.dir_name]),
      countP_eq_zero.mpr, Nat.add_zero]
    · intro dir member first
      have isOther := other (mem_append_right pre member)
      have back := (pairwise_cons.mp after).1 dir member
      exact isOther ((of_decide_eq_true first).2.antisymm back ▸ run.dir_name _)
    · intro dir member
      exact decide_eq_true ⟨other (mem_append_left post member), before dir member _ (.head _)⟩
  · exact fun member => other (mem_append_right pre member) (run.dir_name _)

end Run

/-- **The restore point.** After a run of any history there is something to restore exactly if the backup of that
run is hidden, or fewer than three others are newer. -/
theorem restorable_iff (store : BackupStore) (runs : List CompleteRun) (run : CompleteRun) :
    ((runs.foldl BackupStore.update store).update run).Restorable ↔
      run.name.head? = some '.' ∨ (runs.foldl BackupStore.update store).newer run < BACKUPS_TO_KEEP := by
  generalize runs.foldl BackupStore.update store = before
  rw [BackupStore.restorable_update_iff]
  by_cases hidden : run.name.head? = some '.'
  · have unlisted : run.dir before.dirs ∉ listBackups (run.phaseBackup before.dirs) := by
      simp [listBackups, BackupDir.Listed, run.dir_name, hidden]
    simp only [hidden, true_or, iff_true]
    exact fun member => unlisted (mem_of_mem_drop member)
  · have isListed : run.dir before.dirs ∈ listBackups (run.phaseBackup before.dirs) := by
      simp [listBackups, BackupDir.Listed, run.dir_name, hidden, CompleteRun.phaseBackup]
    obtain ⟨pre, post, isList⟩ := append_of_mem isListed
    obtain ⟨count, notLater⟩ := BackupStore.newer_eq isList
    rw [isList, count, drop_append, or_iff_right hidden]
    by_cases few : pre.length < BACKUPS_TO_KEEP
    · obtain ⟨more, isMore⟩ := Nat.exists_eq_add_of_lt few
      rw [drop_eq_nil_of_le few.le, nil_append, isMore, Nat.add_assoc, Nat.add_sub_cancel_left, drop_succ_cons]
      exact iff_of_true (fun member => notLater (mem_of_mem_drop member)) (by omega)
    · rw [Nat.sub_eq_zero_of_le (Nat.le_of_not_lt few), drop_zero]
      exact iff_of_false (fun absent => absent (mem_append_right _ (.head _))) few

def setBack (stamp : Text) (clock : Int) : CompleteRun := ⟨"1.2.0".toList, stamp, clock⟩

/-- When the clock has been set back before each of four updates, the last one prunes its own backup. -/
theorem setBack_prunes :
    ¬ ([setBack ['4'] 4, setBack ['3'] 3, setBack ['2'] 2, setBack ['1'] 1].foldl BackupStore.update
      ⟨[], none, List.nodup_nil⟩).Restorable := by
  unfold BackupStore.Restorable
  decide +kernel

end MagnetoX.Ota
