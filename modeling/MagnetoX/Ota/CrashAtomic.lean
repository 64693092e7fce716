import MagnetoX.Ota.Completion

/-!
Owns the recovery of an update from a loss of power: `--verify-or-restore` run after an
update that was cut anywhere, itself cut any number of times, leaves the files of the
update all old or all new.
-/

namespace MagnetoX.Ota

open Library.CrashLogic Library.CrashLogic.Prog List

def Unchanged (release : Release) (before after : Machine) : Prop :=
  ∀ rel ∈ release.files, after.files.lookup (place rel) = before.files.lookup (place rel)

instance (release : Release) (before after : Machine) : Decidable (Unchanged release before after) :=
  inferInstanceAs (Decidable (∀ rel ∈ release.files, _ = _))

/-- A state from which the update can be completed or taken back. -/
inductive Recoverable (release : Release) (backupDir : Text) (before after : Machine) : Prop where
  | old (marker : after.files.lookup (resolve APPLY_MARKER) = none)
      (unchanged : Unchanged release before after)
  | marked (marker : after.files.lookup (resolve APPLY_MARKER) = some (backupDir ++ ['\n']))
      (snapshot : Snapshot after.files (resolve backupDir) release.places before.files.lookup)
  | new (marker : after.files.lookup (resolve APPLY_MARKER) = none)
      (installed : Installed release after.files)

def Atomic (release : Release) (before after : Machine) : Prop :=
  Unchanged release before after ∨ Installed release after.files

instance (release : Release) (before after : Machine) : Decidable (Atomic release before after) :=
  inferInstanceAs (Decidable (_ ∨ _))

section Recover

variable {medium : Medium} {release : Release} {setting : Setting} {backupDir : Text}
  {before after : Machine}

def Unmarked (before after : Machine) : Prop :=
  after.files.lookup (resolve APPLY_MARKER) = none ∧
    ∀ path, Plain path → after.files.lookup path = before.files.lookup path

/-- If no marker is there, a verification leaves all plain files alone. -/
theorem verify_unmarked_wp (marker : after.files.lookup (resolve APPLY_MARKER) = none) :
    modeVerifyOrRestore.wp (step medium) (.returning (fun _ => Unmarked after) (Unmarked after))
      after := by
  have same : ∀ {last}, RestoreLeft [] after.files.lookup (resolve (recordOf after APPLY_MARKER))
      after last → Unmarked after last := by
    intro last left
    constructor
    · cases left with
      | stopped within =>
        rw [within.own _ own_marker nofun]
        exact marker
      | restored done => exact done.marker
    · exact fun path isPlain => left.frame.plain path isPlain (not_marker_of_plain isPlain)
  have verified := @modeVerifyOrRestore_wp medium after [] after.files.lookup
    (fun named => absurd (recordOf_none marker) named)
  apply wp_mono verified
  · exact fun _ _ ⟨named, _⟩ => absurd (recordOf_none marker) named
  · exact fun _ _ ⟨left, _⟩ => same left
  · exact fun _ left => same left

section

variable (isOrdinary : ∀ rel ∈ release.files, Ordinary rel) {last : Machine}
include isOrdinary

/-- A restore that is cut stays recoverable, one that is not takes the update back. -/
theorem RestoreLeft.recoverable {directory : Path}
    (inRoot : resolve BACKUP_ROOT <+: resolve backupDir)
    (marker : after.files.lookup (resolve APPLY_MARKER) = some (backupDir ++ ['\n']))
    (snapshot : Snapshot after.files (resolve backupDir) release.places before.files.lookup)
    (isDirectory : directory = resolve backupDir)
    (left : RestoreLeft release.places before.files.lookup directory after last) :
    Recoverable release backupDir before last := by
  have plain := places_plain isOrdinary
  cases left with
  | stopped within =>
    apply Recoverable.marked
    · rw [within.own _ own_marker (not_mem_of_own plain own_marker)]
      exact marker
    · exact snapshot.congr (fun path isBelow =>
        within.unmarked.backup plain (inRoot.trans isBelow))
  | restored done =>
    obtain ⟨-, gone, back⟩ := done
    apply Recoverable.old gone
    intro rel isFile
    apply back
    rw [isDirectory]
    exact snapshot.covers _ (place_mem isFile)

theorem Unmarked.recoverable (atomic : Atomic release before after) (left : Unmarked after last) :
    Recoverable release backupDir before last ∧ Atomic release before last := by
  obtain ⟨gone, plain⟩ := left
  rcases atomic with unchanged | installed
  · have still : Unchanged release before last := fun rel isFile =>
      (plain _ (isOrdinary rel isFile).plain).trans (unchanged rel isFile)
    exact ⟨.old gone still, .inl still⟩
  · have still : Installed release last.files := fun rel isFile =>
      (plain _ (isOrdinary rel isFile).plain).trans (installed rel isFile)
    exact ⟨.new gone still, .inr still⟩

/-- A recoverable state, and all old or all new where a verification ends normally. -/
abbrev verified (release : Release) (backupDir : Text) (before : Machine) : Ends Machine Unit :=
  ⟨fun _ last => Recoverable release backupDir before last ∧ Atomic release before last,
    fun code last => Recoverable release backupDir before last ∧
      (code = 0 → Atomic release before last),
    Recoverable release backupDir before⟩

theorem Atomic.verify (marker : after.files.lookup (resolve APPLY_MARKER) = none)
    (atomic : Atomic release before after) :
    modeVerifyOrRestore.wp (step medium) (verified release backupDir before) after := by
  apply wp_mono (verify_unmarked_wp marker)
  · exact fun _ _ left => left.recoverable isOrdinary atomic
  · intro _ _ left
    obtain ⟨recoverable, still⟩ := left.recoverable isOrdinary atomic
    exact ⟨recoverable, fun _ => still⟩
  · exact fun _ left => (left.recoverable isOrdinary atomic).1

theorem Recoverable.verify (inRoot : resolve BACKUP_ROOT <+: resolve backupDir)
    (isCaptured : captured (backupDir ++ ['\n']) = backupDir)
    (recoverable : Recoverable release backupDir before after) :
    modeVerifyOrRestore.wp (step medium) (verified release backupDir before) after := by
  cases recoverable with
  | marked marker snapshot =>
    have isRecord : recordOf after APPLY_MARKER = backupDir := by
      rw [recordOf, marker]
      exact isCaptured
    have restorable : recordOf after APPLY_MARKER ≠ [] → Restorable after
        (recordOf after APPLY_MARKER) release.places before.files.lookup := by
      rw [isRecord]
      exact fun _ => ⟨fun _ => snapshot.toCaptures, inRoot, places_plain isOrdinary⟩
    apply wp_mono (modeVerifyOrRestore_wp restorable)
    · rintro _ last ⟨_, _, gone, back⟩
      have unchanged : Unchanged release before last := by
        intro rel isFile
        apply back
        rw [isRecord]
        exact snapshot.covers _ (place_mem isFile)
      exact ⟨.old gone unchanged, .inl unchanged⟩
    · rintro code last ⟨left, normal⟩
      refine ⟨left.recoverable isOrdinary inRoot marker snapshot (by rw [isRecord]), ?_⟩
      intro isZero
      rw [(normal isZero).1] at marker
      cases marker
    · exact fun _ left => left.recoverable isOrdinary inRoot marker snapshot (by rw [isRecord])
  | old marker unchanged => exact Atomic.verify isOrdinary marker (.inl unchanged)
  | new marker installed => exact Atomic.verify isOrdinary marker (.inr installed)

end

/-- What an update leaves behind is recoverable, if no marker was left over before and the
marker is written as one unit. -/
theorem UpdateLeft.recoverable (orderly : Orderly setting release before)
    (unmarked : before.files.lookup (resolve APPLY_MARKER) = none)
    (left : UpdateLeft (powerLoss (resolve APPLY_MARKER)) setting release before after) :
    Recoverable release (backupDirFor setting release) before after := by
  have plain := places_plain orderly.isOrdinary
  have isDir := @resolve_backupDirFor release setting orderly.slash
  have inBackup : resolve BACKUP_ROOT <+: backupAt (backupName setting release) :=
    prefix_append _ _
  have apart : ¬ backupAt (backupName setting release) <+: resolve APPLY_MARKER := by
    intro isBelow
    exact absurd (inBackup.trans isBelow) (by decide)
  have saved_unchanged : ∀ {saved}, BackingUp release
      (backupAt (backupName setting release)) before saved →
      Unchanged release before saved ∧ saved.files.lookup (resolve APPLY_MARKER) = none := by
    intro saved backing
    refine ⟨fun rel isFile => backing.plain inBackup (orderly.isOrdinary rel isFile).plain, ?_⟩
    rw [backing.others _ apart (by decide)]
    exact unmarked
  rcases left with (left | ⟨saved, backed, record, left⟩) |
    ⟨saved, applied, ⟨backed, record, frame, marker, installed⟩, left⟩
  · obtain ⟨unchanged, marker⟩ := saved_unchanged left.backing
    exact .old marker unchanged
  · obtain ⟨unchanged, marker⟩ := saved_unchanged backed.toBackingUp
    cases left with
    | idle frame same =>
      apply Recoverable.old
      · rcases same with same | ⟨torn, rest, isRest, _⟩
        · rw [same, marker]
        · -- The marker is written as one unit.
          simp [powerLoss] at isRest
      · intro rel isFile
        have isPlain := (orderly.isOrdinary rel isFile).plain
        rw [frame.plain _ isPlain (not_marker_of_plain isPlain)]
        exact unchanged rel isFile
    | applying frame marked _ =>
      apply Recoverable.marked marked
      rw [isDir]
      exact backed.snapshot.congr (fun path isBelow =>
        frame.backup plain (inBackup.trans isBelow))
    | undone frame gone back =>
      apply Recoverable.old gone
      intro rel isFile
      rw [back _ (orderly.isOrdinary rel isFile).plain]
      exact unchanged rel isFile
  · apply Recoverable.new
    · rw [left.records _ (by decide) (by decide)]
      exact marker
    · intro rel isFile
      rw [left.plain _ (orderly.isOrdinary rel isFile).plain]
      exact installed rel isFile

end Recover

def applyFirst (release : Release) (done : List Text) : Script Unit :=
  forEach done (fun rel => do if ← applyOne release rel then pure () else exit 1)

/-- A restore takes the applied state back to the saved one, as far as plain files are
concerned; it runs to its end if its commands succeed; to do it again changes nothing. -/
structure Inverts (medium : Medium) (context : Context) (backupDir : Text)
    (saved applied : Machine) : Prop where
  completes : ∀ fates : ℕ → Fate, ∃ count restored,
    (restoreFromBackup context backupDir).run (succeeding medium)
      ((List.range count).map fates) applied = .returns () restored []
  inverse : ∀ fates restored rest,
    (restoreFromBackup context backupDir).run (step medium) fates applied =
      .returns () restored rest →
    ∀ path, Plain path → restored.files.lookup path = saved.files.lookup path
  idempotent : ∀ fates restored rest,
    (restoreFromBackup context backupDir).run (step medium) fates applied =
      .returns () restored rest →
    ∀ more again left, (restoreFromBackup context backupDir).run (step medium) more restored =
      .returns () again left →
    ∀ path, Plain path → again.files.lookup path = restored.files.lookup path

section Invert

variable {medium : Medium} {release : Release} {context : Context} {backupDir : Text}
  {saved applied : Machine}

theorem succeeding_answers (command : Command) (fate : Fate) (machine : Machine) :
    (succeeding medium command fate machine).1 ≠ none := by
  cases command with
  | rename source dest =>
    simp only [succeeding, step, Command.answer]
    split
    · exact Option.some_ne_none _
    · simp
  | list directory =>
    simp only [succeeding, step, Command.answer]
    split
    · contradiction
    · split <;> exact Option.some_ne_none _
  | _ => exact Option.some_ne_none _

/-- Replacing files changes nothing else. -/
theorem applyFirst_wp (isOrdinary : ∀ rel ∈ release.files, Ordinary rel) {done : List Text}
    (subset : ∀ rel ∈ done, rel ∈ release.files) :
    (applyFirst release done).wp (step medium)
      ⟨fun _ after => Within release.places saved after, fun _ _ => True, fun _ => True⟩ saved := by
  apply wp_forEach (fun _ after => Within release.places saved after) (Within.refl _ _)
  · intro early rel rest next split within
    have isFile := subset rel (by rw [split]; simp)
    apply wp_do.mpr
    apply wp_mono (applyOne_wp (isOrdinary rel isFile))
    · intro ok tried ⟨changes, _⟩
      cases ok with
      | false => trivial
      | true => exact within.at_place (place_mem isFile) changes
    · exact fun _ _ _ => trivial
    · exact fun _ _ => trivial
  · exact fun _ same => same

theorem inverts_of_within (isOrdinary : ∀ rel ∈ release.files, Ordinary rel)
    (inRoot : resolve BACKUP_ROOT <+: resolve backupDir)
    (snapshot : Snapshot saved.files (resolve backupDir) release.places saved.files.lookup)
    (within : Within release.places saved applied) :
    Inverts medium context backupDir saved applied := by
  have plain := places_plain isOrdinary
  have snapshotAfter : ∀ {after}, Within release.places saved after →
      Snapshot after.files (resolve backupDir) release.places saved.files.lookup := by
    intro after inside
    exact snapshot.congr (fun path isBelow => inside.unmarked.backup plain (inRoot.trans isBelow))
  have restores : ∀ {current} fates restored rest, Within release.places saved current →
      (restoreFromBackup context backupDir).run (step medium) fates current =
        .returns () restored rest →
      Within release.places saved restored ∧
        ∀ path, Plain path → restored.files.lookup path = saved.files.lookup path := by
    intro current fates restored rest inside ran
    have meets := run_meets (@restoreFromBackup_wp medium _ _ _ context _ inRoot plain
      (snapshotAfter inside)) fates
    rw [ran] at meets
    obtain ⟨changes, isSaved⟩ := meets
    refine ⟨inside.trans changes, ?_⟩
    intro path isPlain
    by_cases isPlace : path ∈ release.places
    · exact isSaved path isPlace
    · exact (inside.trans changes).plain path isPlain isPlace
  refine ⟨?_, ?_, ?_⟩
  · intro fates
    obtain ⟨count, ⟨value, restored, ran⟩ | ⟨code, restored, ran⟩⟩ :=
      run_finishes succeeding_answers (restoreFromBackup context backupDir) fates applied
    · exact ⟨count, restored, ran⟩
    · have meets := run_meets (@restoreFromBackup_completes medium _ _ _ context _
        inRoot plain (snapshotAfter within)) ((range count).map fates)
      rw [ran] at meets
      exact meets.elim
  · intro fates restored rest ran
    exact (restores fates restored rest within ran).2
  · intro fates restored rest ran more again left repeated path isPlain
    obtain ⟨inside, isSaved⟩ := restores fates restored rest within ran
    rw [(restores more again left inside repeated).2 path isPlain, isSaved path isPlain]

end Invert

/-- The machine after some boots at each of which `--verify-or-restore` was cut or failed. -/
def afterBoots (medium : Medium) (boots : List (List Fate)) (machine : Machine) : Machine :=
  boots.foldl (fun machine fates => (modeVerifyOrRestore.run (step medium) fates machine).state)
    machine

def EndsNormally : Ending Fate Machine Unit → Prop
  | .returns _ _ _ => True
  | .exits code _ => code = 0
  | .cut _ => False

instance : DecidablePred EndsNormally := fun ending =>
  match ending with
  | .returns _ _ _ => .isTrue trivial
  | .exits code _ => inferInstanceAs (Decidable (code = 0))
  | .cut _ => .isFalse (fun impossible => impossible)

section PowerLoss

variable {medium : Medium} {release : Release} {setting : Setting} {backupDir : Text}
  {before after : Machine}

theorem Recoverable.afterBoots (isOrdinary : ∀ rel ∈ release.files, Ordinary rel)
    (inRoot : resolve BACKUP_ROOT <+: resolve backupDir)
    (isCaptured : captured (backupDir ++ ['\n']) = backupDir)
    (recoverable : Recoverable release backupDir before after) (boots : List (List Fate)) :
    Recoverable release backupDir before (afterBoots medium boots after) := by
  induction boots generalizing after with
  | nil => exact recoverable
  | cons fates boots ih =>
    apply ih
    have meets := run_meets (@Recoverable.verify medium _ _ _ _ isOrdinary inRoot isCaptured
      recoverable) fates
    exact meets.state (fun _ _ both => both.1) (fun _ _ both => both.1) (fun _ same => same)

/-- **Crash atomicity.** An update with ordinary entries that starts without a marker may
be cut anywhere, and the boots that follow as well: once a verification ends normally, the
files of the update are all old or all new. A restore is the exact inverse of any applied
part of the file list, and idempotent. -/
theorem update_crash_atomic (orderly : Orderly setting release before)
    (unmarked : before.files.lookup (resolve APPLY_MARKER) = none) :
    (∀ fates boots last,
      EndsNormally (modeVerifyOrRestore.run (step (powerLoss (resolve APPLY_MARKER))) last
        (afterBoots (powerLoss (resolve APPLY_MARKER)) boots
          ((installUpdate setting release).run (step (powerLoss (resolve APPLY_MARKER))) fates
            before).state)) →
      Atomic release before (modeVerifyOrRestore.run (step (powerLoss (resolve APPLY_MARKER))) last
        (afterBoots (powerLoss (resolve APPLY_MARKER)) boots
          ((installUpdate setting release).run (step (powerLoss (resolve APPLY_MARKER))) fates
            before).state)).state) ∧
    ∀ medium context early saved middle done late applied rest,
      (phaseBackup release (backupDirFor setting release)).run (step medium) early before =
        .returns () saved middle →
      done <+: applyOrder release.files →
      (applyFirst release done).run (step medium) late saved = .returns () applied rest →
      Inverts medium context (backupDirFor setting release) saved applied := by
  have isDir := @resolve_backupDirFor release setting orderly.slash
  have inRoot := @backupDirFor_inRoot release setting orderly.slash
  have isCaptured := @captured_backupDir release setting orderly.newline
  constructor
  · intro fates boots last endsNormally
    have updated := run_meets (@installUpdate_wp (powerLoss (resolve APPLY_MARKER)) _ _ _ orderly)
      fates
    have recoverable : Recoverable release (backupDirFor setting release) before
        ((installUpdate setting release).run (step (powerLoss (resolve APPLY_MARKER))) fates
          before).state :=
      updated.state (fun _ _ left => left.recoverable orderly unmarked)
        (fun _ _ left => left.recoverable orderly unmarked)
        (fun _ left => left.recoverable orderly unmarked)
    have booted := @Recoverable.afterBoots (powerLoss (resolve APPLY_MARKER)) _ _ _ _
      orderly.isOrdinary inRoot isCaptured recoverable boots
    have meets := run_meets (@Recoverable.verify (powerLoss (resolve APPLY_MARKER)) _ _ _ _
      orderly.isOrdinary inRoot isCaptured booted) last
    revert endsNormally meets
    cases modeVerifyOrRestore.run (step (powerLoss (resolve APPLY_MARKER))) last
        (afterBoots (powerLoss (resolve APPLY_MARKER)) boots _) with
    | returns value after rest => exact fun _ meets => meets.2
    | exits code after => exact fun isZero meets => meets.2 isZero
    | cut after => exact fun impossible => impossible.elim
  · intro medium context early saved middle done late applied rest backed isPart ran
    have saves := run_meets (@phaseBackup_wp medium release before _ _ isDir orderly.isOrdinary
      (by rw [isDir]; exact orderly.fresh)) early
    rw [backed] at saves
    have applies := run_meets (@applyFirst_wp medium release saved orderly.isOrdinary done
      (fun rel member => mem_applyOrder.mp (isPart.subset member))) late
    rw [ran] at applies
    have same : ∀ path ∈ release.places, saved.files.lookup path = before.files.lookup path :=
      fun path member => saves.1.plain (prefix_append _ _)
        (places_plain orderly.isOrdinary path member)
    have snapshot := saves.1.snapshot.view_congr same
    rw [← isDir] at snapshot
    exact inverts_of_within orderly.isOrdinary inRoot snapshot applies

end PowerLoss

def fateOf (verdict : Verdict) : Fate := ⟨verdict, none, fun _ => false, id, id⟩

def anyFile : FileTest where
  isFile path := (path.splitOn '/').getLast?.any (fun last => IsName last)
  named path isFile last isLast := by
    rw [isLast] at isFile
    exact of_decide_eq_true isFile

def macrosRelease (version : Text) (files : List Text) (oneLine : ∀ rel ∈ files, '\n' ∉ rel) :
    Release where
  version := version
  manifest := []
  files := files
  aptPackages := []
  payload _ := version
  oneLine := oneLine

def engineRelease : Release :=
  macrosRelease "1.2.0".toList ["config/macros.cfg".toList, "ota/ota-update.sh".toList] (by decide)

def nightlySetting (stamp : Text) : Setting where
  force := false
  newest installed available := if installed < available then available else installed
  test := anyFile
  payloadDir := STAGING_DIR ++ "/payload".toList
  tops := ["config".toList, "ota".toList]
  stamp := stamp
  undocumented _ := pure ()

def macrosMachine : Machine where
  files := (∅ : Files).insert (place "config/macros.cfg".toList) "1.1.0".toList
  status := none
  touched := []

theorem ordinary_of_installs {rel rest : Text} (root : Root) (isRoot : root ∈ roots)
    (entry : rel = root.key ++ '/' :: rest) (stays : dotdot ∉ rest.splitOn '/')
    (last : ∃ last ∈ (rest.splitOn '/').getLast?, IsName last ∧ last ∉ DENYLIST_BASENAMES)
    (plain : ¬ Own (place rel) ∧ ¬ Temporary (place rel) ∧ place rel ∉ unitsIn SYSTEMD_DIR) : Ordinary rel := by
  obtain ⟨final, isFinal, allowed⟩ := last
  exact ⟨⟨root, rest, isRoot, entry, stays, final, isFinal, allowed⟩, plain.1, plain.2.1, plain.2.2⟩

theorem ordinary_macros : Ordinary "config/macros.cfg".toList :=
  @ordinary_of_installs _ "macros.cfg".toList ⟨"config".toList, DEST_CONFIG⟩ (by decide) (by decide)
    (by decide) ⟨"macros.cfg".toList, by decide, by decide⟩ (by decide)

theorem ordinary_engine : Ordinary "ota/ota-update.sh".toList :=
  @ordinary_of_installs _ "ota-update.sh".toList ⟨"ota".toList, DEST_OTA⟩ (by decide) (by decide)
    (by decide) ⟨"ota-update.sh".toList, by decide, by decide⟩ (by decide)

theorem engineRelease_ordinary : ∀ rel ∈ engineRelease.files, Ordinary rel := by
  intro rel member
  rcases mem_cons.mp member with rfl | rest
  · exact ordinary_macros
  · rw [mem_singleton.mp rest]
    exact ordinary_engine

theorem fresh_of_keys {files : Files} {directory : Path}
    (outside : ∀ key ∈ files.keys, ¬ directory <+: key) (path : Path) (inside : directory <+: path) :
    files.lookup path = none :=
  AList.lookup_eq_none.mpr (fun member => outside path (AList.mem_keys.mp member) inside)

theorem engineRelease_orderly :
    Orderly (nightlySetting "20260101-120000".toList) engineRelease macrosMachine :=
  ⟨engineRelease_ordinary, by decide, by decide, fresh_of_keys (by decide +kernel)⟩

/-- Power is lost when the macros have been replaced and the engine has not, and again at
the first boot, when the macros have just been put back. -/
theorem update_crash_atomic_midApply :
    EndsNormally (modeVerifyOrRestore.run (step (powerLoss (resolve APPLY_MARKER)))
        (List.replicate 20 (fateOf .succeeds))
        (afterBoots (powerLoss (resolve APPLY_MARKER)) [List.replicate 9 (fateOf .succeeds)]
          ((installUpdate (nightlySetting "20260101-120000".toList) engineRelease).run
            (step (powerLoss (resolve APPLY_MARKER))) (List.replicate 22 (fateOf .succeeds))
            macrosMachine).state)) ∧
      Atomic engineRelease macrosMachine
        (modeVerifyOrRestore.run (step (powerLoss (resolve APPLY_MARKER)))
          (List.replicate 20 (fateOf .succeeds))
          (afterBoots (powerLoss (resolve APPLY_MARKER)) [List.replicate 9 (fateOf .succeeds)]
            ((installUpdate (nightlySetting "20260101-120000".toList) engineRelease).run
              (step (powerLoss (resolve APPLY_MARKER))) (List.replicate 22 (fateOf .succeeds))
              macrosMachine).state)).state := by
  have unmarked : macrosMachine.files.lookup (resolve APPLY_MARKER) = none := by decide +kernel
  refine ⟨?endsNormally, (update_crash_atomic engineRelease_orderly unmarked).1
    (replicate 22 (fateOf .succeeds)) [replicate 9 (fateOf .succeeds)]
    (replicate 20 (fateOf .succeeds)) ?endsNormally⟩
  decide +kernel

/-- A manifest may list the marker itself. The engine accepts it, installs it last, and
removes it again as the marker. -/
def markerRelease : Release :=
  macrosRelease "1.2.0".toList ["config/macros.cfg".toList, "ota/apply-in-progress".toList]
    (by decide)

theorem update_of_marker_mixes :
    phaseStage anyFile (STAGING_DIR ++ "/payload".toList) ["config".toList, "ota".toList]
        markerRelease.files = .ok () ∧
      EndsNormally (modeVerifyOrRestore.run (step (powerLoss (resolve APPLY_MARKER)))
        [fateOf .succeeds]
        ((installUpdate (nightlySetting "20260101-120000".toList) markerRelease).run
          (step (powerLoss (resolve APPLY_MARKER))) (List.replicate 40 (fateOf .succeeds))
          macrosMachine).state) ∧
      ¬ Atomic markerRelease macrosMachine
        (modeVerifyOrRestore.run (step (powerLoss (resolve APPLY_MARKER))) [fateOf .succeeds]
          ((installUpdate (nightlySetting "20260101-120000".toList) markerRelease).run
            (step (powerLoss (resolve APPLY_MARKER))) (List.replicate 40 (fateOf .succeeds))
            macrosMachine).state).state := by
  decide +kernel

end MagnetoX.Ota
