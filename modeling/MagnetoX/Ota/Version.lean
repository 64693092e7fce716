import MagnetoX.Ota.Consistency

/-! Owns the record of the installed version: over whole histories, what the record says
about the files, and what an answer of the version gate says about them. -/

namespace MagnetoX.Ota

open Library.CrashLogic Library.CrashLogic.Prog List

def Shows (release : Release) (view : View) : Prop :=
  ∀ rel ∈ release.files, view (place rel) = some (release.payload (names rel))

/-- The record is empty, or it names a release whose files the view has. -/
def Truthful (releases : List Release) (view : View) (machine : Machine) : Prop :=
  recordOf machine INSTALLED_VERSION_FILE = [] ∨
    ∃ release ∈ releases,
      machine.files.lookup (resolve INSTALLED_VERSION_FILE) = some (release.version ++ ['\n']) ∧
      '\n' ∉ release.version ∧ (∀ rel ∈ release.files, Plain (place rel)) ∧ Shows release view

/-- Releases are told apart by their versions. -/
def Distinct (releases : List Release) : Prop :=
  ∀ first ∈ releases, ∀ second ∈ releases, first.version = second.version → first = second

/-- No update starts on an interrupted one; one that gets past the removal of its marker
gets as far as its record; and without a marker `--restore-last` puts no file back. -/
def AdmitsRecorded (releases : List Release) (machine : Machine) (event : Event) : Prop :=
  match event.task with
  | .update setting release => (release ∈ releases ∧ Proper setting release machine ∧
      recordOf machine APPLY_MARKER = []) ∧
      ((updateTo setting release (applyUpdate setting release)).Passes (step killed) event.fates machine →
        (updateTo setting release (recordUpdate setting release)).Passes (step killed) event.fates machine)
  | .restoreLast => recordOf machine APPLY_MARKER ≠ [] ∨ ¬ findLast.Passes (step killed) event.fates machine
  | .verifyOrRestore => True

theorem captured_version {text : Text} (oneLine : '\n' ∉ text) :
    captured (text ++ ['\n']) = text := by
  cases isLast : text.getLast? with
  | none =>
    rw [getLast?_eq_none_iff.mp isLast]
    rfl
  | some last =>
    apply captured_line isLast
    intro isNewline
    apply oneLine
    rw [← isNewline]
    exact mem_of_getLast? isLast

section Truthful

variable {releases : List Release} {initial view restored : View} {machine after : Machine}
  {release : Release} {setting : Setting}

theorem recordOf_version {line : Text} (oneLine : '\n' ∉ line)
    (recorded : machine.files.lookup (resolve INSTALLED_VERSION_FILE) = some (line ++ ['\n'])) :
    recordOf machine INSTALLED_VERSION_FILE = line := by
  rw [recordOf, recorded]
  exact captured_version oneLine

theorem Truthful.congr (truthful : Truthful releases view machine)
    (same : after.files.lookup (resolve INSTALLED_VERSION_FILE) =
      machine.files.lookup (resolve INSTALLED_VERSION_FILE))
    (views : ∀ path, Plain path → restored path = view path) :
    Truthful releases restored after := by
  rcases truthful with nothing | ⟨release, member, recorded, oneLine, plain, shows⟩
  · exact .inl ((recordOf_congr same).trans nothing)
  · right
    refine ⟨release, member, same.trans recorded, oneLine, plain, ?_⟩
    intro rel isFile
    rw [views _ (plain rel isFile)]
    exact shows rel isFile

theorem Truthful.installed (truthful : Truthful releases view machine)
    (distinct : Distinct releases) (agrees : Agrees view machine) (member : release ∈ releases)
    (named : recordOf machine INSTALLED_VERSION_FILE ≠ [])
    (recorded : recordOf machine INSTALLED_VERSION_FILE = release.version) :
    Installed release machine.files := by
  rcases truthful with nothing | ⟨other, isOther, isVersion, oneLine, plain, shows⟩
  · exact absurd nothing named
  · rw [recordOf_version oneLine isVersion] at recorded
    obtain rfl := distinct release member other isOther recorded.symm
    intro rel isFile
    rw [agrees _ (plain rel isFile)]
    exact shows rel isFile

/-- The release has been installed and its version is on record. -/
theorem Truthful.of_installed (member : release ∈ releases) (plain : ∀ rel ∈ release.files, Plain (place rel))
    (newline : '\n' ∉ backupName setting release) (installed : Installed release after.files)
    (recorded : Recorded release after) : Truthful releases (release.install view) after := by
  right
  refine ⟨release, member, recorded, ?_, plain, ?_⟩
  · intro isNewline
    exact newline (mem_append_left _ isNewline)
  · intro rel isFile
    rw [install_of_mem installed (place_mem isFile)]
    exact installed rel isFile

end Truthful

section Runs

variable {releases : List Release} {initial view : View} {machine : Machine} {release : Release}
  {setting : Setting} {fates : List Fate}

theorem updateTo_bind (first : Script Unit) (next : Unit → Script Unit) :
    updateTo setting release (first >>= next) = updateTo setting release first >>= next := by
  unfold updateTo
  rw [bind_assoc]
  congr 1
  funext _
  rw [bind_assoc]
  congr 1
  funext _
  split
  · rfl
  · rfl

section

variable (sound : Sound releases initial view machine)
include sound

section

variable (unmarked : recordOf machine APPLY_MARKER = []) (proper : Proper setting release machine)
include unmarked proper

/-- An update that does not get past the removal of its marker. -/
theorem Sound.update_stops
    (stops : ¬ (updateTo setting release (applyUpdate setting release)).Passes (step killed) fates machine) :
    Kept releases initial view machine
      ((updateTo setting release (applyUpdate setting release)).run (step killed) fates machine).state := by
  have agrees := sound.agrees unmarked
  have begun : Sound releases initial view machine.begun := sound.same_files agrees unmarked rfl
  cases run_stops (@updateTo_wp killed _ _ _ proper _ _ _ applyUpdate_wp) stops with
  | refused looked => exact sound.looked unmarked looked
  | begun accepted left =>
    exact begun.unapplied agrees { proper with } (proper.places_plain accepted) unmarked left

/-- One that gets as far as its record. -/
theorem Sound.update_passes {value : Unit} {recorded : Machine} {rest : List Fate} (member : release ∈ releases)
    (ran : (updateTo setting release (recordUpdate setting release)).run (step killed) fates machine =
      .returns value recorded rest) :
    Sound releases initial (release.install view) ((cleanUp release).run (step killed) rest recorded).state ∧
      Truthful releases (release.install view) ((cleanUp release).run (step killed) rest recorded).state := by
  have agrees := sound.agrees unmarked
  have begun : Sound releases initial view machine.begun := sound.same_files agrees unmarked rfl
  have meets := run_meets (@updateTo_wp killed _ _ _ proper _ _ _ recordUpdate_wp) fates
  rw [ran] at meets
  obtain ⟨accepted, saved, applied, done, left, newest, isRecorded⟩ := meets
  have cleaning : Cleaning killed (backupName setting release) recorded
      ((cleanUp release).run (step killed) rest recorded).state :=
    (run_meets (cleanUp_wp newest) rest).state (fun _ _ same => same) (fun _ _ same => same) (fun _ same => same)
  obtain ⟨isNew, installed⟩ :=
    begun.finalized agrees { proper with } (proper.places_plain accepted) member done (left.clean cleaning)
  refine ⟨isNew, .of_installed member (proper.plain accepted) proper.newline installed ?_⟩
  rw [Recorded, cleaning.records _ (by decide)]
  exact isRecorded

end

theorem Sound.restoreLast_stops (stops : ¬ findLast.Passes (step killed) fates machine) :
    Kept releases initial view machine (Event.after ⟨.restoreLast, fates⟩ machine) := by
  apply sound.restoreLast_keeps
  right
  intro path isPlain
  rw [Event.after, Event.ending, Task.script, modeRestoreLast_eq, putBackLast_eq, bind_assoc]
  rcases run_bind (step killed) findLast _ fates machine with ⟨_, _, _, ran, _⟩ | ⟨_, same⟩
  · rw [Passes, ran] at stops
    exact absurd trivial stops
  · obtain ⟨places, saved, _, restorable⟩ := sound.restorable
    rw [same]
    exact (run_stops (findLast_wp restorable) stops).plain path isPlain not_mem_nil

end

theorem Truthful.event {event : Event} (truthful : Truthful releases view machine)
    (sound : Sound releases initial view machine)
    (admitted : AdmitsRecorded releases machine event) :
    ∃ view, Sound releases initial view (event.after machine) ∧
      Truthful releases view (event.after machine) := by
  have keeps : ∀ {after}, Kept releases initial view machine after →
      ∃ view, Sound releases initial view after ∧ Truthful releases view after :=
    fun ⟨still, same⟩ => ⟨view, still, truthful.congr same (fun _ _ => rfl)⟩
  obtain ⟨task, fates⟩ := event
  cases task with
  | verifyOrRestore => exact keeps (sound.verify fates)
  | restoreLast =>
    by_cases unmarked : recordOf machine APPLY_MARKER = []
    · exact keeps (sound.restoreLast_stops (admitted.resolve_left (fun marked => marked unmarked)))
    · exact keeps (sound.restoreLast_keeps (.inl unmarked))
  | update setting release =>
    obtain ⟨⟨member, proper, unmarked⟩, recorded⟩ := admitted
    rw [Event.after, Event.ending, Task.script, updateMain, installUpdate_eq, updateTo_bind]
    rcases run_bind (step killed) (updateTo setting release (recordUpdate setting release))
      (fun _ => cleanUp release) fates machine with ⟨_, named, rest, ran, continues⟩ | ⟨stops, same⟩
    · rw [continues]
      exact ⟨_, sound.update_passes unmarked proper member ran⟩
    · have unapplied := mt recorded stops
      rw [same, recordUpdate, updateTo_bind]
      rcases run_bind (step killed) (updateTo setting release (applyUpdate setting release)) _ fates machine with
        ⟨_, _, _, ran, _⟩ | ⟨_, same⟩
      · rw [Passes, ran] at unapplied
        exact absurd trivial unapplied
      · rw [same]
        exact keeps (sound.update_stops unmarked proper unapplied)

end Runs

end MagnetoX.Ota
