import MagnetoX.Ota.Places

/-!
Owns the proof rules for the commands of the engine: what has to be shown of the
machine before the command, after it has succeeded, and after it has not.
-/

namespace MagnetoX.Ota

open Library.CrashLogic Library.CrashLogic.Prog List

def Machine.update (machine : Machine) (files : Files) (paths : List Path) : Machine :=
  { machine with files, touched := paths ++ machine.touched }

def Machine.touch (machine : Machine) (path : Path) : Machine :=
  machine.update machine.files [path]

def Machine.write (machine : Machine) (path : Path) (content : Content) : Machine :=
  machine.update (machine.files.insert path content) [path]

def Machine.withStatus (machine : Machine) (status : Option Status) : Machine :=
  { machine with status }

/-- The status is as before, or reports a failure. -/
def Failing (before after : Option Status) : Prop :=
  after = before ∨ ∃ status, after = some status ∧ status.state = "failed".toList

theorem Failing.refl (status : Option Status) : Failing status status := .inl rfl

theorem Failing.trans {first second third : Option Status} (early : Failing first second)
    (late : Failing second third) : Failing first third := by
  rcases late with rfl | failed
  · exact early
  · exact .inr failed

section Rules

variable {medium : Medium} {machine : Machine} {α β : Type}

theorem wp_do {program : Script α} {next : α → Script β} {ends : Ends Machine β} :
    (program >>= next).wp (step medium) ends machine ↔ program.wp (step medium)
        ⟨fun value after => (next value).wp (step medium) ends after, ends.exits, ends.cut⟩ machine :=
  wp_bind

variable {path directory : Path} {text : Content}

open Command

theorem wp_readFile {ends : Ends Machine (Option Content)} (begins : ends.cut machine)
    (cuts : ends.cut (machine.touch path))
    (reads : ends.returns (machine.files.lookup path) (machine.touch path)) :
    (readFile path).wp (step medium) ends machine := by
  refine ⟨begins, ?_⟩
  intro fate
  unfold step answer
  by_cases isCut : fate.verdict = .cut
  · simp only [if_pos isCut]
    exact cuts
  · simp only [if_neg isCut]
    exact reads

theorem rearranged_perm (order : List Path → List Path) (paths : List Path) :
    (rearranged order paths).Perm paths := by
  unfold rearranged
  split
  · assumption
  · exact Perm.refl paths

theorem wp_findFiles {ends : Ends Machine (List Path)}
    (begins : ends.cut machine) (cuts : ends.cut (machine.touch directory))
    (finds : ∀ found, found.Perm (below machine.files directory) →
      ends.returns found (machine.touch directory)) :
    (findFiles directory).wp (step medium) ends machine := by
  refine ⟨begins, ?_⟩
  intro fate
  unfold step answer
  by_cases isCut : fate.verdict = .cut
  · simp only [if_pos isCut]
    exact cuts
  · simp only [if_neg isCut]
    exact finds _ (rearranged_perm _ _)

theorem wp_listEntries {ends : Ends Machine (List Path)}
    (begins : ends.cut machine) (cuts : ends.cut (machine.touch directory))
    (lists : ∀ listed, listed.Perm (entries machine.files directory) →
      (medium.steady = true → listed = entries machine.files directory) →
      ends.returns listed (machine.touch directory)) :
    (listEntries directory).wp (step medium) ends machine := by
  refine ⟨begins, ?_⟩
  intro fate
  unfold step answer
  by_cases isCut : fate.verdict = .cut
  · simp only [if_pos isCut]
    exact cuts
  · cases steady : medium.steady with
    | true =>
      simp only [if_neg isCut, if_true]
      exact lists _ (Perm.refl _) (fun _ => rfl)
    | false =>
      simp only [if_neg isCut, Bool.false_eq_true, if_false]
      refine lists _ (rearranged_perm _ _) ?_
      rw [steady]
      exact nofun

variable {ends : Ends Machine Bool} {status : Status} {context : Context}

theorem wp_system (cuts : ends.cut machine) (returns : ∀ ok, ends.returns ok machine) :
    system.wp (step medium) ends machine := by
  refine ⟨cuts, ?_⟩
  rintro ⟨verdict, left, kept, order, listed⟩
  cases verdict with
  | succeeds => exact returns true
  | fails => exact returns false
  | cut => exact cuts

theorem wp_report (begins : ends.cut machine)
    (succeeds : ends.returns true (machine.withStatus (some status)))
    (fails : ends.returns false machine) : (report status).wp (step medium) ends machine := by
  refine ⟨begins, ?_⟩
  rintro ⟨verdict, left, kept, order, listed⟩
  cases verdict with
  | succeeds => exact succeeds
  | fails => exact fails
  | cut => exact begins

abbrev Breaks (ends : Ends Machine Bool) (after : Machine) : Prop :=
  ends.returns false after ∧ ends.cut after

section Write

variable (begins : ends.cut machine) (untouched : Breaks ends (machine.touch path))
  {content : Content}
include untouched

/-- The file after a write that does not succeed. -/
theorem breaks_of_write {fate : Fate} {left : Option Content}
    (broken : ∀ rest, left = some rest → Breaks ends (machine.write path rest))
    (broke : fate.verdict ≠ .succeeds) :
    Breaks ends (machine.update (fate.write path content left machine.files) [path]) := by
  obtain ⟨verdict, _, kept, order, listed⟩ := fate
  cases verdict with
  | succeeds => exact absurd rfl broke
  | fails | cut =>
    cases left with
    | none => exact untouched
    | some rest => exact broken rest rfl

include begins

theorem wp_copyTo (succeeds : ends.returns true (machine.write path content))
    (broken : ∀ rest, Breaks ends (machine.write path rest)) :
    (copyTo path content).wp (step medium) ends machine := by
  refine ⟨begins, ?_⟩
  rintro ⟨verdict, left, kept, order, listed⟩
  cases verdict with
  | succeeds => exact succeeds
  | fails => exact And.left (breaks_of_write untouched (fun rest _ => broken rest) nofun)
  | cut => exact And.right (breaks_of_write untouched (fun rest _ => broken rest) nofun)

theorem wp_echo (succeeds : ends.returns true (machine.write path text))
    (broken : ∀ left rest, medium.echo path left = some rest → Breaks ends (machine.write path rest)) :
    (echo path text).wp (step medium) ends machine := by
  refine ⟨begins, ?_⟩
  rintro ⟨verdict, left, kept, order, listed⟩
  have broke : ∀ rest, left.bind (medium.echo path) = some rest → Breaks ends (machine.write path rest) := by
    intro rest isRest
    obtain ⟨left, _, isLeft⟩ := Option.bind_eq_some_iff.mp isRest
    exact broken left rest isLeft
  cases verdict with
  | succeeds => exact succeeds
  | fails => exact And.left (breaks_of_write untouched broke nofun)
  | cut => exact And.right (breaks_of_write untouched broke nofun)

/-- A write like that of `cp`, of what was there and the text. -/
theorem wp_echoAppend (succeeds : ends.returns true
      (machine.write path ((machine.files.lookup path).getD [] ++ text)))
    (broken : ∀ rest, Breaks ends (machine.write path rest)) :
    (echoAppend path text).wp (step medium) ends machine := by
  have copies := @wp_copyTo medium machine path ends begins untouched _ succeeds broken
  refine ⟨begins, ?_⟩
  rintro ⟨verdict, left, kept, order, listed⟩
  have written := copies.2 ⟨verdict, left.bind (medium.echoAppend path), kept, order, listed⟩
  cases verdict with
  | succeeds | fails | cut => exact written

end Write

theorem wp_rename {source dest : Path} (begins : ends.cut machine)
    (succeeds : ∀ content, machine.files.lookup source = some content → ends.returns true
        (machine.update ((machine.files.erase source).insert dest content) [source, dest]))
    (fails : Breaks ends (machine.update machine.files [source, dest])) :
    (rename source dest).wp (step medium) ends machine := by
  refine ⟨begins, ?_⟩
  rintro ⟨verdict, left, kept, order, listed⟩
  cases present : machine.files.lookup source with
  | none =>
    simp only [step, answer, effect, status, paths, present]
    cases verdict with
    | succeeds => exact fails.1
    | fails => exact fails.1
    | cut => exact fails.2
  | some content =>
    simp only [step, answer, effect, status, paths, present]
    cases verdict with
    | succeeds => exact succeeds content present
    | fails => exact fails.1
    | cut => exact fails.2

theorem wp_remove (begins : ends.cut machine)
    (succeeds : ends.returns true (machine.update (machine.files.erase path) [path]))
    (fails : Breaks ends (machine.touch path)) :
    (remove path).wp (step medium) ends machine := by
  refine ⟨begins, ?_⟩
  rintro ⟨verdict, left, kept, order, listed⟩
  cases verdict with
  | succeeds => exact succeeds
  | fails => exact fails.1
  | cut => exact fails.2

theorem wp_removeTree (begins : ends.cut machine)
    (removes : ∀ paths, (∀ path ∈ paths, directory <+: path) →
      (∀ ok, ends.returns ok (machine.update (removeAll machine.files paths) [directory])) ∧
        ends.cut (machine.update (removeAll machine.files paths) [directory])) :
    (removeTree directory).wp (step medium) ends machine := by
  refine ⟨begins, ?_⟩
  rintro ⟨verdict, left, kept, order, listed⟩
  have removed := removes (machine.files.keys.filter (fun path => directory.isPrefixOf path &&
    (decide (verdict = .succeeds) || !kept path))) (by
      intro path member
      have inside := (mem_filter.mp member).2
      rw [Bool.and_eq_true] at inside
      exact isPrefixOf_iff_prefix.mp inside.1)
  cases verdict with
  | succeeds => exact removed.1 true
  | fails => exact removed.1 false
  | cut => exact removed.2

/-- Where the script may be cut, it may also stop with an error. -/
def Stops (ends : Ends Machine α) : Prop :=
  ∀ after status, ends.cut after → Failing after.status status →
    ends.exits 1 (after.withStatus status)

theorem wp_die {ends : Ends Machine α} {message : Text} (stops : Stops ends)
    (cuts : ends.cut machine) : (die context message).wp (step medium) ends machine :=
  wp_do.mpr (wp_report cuts (stops _ _ cuts (.inr ⟨_, rfl, rfl⟩)) (stops _ _ cuts (.inl rfl)))

variable {ends : Ends Machine Unit} {line : Nat} {path : Path}

theorem wp_must {command : Script Bool} (stops : Stops ends) (holds : command.wp (step medium)
      ⟨fun ok after => if ok then ends.returns () after else ends.cut after, ends.exits, ends.cut⟩
      machine) :
    (must context line command).wp (step medium) ends machine := by
  apply wp_seq holds
  intro ok after returns
  cases ok with
  | true => exact returns
  | false => exact wp_die stops returns

section

variable (stops : Stops ends) (cuts : ends.cut machine)
include stops cuts

theorem wp_must_system (succeeds : ends.returns () machine) :
    (must context line system).wp (step medium) ends machine := by
  apply wp_must stops
  apply wp_system cuts
  intro ok
  cases ok with
  | true => exact succeeds
  | false => exact cuts

theorem wp_must_report (succeeds : ends.returns () (machine.withStatus (some status))) :
    (must context line (report status)).wp (step medium) ends machine :=
  wp_must stops (wp_report cuts succeeds cuts)

theorem wp_must_echo (untouched : ends.cut (machine.touch path))
    (broken : ∀ left rest, medium.echo path left = some rest → ends.cut (machine.write path rest))
    (succeeds : ends.returns () (machine.write path text)) :
    (must context line (echo path text)).wp (step medium) ends machine := by
  apply wp_must stops
  apply wp_echo cuts ⟨untouched, untouched⟩ succeeds
  intro left rest isRest
  have torn := broken left rest isRest
  exact ⟨torn, torn⟩

theorem wp_must_remove (untouched : ends.cut (machine.touch path))
    (succeeds : ends.returns () (machine.update (machine.files.erase path) [path])) :
    (must context line (remove path)).wp (step medium) ends machine :=
  wp_must stops (wp_remove cuts succeeds ⟨untouched, untouched⟩)

end

end Rules

end MagnetoX.Ota
