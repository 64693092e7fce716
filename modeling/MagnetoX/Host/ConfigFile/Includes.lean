import Mathlib.Data.Fintype.Card
import Mathlib.Data.List.ReduceOption
import MagnetoX.Host.ConfigFile.Parser
import MagnetoX.Library.Run

/-!
Owns how `_parse_config` follows the lines that include other files. Each file is named by
its absolute path; `resolve` is the sorted result of `glob`, and every file can be read.
A buffer that is handed to `readfp` is a segment, with the name of its file.
-/

namespace MagnetoX.Host.ConfigFile.Includes

open Relation Library.Run Library.Search List

variable {α : Type*}

structure Files (α : Type*) where
  data : α → Text
  resolve : α → Text → List α

inductive IncludeFailure (α : Type*) where
  /-- Recursive include of config file '%s' -/
  | recursive (path : α)
  | outOfFuel

structure Segment (α : Type*) where
  path : α
  buffer : List Text

def includeSpec (line : Text) : Option Text :=
  match parseHeader line with
  | none => none
  | some header => if "include ".toList <+: header then some (strip isSpace (header.drop 8)) else none

/-- `_parse_config_buffer`. -/
def flush (path : α) (buffer : List Text) : List (Segment α) :=
  if buffer = [] then [] else [⟨path, buffer⟩]

def Segment.lines (segment : Segment α) : List (α × Text) := segment.buffer.map (segment.path, ·)

/-- The pieces of a text between its marks. -/
def pieces (text : List (Option (α × Text))) : List (List (α × Text)) :=
  ((text.splitOnP (·.isNone)).filter (!·.isEmpty)).map reduceOption

theorem pieces_append (first second : List (Option (α × Text))) :
    pieces (first ++ none :: second) = pieces first ++ pieces second := by
  simp [pieces, splitOnP_append_cons]

theorem pieces_flush (path : α) (buffer : List Text) :
    pieces (buffer.map (fun line => some (path, line))) = (flush path buffer).map Segment.lines := by
  have whole : (buffer.map (fun line => some (path, line))).splitOnP (·.isNone) =
      [buffer.map (fun line => some (path, line))] := splitOnP_eq_singleton (by simp)
  rw [pieces, whole, flush]
  split
  · simp [*]
  · simp [*, Segment.lines, reduceOption]

namespace Files

def lines (files : Files α) (path : α) : List Text :=
  ((readConfigFile (files.data path)).splitOn '\n').map uncommented

section Loops

variable (parse : α → Except (IncludeFailure α) (List (Segment α)))

/-- `_resolve_include`: the files of an include line, one after another. -/
def parseAll : List α → Except (IncludeFailure α) (List (Segment α))
  | [] => .ok []
  | path :: rest => do return (← parse path) ++ (← parseAll rest)

def parseLines (files : Files α) (path : α) : List Text → List Text → Except (IncludeFailure α) (List (Segment α))
  | [], buffer => .ok (flush path buffer)
  | line :: rest, buffer =>
      match includeSpec line with
      | none => parseLines files path rest (buffer ++ [line])
      | some spec => do
          let included ← parseAll parse (files.resolve path spec)
          return flush path buffer ++ included ++ (← parseLines files path rest [])

end Loops

def parseConfig [DecidableEq α] (files : Files α) : Nat → List α → α → Except (IncludeFailure α) (List (Segment α))
  | 0, _, _ => .error .outOfFuel
  | fuel + 1, visited, path =>
      if path ∈ visited then .error (.recursive path)
      else files.parseLines (files.parseConfig fuel (path :: visited)) path (files.lines path) []

def content (files : Files α) (path : α) : List (Option (α × Text)) :=
  (files.lines path).map (fun line => some (path, line))

/-- Put the files in the place of the line that includes them, with a mark before, between
and after them. -/
def substitute (files : Files α) : Option (α × Text) → List (Option (α × Text))
  | none => [none]
  | some (path, line) =>
      match includeSpec line with
      | none => [some (path, line)]
      | some spec =>
          none :: (files.resolve path spec).flatMap (fun other => files.content other ++ [none]) ++ [none]

/-- Replace the includes of a text, as often as asked. -/
def expand (files : Files α) (n : Nat) (text : List (Option (α × Text))) : List (Option (α × Text)) :=
  (fun text => text.flatMap files.substitute)^[n] text

theorem expand_append (files : Files α) (n : Nat) (first second : List (Option (α × Text))) :
    files.expand n (first ++ second) = files.expand n first ++ files.expand n second := by
  induction n generalizing first second with
  | zero => rfl
  | succ n ih => simp only [expand, Function.iterate_succ_apply, flatMap_append] at ih ⊢; exact ih _ _

theorem expand_plain (files : Files α) (path : α) {n : Nat} {buffer : List Text}
    (plain : ∀ line ∈ buffer, includeSpec line = none) :
    files.expand n (buffer.map (fun line => some (path, line))) = buffer.map (fun line => some (path, line)) := by
  have fixed : (buffer.map (fun line => some (path, line))).flatMap files.substitute =
      buffer.map (fun line => some (path, line)) := by
    rw [flatMap_map, map_eq_flatMap]
    refine flatMap_congr fun line isLine => ?_
    simp [substitute, plain line isLine]
  exact Function.iterate_fixed fixed n

/-- A mark stays where it is. -/
theorem expand_mark (files : Files α) (n : Nat) (text : List (Option (α × Text))) :
    files.expand n (none :: text) = none :: files.expand n text := by
  have mark : files.expand n [none] = [none] := Function.iterate_fixed rfl n
  rw [← singleton_append, expand_append, mark, singleton_append]

def targets (files : Files α) (path : α) (lines : List Text) : List α :=
  (lines.filterMap includeSpec).flatMap (files.resolve path)

def Refers (files : Files α) (path other : α) : Prop := other ∈ files.targets path (files.lines path)

instance [DecidableEq α] (files : Files α) : DecidableRel files.Refers :=
  fun _ _ => inferInstanceAs (Decidable (_ ∈ _))

variable {files : Files α} {path : α} {parse : α → Except (IncludeFailure α) (List (Segment α))}
  {failure : IncludeFailure α} {segments : List (Segment α)} {paths : List α}

theorem parseAll_error (fails : parseAll parse paths = .error failure) :
    ∃ path ∈ paths, parse path = .error failure := by
  induction paths with
  | nil => cases fails
  | cons path rest ih =>
    rcases bind_eq_error fails with fails | ⟨first, -, fails⟩
    · exact ⟨path, .head _, fails⟩
    · rcases bind_eq_error fails with fails | ⟨others, -, fails⟩
      · obtain ⟨other, isOther, fails⟩ := ih fails
        exact ⟨other, mem_cons_of_mem path isOther, fails⟩
      · cases fails

theorem parseLines_error {lines buffer : List Text}
    (fails : files.parseLines parse path lines buffer = .error failure) :
    ∃ other ∈ files.targets path lines, parse other = .error failure := by
  induction lines generalizing buffer with
  | nil => cases fails
  | cons line rest ih =>
    rw [parseLines] at fails
    cases isSpec : includeSpec line with
    | none =>
      rw [isSpec] at fails
      obtain ⟨other, isOther, fails⟩ := ih fails
      exact ⟨other, by simpa [targets, isSpec] using isOther, fails⟩
    | some spec =>
      rw [isSpec] at fails
      rcases bind_eq_error fails with fails | ⟨included, -, fails⟩
      · obtain ⟨other, isOther, fails⟩ := parseAll_error fails
        exact ⟨other, by simp [targets, isSpec, isOther], fails⟩
      · rcases bind_eq_error fails with fails | ⟨after, -, fails⟩
        · obtain ⟨other, isOther, fails⟩ := ih fails
          refine ⟨other, ?_, fails⟩
          simp only [targets] at isOther
          simp [targets, isSpec, isOther]
        · cases fails

theorem parseAll_ok (files : Files α) (ends : parseAll parse paths = .ok segments) :
    (∀ path ∈ paths, ∃ included, parse path = .ok included) ∧
      ∀ n, (∀ path ∈ paths, ∀ included, parse path = .ok included →
        pieces (files.expand n (files.content path)) = included.map Segment.lines) →
      pieces (files.expand n (paths.flatMap (fun other => files.content other ++ [none]))) =
        segments.map Segment.lines := by
  induction paths generalizing segments with
  | nil =>
    cases ends
    refine ⟨nofun, fun n _ => ?_⟩
    rw [flatMap_nil, expand, Function.iterate_fixed rfl n]
    rfl
  | cons path rest ih =>
    obtain ⟨first, isFirst, ends⟩ := bind_eq_ok ends
    obtain ⟨others, areOthers, ends⟩ := bind_eq_ok ends
    cases ends
    obtain ⟨succeed, expands⟩ := ih areOthers
    refine ⟨forall_mem_cons.mpr ⟨⟨first, isFirst⟩, succeed⟩, fun n each => ?_⟩
    obtain ⟨one, each⟩ := forall_mem_cons.mp each
    rw [flatMap_cons, append_assoc, singleton_append, expand_append, expand_mark, pieces_append,
      one first isFirst, expands n each, map_append]

/-- The loop ends only where every included file is parsed, and its segments are the
text with the includes replaced. -/
theorem parseLines_ok {lines buffer : List Text} (ends : files.parseLines parse path lines buffer = .ok segments)
    (plain : ∀ line ∈ buffer, includeSpec line = none) :
    (∀ other ∈ files.targets path lines, ∃ included, parse other = .ok included) ∧
      ∀ n, (∀ other ∈ files.targets path lines, ∀ included, parse other = .ok included →
        pieces (files.expand n (files.content other)) = included.map Segment.lines) →
      pieces (files.expand (n + 1) ((buffer ++ lines).map (fun line => some (path, line)))) =
        segments.map Segment.lines := by
  induction lines generalizing buffer segments with
  | nil =>
    cases ends
    refine ⟨nofun, fun n _ => ?_⟩
    rw [append_nil, files.expand_plain path plain, pieces_flush]
  | cons line rest ih =>
    rw [parseLines] at ends
    cases isSpec : includeSpec line with
    | none =>
      rw [isSpec] at ends
      have plain' : ∀ other ∈ buffer ++ [line], includeSpec other = none := by
        simpa [or_imp, forall_and, isSpec] using plain
      simpa [targets, isSpec] using ih ends plain'
    | some spec =>
      rw [isSpec] at ends
      obtain ⟨included, includes, ends⟩ := bind_eq_ok ends
      obtain ⟨after, follows, ends⟩ := bind_eq_ok ends
      cases ends
      obtain ⟨succeed, expands⟩ := parseAll_ok files includes
      obtain ⟨succeed', expands'⟩ := ih follows nofun
      have split : files.targets path (line :: rest) = files.resolve path spec ++ files.targets path rest := by
        simp [targets, isSpec]
      simp only [split, forall_mem_append]
      refine ⟨⟨succeed, succeed'⟩, fun n each => ?_⟩
      have replaced : files.expand (n + 1) ((buffer ++ line :: rest).map (fun line => some (path, line))) =
          files.expand (n + 1) (buffer.map (fun line => some (path, line))) ++
            files.expand n (none :: (files.resolve path spec).flatMap (fun other => files.content other ++ [none]) ++
              none :: (rest.map (fun line => some (path, line))).flatMap files.substitute) := by
        rw [map_append, expand_append, map_cons]
        simp only [expand, Function.iterate_succ_apply, flatMap_cons, substitute, isSpec, append_assoc,
          singleton_append]
      rw [replaced, files.expand_plain path plain, cons_append, expand_mark, pieces_append, pieces_flush,
        expand_append, expand_mark, pieces_append, expands n each.1, map_append, map_append, append_assoc, ← expands' n each.2]
      rfl

variable [DecidableEq α] {fuel : Nat} {visited : List α}

theorem parseConfig_ok (ends : files.parseConfig fuel visited path = .ok segments) :
    (∀ other, files.Refers path other → ∃ fuel' < fuel, ∃ visited' included,
        files.parseConfig fuel' visited' other = .ok included) ∧
      ∀ n ≥ fuel, pieces (files.expand n (files.content path)) = segments.map Segment.lines := by
  induction fuel generalizing visited path segments with
  | zero => cases ends
  | succ fuel ih =>
    rw [parseConfig] at ends
    split at ends
    · cases ends
    · obtain ⟨succeed, expands⟩ := parseLines_ok ends (by simp)
      refine ⟨fun other refers => ?_, fun n enough => ?_⟩
      · obtain ⟨included, ends⟩ := succeed other refers
        exact ⟨fuel, fuel.lt_succ_self, _, included, ends⟩
      · obtain ⟨n, rfl⟩ := Nat.exists_eq_succ_of_ne_zero (Nat.ne_zero_of_lt enough)
        exact expands n fun other _ included ends => (ih ends).2 n (Nat.le_of_succ_le_succ enough)

theorem not_ok_of_cycle (cycle : TransGen files.Refers path path) :
    files.parseConfig fuel visited path ≠ .ok segments := by
  induction fuel using Nat.strong_induction_on generalizing visited path segments with
  | _ fuel ih =>
    intro ends
    obtain ⟨other, refers, back⟩ := TransGen.head'_iff.mp cycle
    obtain ⟨fuel', less, visited', included, ends'⟩ := (parseConfig_ok ends).1 other refers
    exact ih fuel' less (TransGen.tail' back refers) ends'

theorem not_ok_of_reaches {cyclic : α} (reaches : ReflTransGen files.Refers path cyclic)
    (cycle : TransGen files.Refers cyclic cyclic) : files.parseConfig fuel visited path ≠ .ok segments := by
  induction reaches using ReflTransGen.head_induction_on generalizing fuel visited segments with
  | refl => exact not_ok_of_cycle cycle
  | head refers _ ih =>
    intro ends
    obtain ⟨fuel', -, visited', included, ends'⟩ := (parseConfig_ok ends).1 _ refers
    exact ih ends'

/-- Where every visited file leads to the next one, a recursive include is a cycle. -/
theorem cycle_of_recursive {again : α} (chain : ∀ earlier ∈ visited, TransGen files.Refers earlier path)
    (fails : files.parseConfig fuel visited path = .error (.recursive again)) :
    ∃ cyclic, ReflTransGen files.Refers path cyclic ∧ TransGen files.Refers cyclic cyclic := by
  induction fuel generalizing visited path with
  | zero => cases fails
  | succ fuel ih =>
    rw [parseConfig] at fails
    split at fails
    · rename_i isVisited
      exact ⟨path, .refl, chain path isVisited⟩
    · obtain ⟨other, refers, fails⟩ := parseLines_error fails
      have chain' : ∀ earlier ∈ path :: visited, TransGen files.Refers earlier other :=
        forall_mem_cons.mpr ⟨.single refers, fun earlier isEarlier => (chain earlier isEarlier).tail refers⟩
      obtain ⟨cyclic, reaches, cycle⟩ := ih chain' fails
      exact ⟨cyclic, .head refers reaches, cycle⟩

/-- The visited files are distinct, so the fuel lasts. -/
theorem ne_outOfFuel [Fintype α] (distinct : visited.Nodup) (enough : Fintype.card α < visited.length + fuel) :
    files.parseConfig fuel visited path ≠ .error .outOfFuel := by
  induction fuel generalizing visited path with
  | zero => exact absurd distinct.length_le_card (Nat.not_le.mpr enough)
  | succ fuel ih =>
    intro fails
    rw [parseConfig] at fails
    split at fails
    · cases fails
    · rename_i isNew
      obtain ⟨other, -, fails⟩ := parseLines_error fails
      refine ih (nodup_cons.mpr ⟨isNew, distinct⟩) ?_ fails
      rw [length_cons]
      omega

end Files

/-- **Includes.** For every finite set of files, `_parse_config` ends. It reports a
recursive include if and only if a file that includes itself, directly or through others,
can be reached from the main file. Otherwise it parses the pieces that the text has once the
includes are replaced by the files, however often one goes on with that. -/
theorem parseConfig_follows_includes [Fintype α] [DecidableEq α] (files : Files α) (main : α) :
    let result := files.parseConfig (Fintype.card α + 1) [] main
    (∀ failure, result = .error failure → ∃ path, failure = .recursive path) ∧
      ((∃ path, result = .error (.recursive path)) ↔
        ∃ path, ReflTransGen files.Refers main path ∧ TransGen files.Refers path path) ∧
      ∀ segments, result = .ok segments → ∀ n > Fintype.card α,
        pieces (files.expand n (files.content main)) = segments.map Segment.lines := by
  intro result
  have ends : result ≠ .error .outOfFuel := Files.ne_outOfFuel nodup_nil (by simp)
  refine ⟨fun failure fails => ?_, ⟨?_, ?_⟩, fun segments ends => (Files.parseConfig_ok ends).2⟩
  · cases failure with
    | recursive path => exact ⟨path, rfl⟩
    | outOfFuel => exact absurd fails ends
  · rintro ⟨path, fails⟩
    exact Files.cycle_of_recursive (by simp) fails
  · rintro ⟨path, reaches, cycle⟩
    cases isResult : result with
    | ok segments => exact absurd isResult (Files.not_ok_of_reaches reaches cycle)
    | error failure =>
      cases failure with
      | recursive path => exact ⟨path, rfl⟩
      | outOfFuel => exact absurd isResult ends

def twoFiles (other : Text) : Files Bool where
  data isOther := if isOther then other else "[a]\n[include b.cfg]\n[c]".toList
  resolve isOther _ := [!isOther]

/-- The include is followed, or the cycle reported. -/
theorem parseConfig_follows_includes_twoFiles :
    (∃ segments, (twoFiles "[b]".toList).parseConfig 3 [] false = .ok segments ∧
      pieces ((twoFiles "[b]".toList).expand 3 ((twoFiles "[b]".toList).content false)) =
        segments.map Segment.lines ∧
      segments.map Segment.lines = [[(false, "[a]".toList)], [(true, "[b]".toList)], [(false, "[c]".toList)]]) ∧
    ∃ path, (twoFiles "[include a.cfg]".toList).parseConfig 3 [] false = .error (.recursive path) := by
  constructor
  · refine ⟨_, rfl, (parseConfig_follows_includes (twoFiles "[b]".toList) false).2.2 _ rfl 3 (by decide), ?_⟩
    decide +kernel
  · have there : (twoFiles "[include a.cfg]".toList).Refers false true := by decide +kernel
    have back : (twoFiles "[include a.cfg]".toList).Refers true false := by decide +kernel
    exact (parseConfig_follows_includes (twoFiles "[include a.cfg]".toList) false).2.1.mpr
      ⟨false, .refl, .tail (.single there) back⟩

end MagnetoX.Host.ConfigFile.Includes
