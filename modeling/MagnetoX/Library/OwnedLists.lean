import Mathlib.Data.List.Nodup

/-!
Owns null-terminated lists in a memory of nodes, given by the successor `next` of
each node, and several such lists that share no node. Each node belongs to at most
one list; the lists change by taking a node off the front and by putting a free
node at the front or at the end.

A list that ends is acyclic, so nothing has to be assumed about the successors.
-/

namespace MagnetoX.Library.OwnedLists

open List

variable {α ι : Type*} {next next' : α → Option α} {first : Option α} {nodes front : List α}
  {node last : α}

/-- Reading from `first` on meets exactly these nodes, the last one without a
successor. -/
def Reads (next : α → Option α) : Option α → List α → Prop
  | first, [] => first = none
  | first, node :: nodes => first = some node ∧ Reads next (next node) nodes

theorem Reads.none_iff (reads : Reads next first nodes) : first = none ↔ nodes = [] := by
  cases nodes with
  | nil => exact iff_of_true reads rfl
  | cons node nodes =>
    rw [reads.1]
    exact iff_of_false nofun nofun

theorem Reads.of_some (reads : Reads next (some node) nodes) :
    ∃ rest, nodes = node :: rest ∧ Reads next (next node) rest := by
  cases nodes with
  | nil => cases reads
  | cons other rest =>
    obtain ⟨same, rest'⟩ := reads
    cases same
    exact ⟨rest, rfl, rest'⟩

theorem Reads.unique {other : List α} (reads : Reads next first nodes)
    (reads' : Reads next first other) : nodes = other := by
  induction nodes generalizing first other with
  | nil => exact ((reads'.none_iff).mp reads).symm
  | cons node nodes ih =>
    obtain ⟨rfl, rest⟩ := reads
    obtain ⟨rest', rfl, readsRest⟩ := reads'.of_some
    rw [ih rest readsRest]

theorem Reads.congr (reads : Reads next first nodes) (same : ∀ node ∈ nodes, next' node = next node) :
    Reads next' first nodes := by
  induction nodes generalizing first with
  | nil => exact reads
  | cons node nodes ih =>
    refine ⟨reads.1, ?_⟩
    rw [same node (.head _)]
    exact ih reads.2 (fun other isNode => same other (.tail _ isNode))

theorem Reads.suffix {back : List α}
    (reads : Reads next first (front ++ node :: back)) : Reads next (some node) (node :: back) := by
  induction front generalizing first with
  | nil => exact ⟨rfl, reads.2⟩
  | cons other front ih => exact ih reads.2

/-- No node is met twice: the list would never end. -/
theorem Reads.nodup (reads : Reads next first nodes) : nodes.Nodup := by
  induction nodes generalizing first with
  | nil => exact .nil
  | cons node nodes ih =>
    refine nodup_cons.mpr ⟨fun again => ?_, ih reads.2⟩
    obtain ⟨front, back, split⟩ := append_of_mem again
    have later : Reads next (some node) (node :: back) := Reads.suffix (split ▸ reads.2)
    have same : node :: nodes = node :: back := Reads.unique ⟨rfl, reads.2⟩ later
    have lengths := congrArg length split
    rw [(cons.inj same).2, length_append, length_cons] at lengths
    omega

theorem Reads.concat (reads : Reads next first (front ++ [last]))
    (same : ∀ other ∈ front, next' other = next other) (fromLast : next' last = some node)
    (fromNode : next' node = none) : Reads next' first (front ++ [last, node]) := by
  induction front generalizing first with
  | nil => exact ⟨reads.1, fromLast, fromNode⟩
  | cons other front ih =>
    refine ⟨reads.1, ?_⟩
    rw [same other (.head _)]
    exact ih reads.2 (fun other isNode => same other (.tail _ isNode))

/-- Each list reads off its nodes, and these are the nodes that it owns. -/
structure Owned (next : α → Option α) (first : ι → Option α) (owner : α → Option ι)
    (lists : ι → List α) : Prop where
  reads : ∀ i, Reads next (first i) (lists i)
  mem_iff : ∀ i node, node ∈ lists i ↔ owner node = some i

section Changes

variable {heads : ι → Option α} {owner : α → Option ι} {lists : ι → List α} {i : ι}

theorem Owned.ne_of_mem (owned : Owned next heads owner lists) {other : α} (free : owner node = none)
    (isOther : other ∈ lists i) : other ≠ node := by
  rintro rfl
  rw [(owned.mem_iff i other).mp isOther] at free
  cases free

variable [DecidableEq ι]

open Function

/-- Forgetting a list frees its nodes, whatever their successors become. -/
theorem Owned.clear (owned : Owned next heads owner lists) (i : ι)
    (same : ∀ node, node ∉ lists i → next' node = next node) :
    Owned next' (update heads i none) (fun node => if owner node = some i then none else owner node)
      (update lists i []) where
  reads := by
    intro j
    by_cases isList : j = i
    · subst isList
      rw [update_self, update_self]
      rfl
    · rw [update_of_ne isList, update_of_ne isList]
      refine (owned.reads j).congr (fun other isOther => same other (fun inside => isList ?_))
      rw [owned.mem_iff] at isOther inside
      exact Option.some.inj (isOther.symm.trans inside)
  mem_iff := by
    intro j other
    by_cases isList : j = i
    · subst isList
      rw [update_self]
      refine iff_of_false nofun ?_
      split
      · nofun
      · assumption
    · rw [update_of_ne isList, owned.mem_iff]
      split
      · rename_i isOwner
        simp [isOwner, Ne.symm isList]
      · rfl

variable [DecidableEq α]

omit [DecidableEq ι] in
theorem Owned.setNext (owned : Owned next heads owner lists) (free : owner node = none)
    (successor : Option α) : Owned (update next node successor) heads owner lists where
  reads := fun i => (owned.reads i).congr
    (fun _ isOther => update_of_ne (owned.ne_of_mem free isOther) _ _)
  mem_iff := owned.mem_iff

/-- Who owns what after list `i` has changed and one node with it. -/
theorem mem_update_iff {after : List α} {now : Option ι}
    (mem_iff : ∀ j other, other ∈ lists j ↔ owner other = some j)
    (own : ∀ other, other ≠ node → (other ∈ after ↔ other ∈ lists i))
    (self : node ∈ after ↔ now = some i)
    (others : ∀ j, j ≠ i → (owner node = some j ↔ now = some j)) (j : ι) (other : α) :
    other ∈ update lists i after j ↔ update owner node now other = some j := by
  by_cases isList : j = i
  · subst isList
    rw [update_self]
    by_cases isNode : other = node
    · subst isNode
      rw [update_self]
      exact self
    · rw [update_of_ne isNode, own other isNode]
      exact mem_iff j other
  · rw [update_of_ne isList, mem_iff]
    by_cases isNode : other = node
    · subst isNode
      rw [update_self]
      exact others j isList
    · rw [update_of_ne isNode]

section

variable (owned : Owned next heads owner lists)
include owned

theorem Owned.push (free : owner node = none) :
    Owned (update next node (heads i)) (update heads i (some node))
      (update owner node (some i)) (update lists i (node :: lists i)) where
  reads := by
    intro j
    by_cases isList : j = i
    · subst isList
      rw [update_self, update_self]
      refine ⟨rfl, ?_⟩
      rw [update_self]
      exact (owned.setNext free _).reads j
    · rw [update_of_ne isList, update_of_ne isList]
      exact (owned.setNext free _).reads j
  mem_iff := by
    refine mem_update_iff owned.mem_iff ?_ ?_ ?_
    · intro other different
      simp [different]
    · simp
    · intro j different
      simp [free, Ne.symm different]

theorem Owned.pop {rest : List α} (isFirst : lists i = node :: rest) :
    Owned next (update heads i (next node)) (update owner node none) (update lists i rest) where
  reads := by
    intro j
    by_cases isList : j = i
    · subst isList
      rw [update_self, update_self]
      have reads := owned.reads j
      rw [isFirst] at reads
      exact reads.2
    · rw [update_of_ne isList, update_of_ne isList]
      exact owned.reads j
  mem_iff := by
    have nodup := (owned.reads i).nodup
    rw [isFirst] at nodup
    have isOwner : owner node = some i := (owned.mem_iff i node).mp (by rw [isFirst]; exact .head _)
    refine mem_update_iff owned.mem_iff ?_ ?_ ?_
    · intro other different
      rw [isFirst]
      simp [different]
    · exact iff_of_false (nodup_cons.mp nodup).1 nofun
    · intro j different
      simp [isOwner, Ne.symm different]

/-- Putting a free node at the end of a list that is not empty. -/
theorem Owned.append (free : owner node = none) (isLast : lists i = front ++ [last]) :
    Owned (update (update next node none) last (some node)) heads
      (update owner node (some i)) (update lists i (lists i ++ [node])) where
  reads := by
    have inside : last ∈ lists i := by simp [isLast]
    have different : last ≠ node := owned.ne_of_mem free inside
    intro j
    have reads := (owned.setNext free none).reads j
    by_cases isList : j = i
    · subst isList
      rw [update_self, isLast, append_assoc]
      rw [isLast] at reads
      have nodup := reads.nodup
      refine reads.concat ?_ ?_ ?_
      · intro other isFront
        refine update_of_ne ?_ _ _
        rintro rfl
        exact (nodup_append.mp nodup).2.2 other isFront other (by simp) rfl
      · rw [update_self]
      · rw [update_of_ne different.symm, update_self]
    · rw [update_of_ne isList]
      refine reads.congr (fun other isOther => update_of_ne ?_ _ _)
      rintro rfl
      rw [owned.mem_iff] at isOther inside
      exact isList (Option.some.inj (isOther.symm.trans inside))
  mem_iff := by
    refine mem_update_iff owned.mem_iff ?_ ?_ ?_
    · intro other different
      simp [different]
    · simp
    · intro j different
      simp [free, Ne.symm different]

end

end Changes

end MagnetoX.Library.OwnedLists
