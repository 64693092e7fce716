import Mathlib.Data.List.Chain

/-!
Owns singly linked lists in a memory of nodes, given by the successor `next` of
each node: reading a list off the memory, and what putting a node in or taking a
node out does to the list that is read.
-/

namespace MagnetoX.Library.LinkedList

open List

variable {α : Type*} {next next' : α → Option α} {front back nodes : List α}

/-- Each of the nodes points to the one behind it. -/
def Follows (next : α → Option α) (nodes : List α) : Prop :=
  nodes.IsChain (fun node behind => next node = some behind)

/-- Reading from `first` on meets exactly these nodes, the last one without a
successor. -/
structure ReadsFrom (next : α → Option α) (first : α) (nodes : List α) : Prop where
  head : nodes.head? = some first
  follows : Follows next nodes
  last : ∀ node ∈ nodes.getLast?, next node = none

theorem Follows.suffix (follows : Follows next (front ++ back)) :
    Follows next back :=
  IsChain.right_of_append follows

theorem Follows.cons {node first : α} (follows : Follows next nodes)
    (head : nodes.head? = some first) (step : next node = some first) :
    Follows next (node :: nodes) := by
  obtain ⟨rest, rfl⟩ := head?_eq_some_iff.mp head
  exact isChain_cons_cons.mpr ⟨step, follows⟩

theorem Follows.second {node last : α} (follows : Follows next (node :: (nodes ++ [last]))) :
    ∃ second, (nodes ++ [last]).head? = some second ∧ next node = some second := by
  cases nodes with
  | nil => exact ⟨last, rfl, (isChain_cons_cons.mp follows).1⟩
  | cons second nodes => exact ⟨second, rfl, (isChain_cons_cons.mp follows).1⟩

/-- The successor of the last node does not matter. -/
theorem Follows.congr {last : α} (follows : Follows next (front ++ [last]))
    (same : ∀ node ∈ front, next' node = next node) : Follows next' (front ++ [last]) := by
  induction front with
  | nil => exact List.IsChain.singleton last
  | cons node front ih =>
    have rest := ih (IsChain.tail follows)
      (fun other member => same other (.tail _ member))
    have own : next' node = next node := same node (.head _)
    cases front with
    | nil =>
      have behind : next node = some last := (isChain_cons_cons.mp follows).1
      exact isChain_cons_cons.mpr ⟨own.trans behind, rest⟩
    | cons second front =>
      have behind : next node = some second := (isChain_cons_cons.mp follows).1
      exact isChain_cons_cons.mpr ⟨own.trans behind, rest⟩

theorem Follows.congr_all (follows : Follows next nodes)
    (same : ∀ node ∈ nodes, next' node = next node) : Follows next' nodes := by
  rcases eq_nil_or_concat nodes with rfl | ⟨front, last, rfl⟩
  · exact IsChain.nil
  · rw [concat_eq_append] at follows same ⊢
    exact follows.congr (fun node member => same node (mem_append_left _ member))

/-- A search that goes on at every node up to `prev` and stops there. It may begin
at any of these nodes. -/
theorem Follows.walk {β : Type*} (search : Nat → α → β) {start last : α}
    {fuel : Nat} {result : β} (follows : Follows next (front ++ last :: back))
    (begins : start ∈ front ++ [last]) (enough : front.length < fuel)
    (passes : ∀ fuel node, ∀ second ∈ front ++ [last], next node = some second →
      search (fuel + 1) node = search fuel second)
    (stops : ∀ fuel, search (fuel + 1) last = result) : search fuel start = result := by
  obtain ⟨fuel, rfl⟩ : ∃ rest, fuel = rest + 1 := ⟨fuel - 1, by omega⟩
  induction front generalizing start fuel with
  | nil =>
    rw [mem_singleton.mp begins]
    exact stops fuel
  | cons node front ih =>
    have rest := fun fuel node second member =>
      passes fuel node second (.tail _ member)
    have shorter := Nat.lt_of_succ_lt_succ enough
    rcases mem_cons.mp begins with rfl | later
    · obtain ⟨second, isSecond, step⟩ := Follows.second (isChain_split.mp follows).1
      have member := mem_of_head? isSecond
      obtain ⟨fuel, rfl⟩ : ∃ less, fuel = less + 1 := ⟨fuel - 1, by omega⟩
      rw [passes _ _ second (.tail _ member) step]
      exact ih (IsChain.tail follows) member rest fuel shorter
    · exact ih (IsChain.tail follows) later rest fuel (Nat.lt_succ_of_lt shorter)

theorem Follows.link {prev node pos : α} (follows : Follows next (front ++ prev :: pos :: back))
    (nodup : (front ++ prev :: pos :: back).Nodup) (fresh : node ∉ front ++ prev :: pos :: back)
    (same : ∀ other, other ≠ prev → other ≠ node → next' other = next other)
    (fromPrev : next' prev = some node) (fromNode : next' node = some pos) :
    Follows next' (front ++ prev :: node :: pos :: back) := by
  have apart := nodup_append.mp nodup
  obtain ⟨before, behind⟩ := isChain_split.mp follows
  apply isChain_split.mpr
  constructor
  · apply Follows.congr before
    intro other member
    apply same
    · exact apart.2.2 other member prev (.head _)
    · rintro rfl
      exact fresh (mem_append_left _ member)
  · refine isChain_cons_cons.mpr ⟨fromPrev, isChain_cons_cons.mpr ⟨fromNode, ?_⟩⟩
    apply Follows.congr_all (IsChain.tail behind)
    intro other member
    apply same
    · rintro rfl
      exact (nodup_cons.mp apart.2.1).1 member
    · rintro rfl
      exact fresh (mem_append_right _ (.tail _ member))

theorem Follows.unlink {prev node : α} (follows : Follows next (front ++ prev :: node :: back))
    (nodup : (front ++ prev :: node :: back).Nodup)
    (same : ∀ other, other ≠ prev → next' other = next other)
    (fromPrev : next' prev = next node) : Follows next' (front ++ prev :: back) := by
  have apart := nodup_append.mp nodup
  obtain ⟨before, behind⟩ := isChain_split.mp follows
  apply isChain_split.mpr
  constructor
  · apply Follows.congr before
    intro other member
    exact same other (apart.2.2 other member prev (.head _))
  · have fromNode := IsChain.tail behind
    cases back with
    | nil => exact List.IsChain.singleton prev
    | cons pos back =>
      obtain ⟨step, rest⟩ := isChain_cons_cons.mp fromNode
      refine isChain_cons_cons.mpr ⟨fromPrev.trans step, ?_⟩
      apply Follows.congr_all rest
      intro other member
      apply same
      rintro rfl
      exact (nodup_cons.mp apart.2.1).1 (.tail _ member)

end MagnetoX.Library.LinkedList
