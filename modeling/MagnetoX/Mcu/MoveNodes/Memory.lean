import MagnetoX.Library.OwnedLists
import MagnetoX.Mcu.MoveNodes.Model

/-!
Owns what the functions of the move queue do to the lists of nodes. A node is on
the free list, on the queue of one object, or held by the code that has taken it
off a list; each function moves one node between these places.
-/

namespace MagnetoX.Mcu.MoveNodes

open Library.OwnedLists List Option

variable {b : Board}

def Fits : Owner b → Contents → Prop
  | .stepper _, contents => contents.stepper?.isSome
  | .digital _, contents => contents.digital?.isSome
  | .pwm _, contents => contents.pwm?.isSome

namespace Memory

variable {memory after : Memory b} {held : List (Node b)} {mh : Owner b} {m : Node b}
  {owner owner' : Node b → Option (Option (Owner b))} {lists : Option (Owner b) → List (Node b)}

/-- The heads of all lists; the free list has no owner. -/
def heads (memory : Memory b) : Option (Owner b) → Option (Node b)
  | none => memory.moveFreeList
  | some mh => (memory.mq mh).first

/-- The nodes on the lists, the last node of each queue, and what the nodes hold. -/
structure Linked (memory : Memory b) (owner : Node b → Option (Option (Owner b)))
    (lists : Option (Owner b) → List (Node b)) : Prop where
  owned : Owned memory.next memory.heads owner lists
  last : ∀ mh, ∀ node ∈ (lists (some mh)).getLast?, (memory.mq mh).last = some node
  fits : ∀ mh, ∀ node ∈ lists (some mh), Fits mh (memory.contents node)

def Holds (memory : Memory b) (held : List (Node b)) : Prop :=
  ∃ owner lists, Linked memory owner lists ∧ held.Nodup ∧ ∀ node, owner node = none ↔ node ∈ held

open Function

theorem heads_setFree (memory : Memory b) (next : Node b → Option (Node b)) (first : Option (Node b)) :
    heads { memory with next, moveFreeList := first } = update memory.heads none first := by
  funext i
  cases i with
  | none => rfl
  | some mh => rfl

theorem heads_setHead (memory : Memory b) (mh : Owner b) (head : MoveQueueHead b) :
    (memory.setHead mh head).heads = update memory.heads (some mh) head.first := by
  funext i
  cases i with
  | none => rfl
  | some other =>
    simp only [heads, setHead]
    by_cases same : other = mh
    · subst same
      simp
    · simp [same, heads]

section Owners

variable {owner : Node b → Option (Option (Owner b))}

theorem none_iff_of_put (isHeld : ∀ node, owner node = none ↔ node ∈ m :: held)
    (nodup : (m :: held).Nodup) (i : Option (Owner b)) (node : Node b) :
    update owner m (some i) node = none ↔ node ∈ held := by
  by_cases same : node = m
  · subst same
    simp [(nodup_cons.mp nodup).1]
  · rw [update_of_ne same, isHeld, mem_cons, or_iff_right same]

theorem none_iff_of_take (isHeld : ∀ node, owner node = none ↔ node ∈ held) (node : Node b) :
    update owner m none node = none ↔ node ∈ m :: held := by
  by_cases same : node = m
  · subst same
    simp
  · rw [update_of_ne same, isHeld, mem_cons, or_iff_right same]

end Owners

theorem Holds.alloc (holds : memory.Holds held) (allocates : memory.moveAlloc = some (m, after)) :
    after.Holds (m :: held) ∧ after.mq = memory.mq ∧ after.contents = memory.contents := by
  obtain ⟨owner, lists, linked, nodup, isHeld⟩ := holds
  obtain ⟨mf, isFree, result⟩ := map_eq_some_iff.mp allocates
  cases result
  have reads := linked.owned.reads none
  rw [heads, isFree] at reads
  obtain ⟨rest, isFirst, _⟩ := reads.of_some
  have isOwner : owner m = some none :=
    (linked.owned.mem_iff none m).mp (by rw [isFirst]; exact .head _)
  refine ⟨⟨update owner m none, update lists none rest, ⟨?_, ?_, ?_⟩, ?_, ?_⟩, rfl, rfl⟩
  · rw [heads_setFree]
    exact linked.owned.pop isFirst
  · exact linked.last
  · exact linked.fits
  · refine nodup_cons.mpr ⟨fun again => ?_, nodup⟩
    rw [← isHeld, isOwner] at again
    cases again
  · exact none_iff_of_take isHeld

theorem Linked.of_overflow (linked : Linked memory owner lists)
    (fails : memory.moveAlloc = none) : lists none = [] := by
  have isEmpty : memory.moveFreeList = none := map_eq_none_iff.mp fails
  exact (linked.owned.reads none).none_iff.mp isEmpty

theorem Holds.free (holds : memory.Holds (m :: held)) : (memory.moveFree m).Holds held := by
  obtain ⟨owner, lists, linked, nodup, isHeld⟩ := holds
  refine ⟨update owner m (some none), update lists none (m :: lists none),
    ⟨?_, linked.last, linked.fits⟩, (nodup_cons.mp nodup).2, none_iff_of_put isHeld nodup none⟩
  rw [moveFree, heads_setFree]
  exact linked.owned.push (i := none) ((isHeld m).mpr (.head _))

theorem Linked.update (linked : Linked memory owner lists) (mh : Owner b) (nodes : List (Node b))
    (owned : Owned after.next after.heads owner' (update lists (some mh) nodes))
    (others : ∀ other, other ≠ mh → after.mq other = memory.mq other)
    (contents : after.contents = memory.contents)
    (last : ∀ node ∈ nodes.getLast?, (after.mq mh).last = some node)
    (fits : ∀ node ∈ nodes, Fits mh (memory.contents node)) :
    Linked after owner' (update lists (some mh) nodes) := by
  refine ⟨owned, ?_, ?_⟩
  · intro other
    by_cases same : other = mh
    · subst same
      rw [update_self]
      exact last
    · rw [update_of_ne (fun isSame => same (some.inj isSame)), others other same]
      exact linked.last other
  · intro other
    rw [contents]
    by_cases same : other = mh
    · subst same
      rw [update_self]
      exact fits
    · rw [update_of_ne (fun isSame => same (some.inj isSame))]
      exact linked.fits other

theorem moveQueueEmpty_eq_false : memory.moveQueueEmpty mh = false ↔ (memory.mq mh).first ≠ none := by
  rw [moveQueueEmpty, isNone_eq_false_iff, isSome_iff_ne_none]

theorem setHead_of_ne {other : Owner b} (different : other ≠ mh) (head : MoveQueueHead b) :
    (memory.setHead mh head).mq other = memory.mq other :=
  update_of_ne different _ _

theorem setHead_self (head : MoveQueueHead b) : (memory.setHead mh head).mq mh = head :=
  update_self _ _ _

structure Pushed (memory : Memory b) (mh : Owner b) (held : List (Node b)) (first : Bool)
    (after : Memory b) : Prop where
  holds : after.Holds held
  first_iff : first = true ↔ (memory.mq mh).first = none
  nonempty : (after.mq mh).first ≠ none
  others : ∀ other, other ≠ mh → after.mq other = memory.mq other
  contents : after.contents = memory.contents

theorem Holds.push (holds : memory.Holds (m :: held)) (fits : Fits mh (memory.contents m)) :
    ∃ first after, memory.moveQueuePush m mh = some (first, after) ∧
      Pushed memory mh held first after := by
  obtain ⟨owner, lists, linked, nodup, isHeld⟩ := holds
  have free : owner m = none := (isHeld m).mpr (.head _)
  have reads := linked.owned.reads (some mh)
  have isHeld' := none_iff_of_put isHeld nodup (some mh)
  have nodup' := (nodup_cons.mp nodup).2
  unfold moveQueuePush
  rcases isHead : memory.mq mh with ⟨_ | first, isLast⟩
  · -- the queue was empty
    have noHead : memory.heads (some mh) = none := by rw [heads, isHead]
    have empty : lists (some mh) = [] := reads.none_iff.mp noHead
    have owned := linked.owned.push (i := some mh) free
    rw [noHead, empty] at owned
    simp only [isHead]
    refine ⟨_, _, rfl, ⟨_, _, linked.update mh [m] ?_ ?_ rfl ?_ ?_, nodup', isHeld'⟩, ?_, ?_, ?_, rfl⟩
    · rw [heads_setHead]
      exact owned
    · exact fun other different => setHead_of_ne different _
    · rw [setHead_self]
      simp
    · simpa using fits
    · simp [isHead]
    · rw [setHead_self]
      nofun
    · exact fun other different => setHead_of_ne different _
  · have isFirst : memory.heads (some mh) = some first := by rw [heads, isHead]
    have nonempty : lists (some mh) ≠ [] := by
      intro empty
      rw [← reads.none_iff, isFirst] at empty
      cases empty
    obtain ⟨front, last, isList⟩ := (eq_nil_or_concat (lists (some mh))).resolve_left nonempty
    rw [concat_eq_append] at isList
    have pointer := linked.last mh last (by rw [isList]; simp)
    have isLast : isLast = some last := by
      rw [isHead] at pointer
      exact pointer
    subst isLast
    have owned := linked.owned.append free isList
    simp only [isHead]
    have sameHeads : update memory.heads (some mh) (some first) = memory.heads :=
      update_eq_self_iff.mpr isFirst.symm
    rw [← sameHeads] at owned
    refine ⟨_, _, rfl, ⟨_, _, linked.update mh (lists (some mh) ++ [m]) ?_ ?_ rfl ?_ ?_, nodup', isHeld'⟩,
      ?_, ?_, ?_, rfl⟩
    · rw [heads_setHead]
      exact owned
    · exact fun other different => setHead_of_ne different _
    · rw [setHead_self]
      simp
    · intro node inside
      rcases mem_append.mp inside with old | new
      · exact linked.fits mh node old
      · rw [mem_singleton.mp new]
        exact fits
    · simp [isHead]
    · rw [setHead_self]
      nofun
    · exact fun other different => setHead_of_ne different _

structure Popped (memory : Memory b) (mh : Owner b) (held : List (Node b)) (m : Node b)
    (after : Memory b) : Prop where
  holds : after.Holds (m :: held)
  fits : Fits mh (memory.contents m)
  next : after.next = memory.next
  first : (after.mq mh).first = memory.next m
  others : ∀ other, other ≠ mh → after.mq other = memory.mq other
  contents : after.contents = memory.contents

theorem Holds.first_fits (holds : memory.Holds held) (isFirst : (memory.mq mh).first = some m) :
    Fits mh (memory.contents m) := by
  obtain ⟨owner, lists, linked, _, _⟩ := holds
  have reads := linked.owned.reads (some mh)
  rw [heads, isFirst] at reads
  obtain ⟨rest, isList, _⟩ := reads.of_some
  exact linked.fits mh m (by rw [isList]; exact .head _)

theorem Holds.pop (holds : memory.Holds held) (isFirst : (memory.mq mh).first = some m) :
    ∃ after, memory.moveQueuePop mh = some (m, after) ∧ Popped memory mh held m after := by
  have fits := holds.first_fits isFirst
  obtain ⟨owner, lists, linked, nodup, isHeld⟩ := holds
  have reads := linked.owned.reads (some mh)
  rw [heads, isFirst] at reads
  obtain ⟨rest, isList, _⟩ := reads.of_some
  have isOwner : owner m = some (some mh) :=
    (linked.owned.mem_iff (some mh) m).mp (by rw [isList]; exact .head _)
  have fresh : m ∉ held := by
    intro again
    rw [← isHeld, isOwner] at again
    cases again
  rw [moveQueuePop, isFirst, map_some]
  refine ⟨_, rfl, ⟨_, _, linked.update mh rest ?_ ?_ rfl ?_ ?_, nodup_cons.mpr ⟨fresh, nodup⟩,
    none_iff_of_take isHeld⟩, fits, rfl, by rw [setHead_self], ?_, rfl⟩
  · rw [heads_setHead]
    exact linked.owned.pop isList
  · exact fun other different => setHead_of_ne different _
  · intro node isLast
    rw [setHead_self]
    refine linked.last mh node ?_
    rw [isList, getLast?_cons, isLast]
    rfl
  · intro node inside
    exact linked.fits mh node (by rw [isList]; exact .tail _ inside)
  · exact fun other different => setHead_of_ne different _

theorem Holds.fill (holds : memory.Holds held) (isHeld : m ∈ held) (contents : Contents) :
    (memory.setContents m contents).Holds held := by
  obtain ⟨owner, lists, linked, nodup, held_iff⟩ := holds
  refine ⟨owner, lists, ⟨linked.owned, linked.last, ?_⟩, nodup, held_iff⟩
  intro mh node inside
  have different : node ≠ m := linked.owned.ne_of_mem ((held_iff m).mpr isHeld) inside
  have same : (memory.setContents m contents).contents node = memory.contents node :=
    update_of_ne different _ _
  rw [same]
  exact linked.fits mh node inside

/-- Reading the nodes in the order of their addresses. -/
theorem reads_chain {count : Nat} {next : Fin count → Option (Fin count)}
    (isNext : ∀ node, next node =
      if more : node.val + 1 < count then some ⟨node.val + 1, more⟩ else none) (k : Nat) :
    Reads next (if more : k < count then some ⟨k, more⟩ else none) ((List.finRange count).drop k) := by
  induction missing : count - k generalizing k with
  | zero =>
    rw [dif_neg (by omega), drop_eq_nil_of_le (by rw [length_finRange]; omega)]
    rfl
  | succ missing ih =>
    have more : k < count := by omega
    rw [dif_pos more, drop_eq_getElem_cons (by rw [length_finRange]; exact more),
      getElem_finRange]
    refine ⟨rfl, ?_⟩
    have rest := ih (k + 1) (by omega)
    rw [← isNext ⟨k, more⟩] at rest
    exact rest

/-- With all queues cleared, `move_reset` puts every node on the free list. -/
theorem moveReset_holds (next : memory.next = (Memory.moveReset memory).next)
    (free : memory.moveFreeList = some ⟨0, b.isFinalized⟩)
    (cleared : ∀ mh, (memory.mq mh).first = none) : memory.Holds [] := by
  refine ⟨fun _ => some none, fun i => i.elim (finRange b.moveCount) (fun _ => []),
    ⟨⟨?_, ?_⟩, ?_, ?_⟩, .nil, ?_⟩
  · intro i
    cases i with
    | none =>
      have reads : Reads memory.next _ _ := reads_chain (fun node => congrFun next node) 0
      rw [dif_pos b.isFinalized, drop_zero] at reads
      rw [heads, free]
      exact reads
    | some mh => exact cleared mh
  · intro i node
    cases i with
    | none => simp
    | some mh => simp
  · intro mh node isLast
    cases isLast
  · intro mh node inside
    cases inside
  · simp

end Memory

end MagnetoX.Mcu.MoveNodes
