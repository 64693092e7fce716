import MagnetoX.Host.Toolhead.Continuity
import MagnetoX.Host.Toolhead.Timing

/-!
Owns the feasibility of planned velocities: a move can be driven with the
junction it is given, so that none of its portions takes a negative time. Also
owns what the queue of the toolhead keeps to have this.
-/

namespace MagnetoX.Host.Toolhead

open List

variable {move prevMove : Move} {rest queue : List Move} {junction : Junction} {sqrt : ℚ → ℚ}

/-- The move cruises at least as fast as it starts and ends, and is long enough
to get there and back. -/
structure Feasible (move : Move) (junction : Junction) : Prop where
  start_le : junction.startV2 ≤ junction.cruiseV2
  end_le : junction.endV2 ≤ junction.cruiseV2
  length : 2 * junction.cruiseV2 - junction.startV2 - junction.endV2 ≤ move.deltaV2

/-- A cruise velocity that can be reached from both ends is feasible, also after
both ends have been lowered to it. -/
theorem feasible_of_reachable {startV2 cruiseV2 endV2 : ℚ} (forward : endV2 ≤ startV2 + move.deltaV2)
    (backward : startV2 ≤ endV2 + move.deltaV2)
    (reachable : startV2 ≤ cruiseV2 → endV2 ≤ cruiseV2 →
      2 * cruiseV2 ≤ startV2 + endV2 + move.deltaV2) :
    Feasible move ⟨min startV2 cruiseV2, cruiseV2, min endV2 cruiseV2⟩ where
  start_le := min_le_right _ _
  end_le := min_le_right _ _
  length := by
    rcases le_total startV2 cruiseV2 with slow | fast
    · rcases le_total endV2 cruiseV2 with slowEnd | fastEnd
      · rw [min_eq_left slow, min_eq_left slowEnd]
        linarith [reachable slow slowEnd]
      · rw [min_eq_left slow, min_eq_right fastEnd]
        linarith
    · rcases le_total endV2 cruiseV2 with slowEnd | fastEnd
      · rw [min_eq_right fast, min_eq_left slowEnd]
        linarith
      · rw [min_eq_right fast, min_eq_right fastEnd]
        linarith

theorem Linked.reach (linked : Linked (move :: rest)) :
    startV2 rest ≤ startV2 (move :: rest) + move.deltaV2 ∧
      startV2 (move :: rest) ≤ startV2 rest + move.deltaV2 := by
  have nonneg := linked.1.smooth_pos.le.trans linked.1.smooth_le
  refine ⟨?_, min_le_right _ _⟩
  rw [startV2, min_add]
  exact le_min (startV2_le_of_linked linked).2.1 (by linarith)

theorem ownJunction_feasible (linked : Linked (move :: rest)) :
    Feasible move (ownJunction move rest) := by
  obtain ⟨forward, backward⟩ := linked.reach
  refine feasible_of_reachable forward backward (fun _ _ => ?_)
  have half := min_le_left ((startV2 (move :: rest) + (startV2 rest + move.deltaV2)) * (1 / 2))
    (min move.maxCruiseV2 (peakV2 (move :: rest)))
  linarith

theorem delayedJunction_feasible (mcV2 : ℚ) (linked : Linked (move :: rest)) :
    Feasible move (delayedJunction mcV2 move rest) := by
  obtain ⟨forward, backward⟩ := linked.reach
  refine feasible_of_reachable forward backward (fun _ slowEnd => ?_)
  have below := min_le_right mcV2 (startV2 (move :: rest))
  linarith

theorem assign_feasible (mcV2 : ℚ) (linked : Linked queue) :
    List.Forall₂ Feasible queue (assign mcV2 queue) := by
  induction queue generalizing mcV2 with
  | nil => exact .nil
  | cons move rest ih =>
    rw [assign]
    split
    · exact .cons (delayedJunction_feasible mcV2 linked) (ih _ linked.tail)
    · exact .cons (ownJunction_feasible linked) (ih _ linked.tail)

def Measured (move : Move) : Prop := 0 < move.accel ∧ move.deltaV2 = 2 * move.moveD * move.accel

theorem Fresh.measured (fresh : Fresh move) : Measured move := ⟨fresh.accel_pos, fresh.delta_eq⟩

theorem Measured.calcJunction (measured : Measured move) (limit : Option ℚ) :
    Measured (move.calcJunction limit prevMove) := by
  cases limit with
  | none => exact measured
  | some limit => exact measured

structure Portions.Forward (portions : Portions) : Prop where
  accel : 0 ≤ portions.accelT
  cruise : 0 ≤ portions.cruiseT
  decel : 0 ≤ portions.decelT

theorem Feasible.distance (feasible : Feasible move junction) (measured : Measured move) :
    (junction.cruiseV2 - junction.startV2) * (1 / 2 / move.accel) +
      (junction.cruiseV2 - junction.endV2) * (1 / 2 / move.accel) ≤ move.moveD := by
  obtain ⟨positive, delta⟩ := measured
  have inverse : 0 ≤ 1 / 2 / move.accel := by positivity
  have long := feasible.length
  rw [delta] at long
  have scaled := mul_le_mul_of_nonneg_right long inverse
  have length : 2 * move.moveD * move.accel * (1 / 2 / move.accel) = move.moveD := by
    field_simp
  linarith

theorem Feasible.forward (feasible : Feasible move junction) (measured : Measured move)
    (nonneg : ∀ v, 0 ≤ sqrt v) : (move.setJunction sqrt junction).Forward := by
  have positive := measured.1
  have inverse : 0 ≤ 1 / 2 / move.accel := by positivity
  have starting := nonneg junction.startV2
  have cruising := nonneg junction.cruiseV2
  have ending := nonneg junction.endV2
  constructor
  · exact div_nonneg (mul_nonneg (sub_nonneg.mpr feasible.start_le) inverse) (by positivity)
  · refine div_nonneg ?_ cruising
    linarith [feasible.distance measured]
  · exact div_nonneg (mul_nonneg (sub_nonneg.mpr feasible.end_le) inverse) (by positivity)

structure Planned (queue : List Move) : Prop where
  linked : Linked queue
  ready : ∃ v2, Ready v2 queue
  measured : ∀ move ∈ queue, Measured move

theorem planned_nil : Planned [] := ⟨trivial, ⟨0, rfl⟩, nofun⟩

theorem Planned.singleton (fresh : Fresh move) : Planned [move] where
  linked := ⟨fresh.sound, nofun, trivial⟩
  ready := ⟨0, .inl ⟨fresh.start, fresh.smoothed, rfl⟩⟩
  measured := by
    intro other isMove
    rw [mem_singleton.mp isMove]
    exact fresh.measured

theorem Planned.append (planned : Planned queue) (last : queue.getLast? = some prevMove)
    (fresh : Fresh move) {limit : Option ℚ} (nonneg : ∀ v2 ∈ limit, 0 ≤ v2) :
    Planned (queue ++ [move.calcJunction limit prevMove]) := by
  obtain ⟨sound, follows⟩ := fresh.calcJunction (planned.linked.sound_getLast last) nonneg
  have linked := planned.linked.append_singleton last sound follows
  have nonempty : queue ≠ [] := by
    intro empty
    rw [empty] at last
    cases last
  obtain ⟨v2, ready⟩ := planned.ready
  refine ⟨linked, ⟨v2, ready.append nonempty planned.linked linked⟩, ?_⟩
  exact forall_mem_append.mpr
    ⟨planned.measured, forall_mem_singleton.mpr (fresh.measured.calcJunction limit)⟩

theorem Planned.flush (planned : Planned queue) (lazy : Bool) :
    Planned (flushQueue lazy queue).2 := by
  obtain ⟨v2, ready⟩ := planned.ready
  rcases flushQueue_cases ready planned.linked lazy with
    ⟨-, same⟩ | ⟨before, rest, rfl, flushes, -, readyRest, -⟩
  · rw [same]
    exact planned
  · rw [flushes]
    exact ⟨planned.linked.drop, ⟨_, readyRest⟩,
      fun move isMove => planned.measured move (mem_append_right _ isMove)⟩

theorem Planned.forward (planned : Planned queue) (lazy : Bool) (nonneg : ∀ v, 0 ≤ sqrt v) :
    ∀ portions ∈ (flushQueue lazy queue).1.filterMap
      (fun (move, junction) => junction.map (move.setJunction sqrt)), portions.Forward := by
  obtain ⟨v2, ready⟩ := planned.ready
  rcases flushQueue_cases ready planned.linked lazy with
    ⟨-, same⟩ | ⟨before, rest, split, flushes, -⟩
  · rw [same]
    intro portions isPortions
    cases isPortions
  · rw [flushes]
    intro portions isPortions
    obtain ⟨entry, isEntry, hasPortions⟩ := mem_filterMap.mp isPortions
    obtain ⟨⟨move, junction⟩, isPair, rfl⟩ := mem_map.mp isEntry
    cases hasPortions
    have feasible := assign_feasible 0 planned.linked
    have isPair : (move, junction) ∈ queue.zip (assign 0 queue) := by
      have taken : queue.take before.length = before := by rw [split, take_left]
      have count : before.length ≤ queue.length := by simp [split]
      rw [← taken, length_take, min_eq_left count, zip, ← take_zipWith] at isPair
      exact mem_of_mem_take isPair
    exact ((forall₂_iff_zip.mp feasible).2 isPair).forward
      (planned.measured move (of_mem_zip isPair).1) nonneg

end MagnetoX.Host.Toolhead
