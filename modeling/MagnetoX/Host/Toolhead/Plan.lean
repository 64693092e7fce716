import MagnetoX.Host.Toolhead.MoveQueue

/-!
Owns the velocity plan of a queue of moves as a function of the queue: the
quantities that the backward traversal of `flush` computes for the first move
depend only on the moves from there on.

Contract: along a linked queue the planned velocities are continuous, and the
velocity planned at a settled move does not change when moves are added behind.
-/

namespace MagnetoX.Host.Toolhead

open List

/-- The start velocity of the first move if the robot stops after the last. -/
def startV2 : List Move → ℚ
  | [] => 0
  | move :: rest => min move.maxStartV2 (startV2 rest + move.deltaV2)

def smoothedV2 : List Move → ℚ
  | [] => 0
  | move :: rest => min move.maxSmoothedV2 (smoothedV2 rest + move.smoothDeltaV2)

/-- The first move only decelerates, so that its cruise velocity has to wait. -/
def Delayed : List Move → Prop
  | [] => False
  | move :: rest => ¬ smoothedV2 (move :: rest) < smoothedV2 rest + move.smoothDeltaV2

instance : DecidablePred Delayed
  | [] => inferInstanceAs (Decidable False)
  | move :: rest =>
      inferInstanceAs (Decidable (¬ smoothedV2 (move :: rest) < smoothedV2 rest + _))

/-- A move that accelerates and then decelerates, or that accelerates into a
decelerating one. -/
def IsPeak (move : Move) (rest : List Move) : Prop :=
  smoothedV2 (move :: rest) + move.smoothDeltaV2 > smoothedV2 rest ∨ Delayed rest

instance (move : Move) (rest : List Move) : Decidable (IsPeak move rest) :=
  inferInstanceAs (Decidable (_ ∨ _))

/-- `peak_cruise_v2` after the first move was visited. -/
def peakV2 : List Move → ℚ
  | [] => 0
  | move :: rest =>
      if ¬ Delayed (move :: rest) ∧ IsPeak move rest then
        min move.maxCruiseV2 ((smoothedV2 (move :: rest) +
          (smoothedV2 rest + move.smoothDeltaV2)) * (1 / 2))
      else peakV2 rest

def ownJunction (move : Move) (rest : List Move) : Junction :=
  let cruiseV2 := min ((startV2 (move :: rest) + (startV2 rest + move.deltaV2)) * (1 / 2))
    (min move.maxCruiseV2 (peakV2 (move :: rest)))
  ⟨min (startV2 (move :: rest)) cruiseV2, cruiseV2, min (startV2 rest) cruiseV2⟩

def delayedJunction (mcV2 : ℚ) (move : Move) (rest : List Move) : Junction :=
  let mcV2 := min mcV2 (startV2 (move :: rest))
  ⟨min (startV2 (move :: rest)) mcV2, mcV2, min (startV2 rest) mcV2⟩

/-- The junctions of all moves; `mcV2` limits delayed moves at the front. -/
def assign (mcV2 : ℚ) : List Move → List Junction
  | [] => []
  | move :: rest =>
      if Delayed (move :: rest) then
        delayedJunction mcV2 move rest :: assign (min mcV2 (startV2 (move :: rest))) rest
      else ownJunction move rest :: assign (peakV2 (move :: rest)) rest

def entryV2 (mcV2 : ℚ) (queue : List Move) : ℚ :=
  if Delayed queue then min mcV2 (startV2 queue) else min (startV2 queue) (peakV2 queue)

structure Sound (move : Move) : Prop where
  smooth_pos : 0 < move.smoothDeltaV2
  smooth_le : move.smoothDeltaV2 ≤ move.deltaV2
  start_le : move.maxStartV2 ≤ move.maxCruiseV2
  smoothed_le : move.maxSmoothedV2 ≤ move.maxStartV2
  smoothed_nonneg : 0 ≤ move.maxSmoothedV2

structure Follows (prevMove move : Move) : Prop where
  start_le_cruise : move.maxStartV2 ≤ prevMove.maxCruiseV2
  start_le_reachable : move.maxStartV2 ≤ prevMove.maxStartV2 + prevMove.deltaV2
  smoothed_eq : move.maxSmoothedV2 =
    min move.maxStartV2 (prevMove.maxSmoothedV2 + prevMove.smoothDeltaV2)

def Linked : List Move → Prop
  | [] => True
  | move :: rest => Sound move ∧ (∀ next ∈ rest.head?, Follows move next) ∧ Linked rest

variable {move : Move} {rest queue before : List Move}

theorem Linked.tail (linked : Linked (move :: rest)) :
    Linked rest := linked.2.2

theorem smoothedV2_nonneg (linked : Linked queue) : 0 ≤ smoothedV2 queue := by
  induction queue with
  | nil => exact le_rfl
  | cons move rest ih =>
    have sound := linked.1
    exact le_min sound.smoothed_nonneg (add_nonneg (ih linked.tail) sound.smooth_pos.le)

theorem smoothedV2_le_startV2 (linked : Linked queue) : smoothedV2 queue ≤ startV2 queue := by
  induction queue with
  | nil => exact le_rfl
  | cons move rest ih =>
    have sound := linked.1
    exact min_le_min sound.smoothed_le (add_le_add (ih linked.tail) sound.smooth_le)

theorem startV2_nonneg (linked : Linked queue) : 0 ≤ startV2 queue :=
  (smoothedV2_nonneg linked).trans (smoothedV2_le_startV2 linked)

theorem smoothedV2_of_not_delayed (notDelayed : ¬ Delayed (move :: rest)) :
    smoothedV2 (move :: rest) = move.maxSmoothedV2 := by
  have less := not_not.mp notDelayed
  rcases min_lt_iff.mp less with less | less
  · exact min_eq_left less.le
  · exact absurd less (lt_irrefl _)

theorem smoothedV2_of_delayed (delayed : Delayed (move :: rest)) :
    smoothedV2 (move :: rest) = smoothedV2 rest + move.smoothDeltaV2 :=
  le_antisymm (min_le_right _ _) (not_lt.mp delayed)

/-- What the queue behind a move can start with is bounded by the move. -/
theorem startV2_le_of_linked (linked : Linked (move :: rest)) :
    startV2 rest ≤ move.maxCruiseV2 ∧ startV2 rest ≤ move.maxStartV2 + move.deltaV2 ∧
      smoothedV2 rest ≤ move.maxSmoothedV2 + move.smoothDeltaV2 := by
  obtain ⟨sound, follows, -⟩ := linked
  have delta := sound.smooth_pos.trans_le sound.smooth_le
  cases rest with
  | nil =>
    have start := sound.smoothed_nonneg.trans sound.smoothed_le
    refine ⟨start.trans sound.start_le, ?_, ?_⟩
    · exact add_nonneg start delta.le
    · exact add_nonneg sound.smoothed_nonneg sound.smooth_pos.le
  | cons next rest =>
    have link := follows next rfl
    refine ⟨(min_le_left _ _).trans link.start_le_cruise,
      (min_le_left _ _).trans link.start_le_reachable, (min_le_left _ _).trans ?_⟩
    rw [link.smoothed_eq]
    exact min_le_right _ _

theorem smoothedV2_le_peakV2 (linked : Linked queue) (notDelayed : ¬ Delayed queue) :
    smoothedV2 queue ≤ peakV2 queue := by
  induction queue with
  | nil => exact le_rfl
  | cons move rest ih =>
    have sound := linked.1
    rw [peakV2]
    by_cases isPeak : IsPeak move rest
    · rw [if_pos ⟨notDelayed, isPeak⟩]
      have less := not_not.mp notDelayed
      have cruise : smoothedV2 (move :: rest) ≤ move.maxCruiseV2 :=
        (min_le_left _ _).trans (sound.smoothed_le.trans sound.start_le)
      exact le_min cruise (by linarith)
    · rw [if_neg (fun peak => isPeak peak.2)]
      obtain ⟨lower, restNotDelayed⟩ := not_or.mp isPeak
      have below := ih linked.tail restNotDelayed
      have positive := sound.smooth_pos
      linarith

/-- Where the smoothed profile is held down by the junction, both profiles meet
at the junction's limit. -/
theorem startV2_eq_smoothedV2 (linked : Linked (move :: rest)) (notDelayed : ¬ Delayed rest)
    (held : smoothedV2 rest < move.maxSmoothedV2 + move.smoothDeltaV2) :
    startV2 rest = smoothedV2 rest := by
  refine le_antisymm ?_ (smoothedV2_le_startV2 linked.tail)
  cases rest with
  | nil => exact le_rfl
  | cons next rest =>
    have link := linked.2.1 next rfl
    have own := smoothedV2_of_not_delayed notDelayed
    have junction : next.maxSmoothedV2 = next.maxStartV2 := by
      rw [own, link.smoothed_eq] at held
      rcases min_lt_iff.mp held with less | less
      · rw [link.smoothed_eq, min_eq_left less.le]
      · exact absurd less (lt_irrefl _)
    rw [own, junction]
    exact min_le_left _ _

theorem min_min_min_of_le {v a b c : ℚ} (first : v ≤ a) (second : v ≤ b) :
    min v (min a (min b c)) = min v c := by
  rw [← min_assoc, min_eq_left first, ← min_assoc, min_eq_left second]

section

variable (linked : Linked (move :: rest)) {mcV2 : ℚ}
include linked

/-- Only the peak limits the two ends of a move. -/
theorem ownJunction_eq :
    (ownJunction move rest).startV2 = min (startV2 (move :: rest)) (peakV2 (move :: rest)) ∧
      (ownJunction move rest).endV2 = min (startV2 rest) (peakV2 (move :: rest)) := by
  obtain ⟨cruise, reachable, -⟩ := startV2_le_of_linked linked
  have sound := linked.1
  have delta := sound.smooth_pos.trans_le sound.smooth_le
  have upper : startV2 (move :: rest) ≤ startV2 rest + move.deltaV2 := min_le_right _ _
  have start : startV2 (move :: rest) ≤ move.maxCruiseV2 := (min_le_left _ _).trans sound.start_le
  refine ⟨min_min_min_of_le (by linarith) start, min_min_min_of_le ?_ cruise⟩
  rcases min_choice move.maxStartV2 (startV2 rest + move.deltaV2) with own | reached
  · rw [startV2, own]
    linarith
  · rw [startV2, reached]
    linarith

/-- After a delayed move, the limit still admits the smoothed profile. -/
theorem smoothedV2_le_of_delayed (delayed : Delayed (move :: rest))
    (admits : smoothedV2 (move :: rest) ≤ mcV2) :
    smoothedV2 rest ≤ min mcV2 (startV2 (move :: rest)) := by
  have grows := smoothedV2_of_delayed delayed
  have positive := linked.1.smooth_pos
  have start := smoothedV2_le_startV2 linked
  exact le_min (by linarith) (by linarith)

/-- So does the peak of a move that is not delayed. -/
theorem smoothedV2_le_peakV2_of_delayed (notDelayed : ¬ Delayed (move :: rest))
    (delayed : Delayed rest) : smoothedV2 rest ≤ peakV2 (move :: rest) := by
  obtain ⟨cruise, -, reachable⟩ := startV2_le_of_linked linked
  have own := smoothedV2_of_not_delayed notDelayed
  rw [peakV2, if_pos ⟨notDelayed, .inr delayed⟩]
  exact le_min ((smoothedV2_le_startV2 linked.tail).trans cruise) (by linarith)

theorem ownJunction_end (notDelayed : ¬ Delayed (move :: rest)) :
    (ownJunction move rest).endV2 = entryV2 (peakV2 (move :: rest)) rest := by
  rw [(ownJunction_eq linked).2, entryV2]
  by_cases delayed : Delayed rest
  · rw [if_pos delayed, min_comm]
  · rw [if_neg delayed]
    by_cases isPeak : IsPeak move rest
    · -- A new peak: the junction limit itself decides on both sides.
      have own := smoothedV2_of_not_delayed notDelayed
      have rises := isPeak.resolve_right delayed
      have meet := startV2_eq_smoothedV2 linked delayed (by linarith)
      have above : startV2 rest ≤ peakV2 (move :: rest) := by
        rw [peakV2, if_pos ⟨notDelayed, isPeak⟩]
        exact le_min (startV2_le_of_linked linked).1 (by linarith)
      have next : startV2 rest ≤ peakV2 rest := by
        rw [meet]
        exact smoothedV2_le_peakV2 linked.tail delayed
      rw [min_eq_left above, min_eq_left next]
    · rw [peakV2, if_neg (fun peak => isPeak peak.2)]

theorem delayedJunction_end (delayed : Delayed (move :: rest))
    (admits : smoothedV2 (move :: rest) ≤ mcV2) :
    (delayedJunction mcV2 move rest).endV2 = entryV2 (min mcV2 (startV2 (move :: rest))) rest := by
  change min (startV2 rest) (min mcV2 (startV2 (move :: rest))) = _
  rw [entryV2]
  by_cases nextDelayed : Delayed rest
  · rw [if_pos nextDelayed, min_comm]
  · rw [if_neg nextDelayed]
    have grows := smoothedV2_of_delayed delayed
    have own : smoothedV2 (move :: rest) ≤ move.maxSmoothedV2 := min_le_left _ _
    have positive := linked.1.smooth_pos
    have meet := startV2_eq_smoothedV2 linked nextDelayed (by linarith)
    have above := smoothedV2_le_of_delayed linked delayed admits
    have next := smoothedV2_le_peakV2 linked.tail nextDelayed
    rw [← meet] at above next
    rw [min_eq_left above, min_eq_left next]

end

/-- The junctions lead from velocity to velocity without a jump. -/
def Continuous : ℚ → List Junction → ℚ → Prop
  | v2, [], last => v2 = last
  | v2, junction :: junctions, last =>
      junction.startV2 = v2 ∧ Continuous junction.endV2 junctions last

/-- **Continuity.** The junctions of the moves before `rest` lead from the
velocity planned at the front to the one planned at `rest`. -/
theorem assign_continuous (mcV2 : ℚ) (linked : Linked queue)
    (split : queue = before ++ rest) (admits : Delayed queue → smoothedV2 queue ≤ mcV2)
    (notDelayed : ¬ Delayed rest) :
    Continuous (entryV2 mcV2 queue) ((assign mcV2 queue).take before.length) (entryV2 0 rest) := by
  induction before generalizing mcV2 queue with
  | nil =>
    rw [split, nil_append, entryV2, entryV2, if_neg notDelayed, if_neg notDelayed]
    rfl
  | cons move before ih =>
    subst split
    rw [cons_append] at linked admits ⊢
    rw [entryV2, assign]
    by_cases delayed : Delayed (move :: (before ++ rest))
    · rw [if_pos delayed, if_pos delayed]
      refine ⟨min_eq_right (min_le_right _ _), ?_⟩
      rw [delayedJunction_end linked delayed (admits delayed)]
      exact ih _ linked.tail rfl (fun _ => smoothedV2_le_of_delayed linked delayed (admits delayed))
    · rw [if_neg delayed, if_neg delayed]
      refine ⟨(ownJunction_eq linked).1, ?_⟩
      rw [ownJunction_end linked delayed]
      exact ih _ linked.tail rfl (smoothedV2_le_peakV2_of_delayed linked delayed)

/-- Some move is not delayed: from there on the smoothed profile is final. -/
def Anchored : List Move → Prop
  | [] => False
  | move :: rest => ¬ Delayed (move :: rest) ∨ Anchored rest

theorem anchored_of_peakV2 (peak : peakV2 queue ≠ 0) : Anchored queue := by
  induction queue with
  | nil => exact absurd rfl peak
  | cons move rest ih =>
    rw [peakV2] at peak
    split at peak
    · rename_i isPeak
      exact .inl isPeak.1
    · exact .inr (ih peak)

theorem Linked.drop (linked : Linked (before ++ rest)) : Linked rest := by
  induction before with
  | nil => exact linked
  | cons move before ih => exact ih linked.tail

variable {added : List Move}

theorem smoothedV2_le_append (linked : Linked (queue ++ added)) :
    smoothedV2 queue ≤ smoothedV2 (queue ++ added) := by
  induction queue with
  | nil => exact smoothedV2_nonneg linked
  | cons move rest ih =>
    exact min_le_min_left _ (add_le_add_left (ih linked.tail) _)

theorem startV2_le_append (linked : Linked (queue ++ added)) :
    startV2 queue ≤ startV2 (queue ++ added) := by
  induction queue with
  | nil => exact startV2_nonneg linked
  | cons move rest ih =>
    exact min_le_min_left _ (add_le_add_left (ih linked.tail) _)

theorem not_delayed_append (linked : Linked (move :: (rest ++ added)))
    (notDelayed : ¬ Delayed (move :: rest)) : ¬ Delayed (move :: (rest ++ added)) := by
  have less := not_not.mp notDelayed
  rw [smoothedV2_of_not_delayed notDelayed] at less
  have grows := smoothedV2_le_append linked.tail
  exact not_not.mpr ((min_le_left _ _).trans_lt (less.trans_le (add_le_add_left grows _)))

theorem smoothedV2_append (linked : Linked (queue ++ added)) (anchored : Anchored queue) :
    smoothedV2 (queue ++ added) = smoothedV2 queue := by
  induction queue with
  | nil => exact absurd anchored id
  | cons move rest ih =>
    rcases anchored with notDelayed | anchored
    · rw [smoothedV2_of_not_delayed notDelayed, cons_append,
        smoothedV2_of_not_delayed (not_delayed_append linked notDelayed)]
    · rw [cons_append, smoothedV2, ih linked.tail anchored, smoothedV2]

theorem delayed_append_iff (linked : Linked (queue ++ added)) (anchored : Anchored queue) :
    Delayed (queue ++ added) ↔ Delayed queue := by
  cases queue with
  | nil => exact absurd anchored id
  | cons move rest =>
    by_cases delayed : Delayed (move :: rest)
    · have later := anchored.resolve_left (not_not.mpr delayed)
      have whole := smoothedV2_append linked anchored
      have behind := smoothedV2_append linked.tail later
      rw [cons_append] at whole ⊢
      rw [Delayed, whole, behind, Delayed]
    · exact iff_of_false (not_delayed_append linked delayed) delayed

theorem Anchored.append (anchored : Anchored queue) (linked : Linked (queue ++ added)) :
    Anchored (queue ++ added) := by
  induction queue with
  | nil => exact absurd anchored id
  | cons move rest ih =>
    rcases anchored with notDelayed | anchored
    · exact .inl (not_delayed_append linked notDelayed)
    · exact .inr (ih anchored linked.tail)

/-- A peak at the front with an anchor behind it: what a lazy flush leaves. -/
def Settled : List Move → Prop
  | [] => False
  | move :: rest => ¬ Delayed (move :: rest) ∧ IsPeak move rest ∧ Anchored rest

/-- A start velocity that may still rise is already cut off by the peak. -/
theorem peakV2_le_startV2 (linked : Linked (move :: rest)) (notDelayed : ¬ Delayed (move :: rest))
    (isPeak : IsPeak move rest) (rises : startV2 (move :: rest) = startV2 rest + move.deltaV2) :
    peakV2 (move :: rest) ≤ startV2 (move :: rest) := by
  have less := not_not.mp notDelayed
  have profile := smoothedV2_le_startV2 linked.tail
  have smooth := linked.1.smooth_le
  rw [peakV2, if_pos ⟨notDelayed, isPeak⟩, rises]
  exact (min_le_right _ _).trans (by linarith)

/-- **Stability.** The velocity planned at a settled front does not change when
moves are added. -/
theorem Settled.append (settled : Settled queue) (linked : Linked (queue ++ added))
    (linkedQueue : Linked queue) :
    Settled (queue ++ added) ∧ entryV2 0 (queue ++ added) = entryV2 0 queue := by
  cases queue with
  | nil => exact absurd settled id
  | cons move rest =>
    obtain ⟨notDelayed, isPeak, anchored⟩ := settled
    have front := not_delayed_append linked notDelayed
    have whole := smoothedV2_append linked (.inl notDelayed)
    have behind := smoothedV2_append linked.tail anchored
    rw [cons_append] at whole
    have stays : IsPeak move (rest ++ added) := by
      rw [IsPeak, whole, behind, delayed_append_iff linked.tail anchored]
      exact isPeak
    have peak : peakV2 (move :: (rest ++ added)) = peakV2 (move :: rest) := by
      rw [peakV2, if_pos ⟨front, stays⟩, peakV2, if_pos ⟨notDelayed, isPeak⟩, whole, behind]
    refine ⟨⟨front, stays, anchored.append linked.tail⟩, ?_⟩
    have grows := startV2_le_append linked
    rw [cons_append] at grows ⊢
    rw [entryV2, if_neg front, entryV2, if_neg notDelayed, peak]
    rcases min_choice move.maxStartV2 (startV2 rest + move.deltaV2) with own | rises
    · have top : startV2 (move :: (rest ++ added)) ≤ startV2 (move :: rest) :=
        (min_le_left _ _).trans own.ge
      rw [le_antisymm top grows]
    · have cutOff := peakV2_le_startV2 linkedQueue notDelayed isPeak rises
      rw [min_eq_right (cutOff.trans grows), min_eq_right cutOff]

end MagnetoX.Host.Toolhead
