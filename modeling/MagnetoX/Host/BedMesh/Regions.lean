import MagnetoX.Host.BedMesh.Model
import MagnetoX.Library.Run

/-!
Owns the faulty regions of `klippy/extras/bed_mesh.py`: how `_init_mesh_config` reads
and compares them, and which regions its comparison does not tell apart.

Two regions are compared by their corners. Regions that cross each other have no corner
within the other one.
-/

namespace MagnetoX.Host.Bed

open Library.Run List

structure Point where
  x : ℚ
  y : ℚ
deriving DecidableEq, Repr

def within (coord minC maxC : Point) (tol : ℚ) : Bool :=
  decide (coord.x ≤ maxC.x + tol ∧ minC.x - tol ≤ coord.x ∧
    coord.y ≤ maxC.y + tol ∧ minC.y - tol ≤ coord.y)

structure Region where
  minC : Point
  maxC : Point
  x_le : minC.x ≤ maxC.x
  y_le : minC.y ≤ maxC.y
deriving DecidableEq

namespace Region

/-- Corners in any order are reorganized. -/
def ofCorners (start finish : Point) : Region where
  minC := ⟨min start.x finish.x, min start.y finish.y⟩
  maxC := ⟨max start.x finish.x, max start.y finish.y⟩
  x_le := min_le_max
  y_le := min_le_max

def corners (r : Region) : List Point :=
  [r.minC, ⟨r.minC.x, r.maxC.y⟩, r.maxC, ⟨r.maxC.x, r.minC.y⟩]

def hasCornerIn (r other : Region) : Bool :=
  r.corners.any (fun corner => within corner other.minC other.maxC 0)

end Region

/-- Regions that overlap: the numbers and the corners of the existing and the added one. -/
inductive RegionError where
  | existingOverlaps (existing : Nat × Region) (added : Nat × Region)
  | addedOverlaps (added : Nat × Region) (existing : Nat × Region)
deriving DecidableEq

def checkOverlap (added : Nat × Region) : Nat → List Region → Except RegionError Unit
  | _, [] => .ok ()
  | j, prev :: rest =>
      if prev.hasCornerIn added.2 then .error (.existingOverlaps (j, prev) added)
      else if added.2.hasCornerIn prev then .error (.addedOverlaps added (j, prev))
      else checkOverlap added (j + 1) rest

def addRegions : Nat → List Region → List (Point × Point) → Except RegionError (List Region)
  | _, regions, [] => .ok regions
  | i, regions, (start, finish) :: rest => do
      checkOverlap (i, .ofCorners start finish) 1 regions
      addRegions (i + 1) (regions ++ [.ofCorners start finish]) rest

/-- The faulty regions that the configuration gives, numbered from 1 to 99. -/
def processFaultyRegions (given : List (Point × Point)) : Except RegionError (List Region) :=
  addRegions 1 [] (given.take 99)

namespace Region

def Inside (r : Region) (p : Point) : Prop :=
  r.minC.x < p.x ∧ p.x < r.maxC.x ∧ r.minC.y < p.y ∧ p.y < r.maxC.y

def Overlaps (a b : Region) : Prop := ∃ p, a.Inside p ∧ b.Inside p

/-- `b` passes through `a` from below to above. -/
def Crosses (a b : Region) : Prop :=
  a.minC.x < b.minC.x ∧ b.minC.x < b.maxC.x ∧ b.maxC.x < a.maxC.x ∧
    b.minC.y < a.minC.y ∧ a.minC.y < a.maxC.y ∧ a.maxC.y < b.maxC.y

instance (r : Region) (p : Point) : Decidable (r.Inside p) := inferInstanceAs (Decidable (_ ∧ _))

instance (a b : Region) : Decidable (a.Crosses b) := inferInstanceAs (Decidable (_ ∧ _))

/-- What the comparison finds of two accepted regions. -/
def Apart (a b : Region) : Prop := a.hasCornerIn b = false ∧ b.hasCornerIn a = false

/-- Where two intervals share an inner point, one has an end in the other, or lies around it. -/
theorem interval_cases {low high other top p : ℚ} (low_lt : low < p) (lt_high : p < high)
    (other_lt : other < p) (lt_top : p < top) :
    (low ≤ other ∧ other ≤ high ∨ low ≤ top ∧ top ≤ high) ∨ other < low ∧ high < top := by
  rcases lt_or_ge other low with less | ge
  · rcases lt_or_ge high top with above | le
    · exact .inr ⟨less, above⟩
    · exact .inl (.inr ⟨by linarith, le⟩)
  · exact .inl (.inl ⟨ge, by linarith⟩)

variable {a b : Region}

/-- Without a corner in `b`, the ends of `a` lie in `b` in one direction only. -/
theorem not_ends_within (apart : a.hasCornerIn b = false) :
    ¬ ((b.minC.x ≤ a.minC.x ∧ a.minC.x ≤ b.maxC.x ∨ b.minC.x ≤ a.maxC.x ∧ a.maxC.x ≤ b.maxC.x) ∧
      (b.minC.y ≤ a.minC.y ∧ a.minC.y ≤ b.maxC.y ∨ b.minC.y ≤ a.maxC.y ∧ a.maxC.y ≤ b.maxC.y)) := by
  simp only [hasCornerIn, corners, within, any_cons, any_nil, Bool.or_false,
    Bool.or_eq_false_iff, decide_eq_false_iff_not, add_zero, sub_zero] at apart
  obtain ⟨minMin, minMax, maxMax, maxMin⟩ := apart
  rintro ⟨inX | inX, inY | inY⟩
  · exact minMin ⟨inX.2, inX.1, inY.2, inY.1⟩
  · exact minMax ⟨inX.2, inX.1, inY.2, inY.1⟩
  · exact maxMin ⟨inX.2, inX.1, inY.2, inY.1⟩
  · exact maxMax ⟨inX.2, inX.1, inY.2, inY.1⟩

theorem Crosses.overlaps (crosses : a.Crosses b) : a.Overlaps b := by
  obtain ⟨left, wide, right, below, high, above⟩ := crosses
  obtain ⟨x, x_low, x_high⟩ := exists_between wide
  obtain ⟨y, y_low, y_high⟩ := exists_between high
  exact ⟨⟨x, y⟩, ⟨left.trans x_low, x_high.trans right, y_low, y_high⟩,
    x_low, x_high, below.trans y_low, y_high.trans above⟩

theorem Apart.overlaps_iff (apart : a.Apart b) : a.Overlaps b ↔ a.Crosses b ∨ b.Crosses a := by
  constructor
  · rintro ⟨p, ⟨ax, xa, ay, ya⟩, bx, xb, yb, by'⟩
    have notIn := not_ends_within apart.1
    have notIn' := not_ends_within apart.2
    rcases interval_cases ax xa bx xb with ends | ⟨less, above⟩
    · -- `b` has an end in `a` along x, so it lies around `a` along y
      obtain ⟨below, beyond⟩ := (interval_cases ay ya yb by').resolve_left
        (fun inside => notIn' ⟨ends, inside⟩)
      rcases interval_cases bx xb ax xa with ends' | ⟨less, above⟩
      · exact absurd ⟨ends', .inl ⟨below.le, by linarith⟩⟩ notIn
      · exact .inl ⟨less, by linarith, above, below, by linarith, beyond⟩
    · obtain ⟨below, beyond⟩ := (interval_cases yb by' ay ya).resolve_left
        (fun inside => notIn ⟨.inl ⟨less.le, by linarith⟩, inside⟩)
      exact .inr ⟨less, by linarith, above, below, by linarith, beyond⟩
  · rintro (crosses | crosses)
    · exact crosses.overlaps
    · obtain ⟨p, first, second⟩ := crosses.overlaps
      exact ⟨p, second, first⟩

end Region

open Region

theorem checkOverlap_ok {added : Nat × Region} {j : Nat} {regions : List Region}
    (checks : checkOverlap added j regions = .ok ()) : ∀ prev ∈ regions, prev.Apart added.2 := by
  induction regions generalizing j with
  | nil => exact nofun
  | cons prev rest ih =>
    rw [checkOverlap] at checks
    split at checks
    · cases checks
    · split at checks
      · cases checks
      · exact forall_mem_cons.mpr
          ⟨⟨Bool.eq_false_iff.mpr ‹_›, Bool.eq_false_iff.mpr ‹_›⟩, ih checks⟩

theorem addRegions_ok {i : Nat} {regions accepted : List Region} {given : List (Point × Point)}
    (apart : regions.Pairwise Apart) (adds : addRegions i regions given = .ok accepted) :
    accepted.Pairwise Apart := by
  induction given generalizing i regions with
  | nil =>
    cases adds
    exact apart
  | cons corners rest ih =>
    obtain ⟨⟨⟩, checks, adds⟩ := bind_eq_ok adds
    refine ih (pairwise_append.mpr ⟨apart, pairwise_singleton _ _, ?_⟩) adds
    intro prev isPrev added isAdded
    rw [mem_singleton.mp isAdded]
    exact checkOverlap_ok checks prev isPrev

/-- **Overlapping regions.** The regions of an accepted list are disjoint but for their
borders if and only if no two of them cross. -/
theorem accepted_disjoint_iff (given : List (Point × Point)) (regions : List Region)
    (accepts : processFaultyRegions given = .ok regions) :
    regions.Pairwise (fun a b => ¬ a.Overlaps b) ↔
      regions.Pairwise (fun a b => ¬ (a.Crosses b ∨ b.Crosses a)) := by
  have apart := addRegions_ok Pairwise.nil accepts
  constructor
  · exact fun disjoint => apart.imp₂ (fun a b apart disjoint => apart.overlaps_iff.not.mp disjoint) disjoint
  · exact fun parallel => apart.imp₂ (fun a b apart crosses => apart.overlaps_iff.not.mpr crosses) parallel

theorem accepted_disjoint_iff_separate :
    [Region.ofCorners ⟨0, 0⟩ ⟨10, 10⟩, .ofCorners ⟨30, 5⟩ ⟨20, 0⟩].Pairwise
      (fun a b => ¬ a.Overlaps b) :=
  (accepted_disjoint_iff [(⟨0, 0⟩, ⟨10, 10⟩), (⟨30, 5⟩, ⟨20, 0⟩)] _ (by decide +kernel)).mpr
    (by decide +kernel)

/-- Two bars across each other are accepted. -/
theorem crossing_regions_accepted :
    processFaultyRegions [(⟨0, 40⟩, ⟨100, 60⟩), (⟨40, 0⟩, ⟨60, 100⟩)] =
        .ok [.ofCorners ⟨0, 40⟩ ⟨100, 60⟩, .ofCorners ⟨40, 0⟩ ⟨60, 100⟩] ∧
      (Region.ofCorners ⟨0, 40⟩ ⟨100, 60⟩).Overlaps (.ofCorners ⟨40, 0⟩ ⟨60, 100⟩) :=
  ⟨by decide +kernel, ⟨50, 50⟩, by decide +kernel, by decide +kernel⟩

end MagnetoX.Host.Bed
