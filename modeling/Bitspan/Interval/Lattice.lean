import Bitspan.Interval.Basic

set_option autoImplicit false

/-!
# Joins, meets, pointwise extrema and regions

These operators only select among the bounds of their operands, so none can fail. The hull and the
operators defined by it do not look whether an operand is empty; the intersection does, and gives
the one empty interval `[1,0]` when no integer is common.

A region is an interval whose emptiness is a constructor, so that all inverted intervals become one
value. Going to a region and back replaces an interval by the representative of its set of values.
-/

namespace Bitspan

namespace Interval

variable {b : BoundType}

/-- The bounds cut to the range from `lo` to `hi`. The result may be inverted. -/
def clamp (x : Interval b) (lo hi : Bound b) : Interval b :=
  ⟨max x.lower lo, min x.upper hi⟩

def disjoint (x y : Interval b) : Bool := x.upper < y.lower ∨ y.upper < x.lower

def intersection (x y : Interval b) : Interval b :=
  if x.isEmpty || y.isEmpty || x.disjoint y then empty
  else ⟨max x.lower y.lower, min x.upper y.upper⟩

def hull (x y : Interval b) : Interval b :=
  ⟨min x.lower y.lower, max x.upper y.upper⟩

def union (x y : Interval b) : Interval b := x.hull y

/-- The values of a conditional that may take either branch. -/
def mux (x y : Interval b) : Interval b := x.hull y

/-- The maximum of a value of each operand. -/
instance : Max (Interval b) := ⟨fun x y => ⟨max x.lower y.lower, max x.upper y.upper⟩⟩

/-- The minimum of a value of each operand. -/
instance : Min (Interval b) := ⟨fun x y => ⟨min x.lower y.lower, min x.upper y.upper⟩⟩

@[simp] theorem lower_max (x y : Interval b) : (max x y).lower = max x.lower y.lower := rfl
@[simp] theorem upper_max (x y : Interval b) : (max x y).upper = max x.upper y.upper := rfl
@[simp] theorem lower_min (x y : Interval b) : (min x y).lower = min x.lower y.lower := rfl
@[simp] theorem upper_min (x y : Interval b) : (min x y).upper = min x.upper y.upper := rfl

@[simp] theorem lower_hull (x y : Interval b) : (x.hull y).lower = min x.lower y.lower := rfl
@[simp] theorem upper_hull (x y : Interval b) : (x.hull y).upper = max x.upper y.upper := rfl

theorem mem_hull_left {x y : Interval b} {v : Int} (h : v ∈ x) : v ∈ x.hull y := by
  rw [mem_def] at h ⊢
  simp only [lower_hull, upper_hull, FixedInt.val_min, FixedInt.val_max]
  omega

theorem mem_hull_right {x y : Interval b} {v : Int} (h : v ∈ y) : v ∈ x.hull y := by
  rw [mem_def] at h ⊢
  simp only [lower_hull, upper_hull, FixedInt.val_min, FixedInt.val_max]
  omega

theorem not_mem_empty (v : Int) : v ∉ (empty : Interval b) := by
  rw [mem_def]
  change ¬ ((1 : Int) ≤ v ∧ v ≤ 0)
  omega

theorem mem_clamp_iff {x : Interval b} {lo hi : Bound b} {v : Int} :
    v ∈ x.clamp lo hi ↔ v ∈ x ∧ lo.val ≤ v ∧ v ≤ hi.val := by
  simp only [mem_def, clamp, FixedInt.val_min, FixedInt.val_max]
  omega

/-! ## Bitwise operators -/

/-- No tight bounds are computed for bitwise results; the hull of the operands stands for them. -/
def bitAnd (x y : Interval b) : Interval b := x.hull y

def bitOr (x y : Interval b) : Interval b := x.hull y

def bitXor (x y : Interval b) : Interval b := x.hull y

end Interval

/-! ## Regions -/

inductive Region (b : BoundType) where
  | empty
  | bounds (lower upper : Bound b)
deriving DecidableEq

namespace Region

variable {b : BoundType}

/-- The bounds of a region are taken as they are, even if they are inverted. -/
def isEmpty : Region b → Bool
  | empty => true
  | bounds _ _ => false

def ofInterval (x : Interval b) : Region b :=
  if x.isEmpty then empty else bounds x.lower x.upper

def toInterval : Region b → Interval b
  | empty => .empty
  | bounds lower upper => ⟨lower, upper⟩

theorem ofInterval_of_empty {x : Interval b} (hx : x.isEmpty = true) : ofInterval x = empty :=
  if_pos hx

theorem ofInterval_of_nonempty {x : Interval b} (hx : x.isEmpty = false) :
    ofInterval x = bounds x.lower x.upper := by
  rw [ofInterval, hx]
  rfl

instance : ToString (Region b) :=
  ⟨fun
    | empty => "Empty"
    | bounds lower upper => s!"Bounds({lower},{upper})"⟩

end Region

/-- The representative of the intervals with the same values. -/
def Interval.normalize {b : BoundType} (x : Interval b) : Interval b :=
  (Region.ofInterval x).toInterval

end Bitspan
