import Bitspan.FixedInt.Checked

set_option autoImplicit false

/-!
# Intervals of fixed-width integers

An interval is a pair of bounds and stands for the integers between them, both included. An
inverted pair is allowed; it stands for no integer. The view of an interval is membership of an
integer, and `isEmpty_iff` and `isSingleton_iff` read the two size tests through the bounds. The
size is a number without a range; `size_eq_ite` says that the two steps that find it in the wide
type do not overflow.
-/

namespace Bitspan

structure Interval (b : BoundType) where
  lower : Bound b
  upper : Bound b
deriving DecidableEq

namespace Interval

variable {b : BoundType}

instance : Membership Int (Interval b) :=
  ⟨fun x v => x.lower.val ≤ v ∧ v ≤ x.upper.val⟩

theorem mem_def {x : Interval b} {v : Int} : v ∈ x ↔ x.lower.val ≤ v ∧ v ≤ x.upper.val := Iff.rfl

instance (v : Int) (x : Interval b) : Decidable (v ∈ x) :=
  inferInstanceAs (Decidable (x.lower.val ≤ v ∧ v ≤ x.upper.val))

theorem fits_of_mem {x : Interval b} {v : Int} (h : v ∈ x) : b.intType.Fits v :=
  x.lower.fits.of_between x.upper.fits h.1 h.2

@[ext] theorem ext {x y : Interval b} (hl : x.lower.val = y.lower.val)
    (hu : x.upper.val = y.upper.val) : x = y := by
  cases x
  cases y
  cases FixedInt.ext hl
  cases FixedInt.ext hu
  rfl

instance : ToString (Interval b) := ⟨fun x => s!"[{x.lower},{x.upper}]"⟩

def empty : Interval b := ⟨1, 0⟩

def singleton (v : Bound b) : Interval b := ⟨v, v⟩

/-- The number of integers in the interval. -/
def size (x : Interval b) : Nat := (x.upper.val - x.lower.val + 1).toNat

/-- The same number for a pair that is not inverted, counted in the wide type. -/
def wideSize (x : Interval b) : Checked (FixedInt .wide) := do
  let difference ← x.upper.widen.sub x.lower.widen
  difference.add 1

theorem exists_wideSize (x : Interval b) :
    ∃ s : FixedInt .wide, x.wideSize = .ok s ∧ s.val = x.upper.val - x.lower.val + 1 := by
  obtain ⟨hleast, hgreatest⟩ := b.wide_fits_sizes
  have hl := x.lower.fits
  have hu := x.upper.fits
  unfold IntType.Fits at hl hu
  have hdiff := hleast.of_between (v := x.upper.val - x.lower.val) hgreatest (by omega) (by omega)
  have hsize := hleast.of_between (v := x.upper.val - x.lower.val + 1) hgreatest (by omega)
    (by omega)
  refine ⟨⟨_, hsize⟩, ?_, rfl⟩
  rw [wideSize, FixedInt.sub, Bound.val_widen, Bound.val_widen, FixedInt.fit_of_fits hdiff]
  exact FixedInt.add_eq_ok_iff.2 rfl

/-- An inverted pair has no values, and those of any other pair are counted without overflow. -/
theorem size_eq_ite (x : Interval b) :
    ∃ s, x.wideSize = .ok s ∧ x.size = if x.upper < x.lower then 0 else s.val.toNat := by
  obtain ⟨s, hs, hval⟩ := x.exists_wideSize
  refine ⟨s, hs, ?_⟩
  rw [size, hval]
  split
  · rename_i h
    rw [FixedInt.lt_def] at h
    omega
  · rfl

def isEmpty (x : Interval b) : Bool := x.size == 0

def isSingleton (x : Interval b) : Bool := x.size == 1

def isPositive (x : Interval b) : Bool := 0 ≤ x.lower ∧ 0 ≤ x.upper

def isNegative (x : Interval b) : Bool := x.lower ≤ 0 ∧ x.upper ≤ 0

def contains (x : Interval b) (v : Bound b) : Bool := v.val ∈ x

theorem isEmpty_iff {x : Interval b} : x.isEmpty = true ↔ x.upper.val < x.lower.val := by
  unfold isEmpty size
  rw [beq_iff_eq]
  omega

theorem isEmpty_eq_false_iff {x : Interval b} : x.isEmpty = false ↔ x.lower.val ≤ x.upper.val := by
  rw [← Bool.not_eq_true, isEmpty_iff, Int.not_lt]

theorem isSingleton_iff {x : Interval b} : x.isSingleton = true ↔ x.lower = x.upper := by
  unfold isSingleton size
  rw [beq_iff_eq, ← FixedInt.val_inj]
  omega

theorem isEmpty_eq_false_iff_mem {x : Interval b} : x.isEmpty = false ↔ ∃ v, v ∈ x := by
  rw [isEmpty_eq_false_iff]
  constructor
  · intro h
    exact ⟨x.lower.val, Int.le_refl _, h⟩
  · rintro ⟨v, h⟩
    exact Int.le_trans h.1 h.2

theorem isPositive_iff {x : Interval b} :
    x.isPositive = true ↔ 0 ≤ x.lower.val ∧ 0 ≤ x.upper.val := by
  simp [isPositive, FixedInt.le_def]

theorem isNegative_iff {x : Interval b} :
    x.isNegative = true ↔ x.lower.val ≤ 0 ∧ x.upper.val ≤ 0 := by
  simp [isNegative, FixedInt.le_def]

theorem contains_iff {x : Interval b} {v : Bound b} : x.contains v = true ↔ v.val ∈ x := by
  simp [contains]

/-- Every member is a value of the type. -/
theorem mem_iff_exists_contains {x : Interval b} {v : Int} :
    v ∈ x ↔ ∃ p : Bound b, x.contains p = true ∧ p.val = v := by
  constructor
  · intro h
    exact ⟨⟨v, fits_of_mem h⟩, contains_iff.2 h, rfl⟩
  · rintro ⟨p, hp, rfl⟩
    exact contains_iff.1 hp

end Interval

end Bitspan
