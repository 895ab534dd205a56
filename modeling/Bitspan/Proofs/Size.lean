import Mathlib.Data.Int.Interval
import Mathlib.Data.Set.Card
import Bitspan.Proofs.Balance
import Bitspan.Proofs.Lattice
import Bitspan.Proofs.Linear

set_option autoImplicit false

/-!
# Sizes as numbers of values

The size of an interval, found by a subtraction in the wide type, is the number of values it
contains. Hull and intersection together have the size of the operands and of the gap between them,
and sums, differences and negations have the size that their operands determine.
-/

namespace Bitspan.Interval

variable {b : BoundType} {x y z : Interval b}

/-! ## Counting -/

theorem encard_values (x : Interval b) : x.values.encard = x.size := by
  have hvalues : x.values = Finset.Icc x.lower.val x.upper.val := by
    ext v
    rw [Finset.coe_Icc]
    rfl
  have hsize : x.upper.val + 1 - x.lower.val = x.upper.val - x.lower.val + 1 := by omega
  rw [hvalues, Set.encard_coe_eq_coe_finsetCard, Int.card_Icc, hsize]
  rfl

theorem image_val_contains (x : Interval b) :
    FixedInt.val '' {v : Bound b | x.contains v = true} = x.values :=
  Set.ext fun _ => mem_iff_exists_contains.symm

/-- No two values of the type are the same integer, so their number is that of the members. -/
theorem encard_contains (x : Interval b) :
    {v : Bound b | x.contains v = true}.encard = x.size := by
  have hinj : Function.Injective (FixedInt.val : Bound b → ℤ) := fun _ _ => FixedInt.ext
  rw [← encard_values, ← image_val_contains, hinj.encard_image]

theorem isEmpty_iff_contains_none : x.isEmpty = true ↔ ∀ v, x.contains v = false := by
  rw [isEmpty, beq_iff_eq, ← ENat.natCast_inj, ← encard_contains, Nat.cast_zero, Set.encard_eq_zero,
    Set.eq_empty_iff_forall_notMem]
  simp only [Set.mem_ofPred_eq, Bool.not_eq_true]

theorem isSingleton_iff_contains_one : x.isSingleton = true ↔ ∃! v, x.contains v = true := by
  rw [isSingleton, beq_iff_eq, ← ENat.natCast_inj, ← encard_contains, Nat.cast_one,
    Set.encard_eq_one]
  simp only [Set.eq_singleton_iff_unique_mem, Set.mem_ofPred_eq]
  rfl

/-! ## Hulls and intersections -/

/-- The number of integers that lie between the two intervals. -/
def gap (x y : Interval b) : ℕ :=
  (max x.lower.val y.lower.val - min x.upper.val y.upper.val - 1).toNat

theorem gap_eq_zero_iff :
    x.gap y = 0 ↔ max x.lower.val y.lower.val ≤ min x.upper.val y.upper.val + 1 := by
  unfold gap
  omega

theorem size_hull (hx : x.isEmpty = false) :
    ((x.hull y).size : ℤ) =
      max x.upper.val y.upper.val - min x.lower.val y.lower.val + 1 := by
  rw [cast_size (hull_isEmpty_eq_false hx), lower_hull, upper_hull, FixedInt.val_min,
    FixedInt.val_max]

theorem size_intersection (x y : Interval b) :
    (x.intersection y).size =
      (min x.upper.val y.upper.val - max x.lower.val y.lower.val + 1).toNat := by
  rw [intersection_eq_ite]
  split
  · change 0 = _
    omega
  · rw [size, FixedInt.val_min, FixedInt.val_max]

/-- Apart from the gap, which the hull fills, no value is counted on one side alone. -/
theorem size_hull_add_size_intersection (hx : x.isEmpty = false) (hy : y.isEmpty = false) :
    (x.hull y).size + (x.intersection y).size = x.size + y.size + x.gap y := by
  have hhull := size_hull (y := y) hx
  have hinter := size_intersection x y
  have hxs := cast_size hx
  have hys := cast_size hy
  unfold gap
  omega

/-! ## Sums -/

theorem size_of_distances (hx : x.isEmpty = false) (hy : y.isEmpty = false)
    (h : z.upper.val - z.lower.val =
      (x.upper.val - x.lower.val) + (y.upper.val - y.lower.val)) :
    z.size + 1 = x.size + y.size := by
  rw [isEmpty_eq_false_iff] at hx hy
  unfold size
  omega

theorem size_add (hx : x.isEmpty = false) (hy : y.isEmpty = false) (h : x.add y = .ok z) :
    z.size + 1 = x.size + y.size := by
  obtain ⟨hl, hu⟩ := add_eq_ok_iff.1 h
  apply size_of_distances hx hy
  omega

theorem size_sub (hx : x.isEmpty = false) (hy : y.isEmpty = false) (h : x.sub y = .ok z) :
    z.size + 1 = x.size + y.size := by
  obtain ⟨hl, hu⟩ := sub_eq_ok_iff.1 h
  apply size_of_distances hx hy
  omega

theorem size_neg (h : x.neg = .ok z) : z.size = x.size := by
  obtain ⟨hl, hu⟩ := neg_eq_ok_iff.1 h
  unfold size
  omega

/-- The size counts the values of the type that an interval contains, up to all of them. It measures
hulls, intersections, sums, differences and negations of intervals with members. -/
theorem size_counts_values (x : Interval b) :
    {v : Bound b | x.contains v = true}.encard = x.size ∧ x.size ≤ 2 ^ b.bits ∧
    (x.isEmpty = false → ∃ s, x.wideSize = .ok s ∧ s.val = x.size) ∧
    (x.isEmpty = true ↔ ∀ v, x.contains v = false) ∧
    (x.isSingleton = true ↔ ∃! v, x.contains v = true) ∧
    ∀ y : Interval b, x.isEmpty = false → y.isEmpty = false →
      (x ⊆ x.hull y ∧ y ⊆ x.hull y ∧ ∀ w, x ⊆ w → y ⊆ w → x.hull y ⊆ w) ∧
      x.size + y.size ≤ (x.hull y).size + (x.intersection y).size ∧
      ((x.hull y).size + (x.intersection y).size = x.size + y.size ↔
        max x.lower.val y.lower.val ≤ min x.upper.val y.upper.val + 1) ∧
      (∀ z, x.add y = .ok z → z.size + 1 = x.size + y.size) ∧
      (∀ z, x.sub y = .ok z → z.size + 1 = x.size + y.size) ∧
      ∀ z, x.neg = .ok z → z.size = x.size := by
  refine ⟨encard_contains x, size_le_two_pow_bits x, exists_wideSize_eq_size,
    isEmpty_iff_contains_none, isSingleton_iff_contains_one, ?_⟩
  intro y hx hy
  have hmeasure := size_hull_add_size_intersection hx hy
  refine ⟨⟨fun _ => mem_hull_left, fun _ => mem_hull_right, fun _ => hull_subset hx hy⟩, ?_, ?_,
    fun _ => size_add hx hy, fun _ => size_sub hx hy, fun _ => size_neg⟩
  · rw [hmeasure]
    exact Nat.le_add_right _ _
  · rw [hmeasure, Nat.add_eq_left, gap_eq_zero_iff]

theorem size_counts_values_widest :
    (∃ s, (between (-2 ^ 63) (2 ^ 63 - 1) : Interval .int64).wideSize = .ok s ∧ s.val = 2 ^ 64) ∧
    {v | (between (-2 ^ 63) (2 ^ 63 - 1) : Interval .int64).contains v = true}.encard = 2 ^ 64 ∧
    (between (-8) 9 : Interval .int8).size + (empty : Interval .int8).size ≠
      (between (-8) 2 : Interval .int8).size + (between 6 9 : Interval .int8).size ∧
    (between (-2) 11 : Interval .int8).size + 1 =
      (between (-8) 2 : Interval .int8).size + (between 6 9 : Interval .int8).size := by
  obtain ⟨hcount, -, hwide, -⟩ :=
    size_counts_values (between (-2 ^ 63) (2 ^ 63 - 1) : Interval .int64)
  obtain ⟨-, -, -, -, -, measures⟩ := size_counts_values (between (-8) 2 : Interval .int8)
  obtain ⟨-, -, hequal, hsum, -⟩ := measures (between 6 9) rfl rfl
  exact ⟨hwide rfl, hcount, mt hequal.1 (by decide), hsum (between (-2) 11) rfl⟩

end Bitspan.Interval
