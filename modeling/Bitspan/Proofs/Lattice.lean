import Mathlib.Order.MinMax
import Bitspan.Interval.Lattice
import Bitspan.Proofs.Image

set_option autoImplicit false

/-!
# Joins, meets and pointwise extrema on members

The extrema of two intervals enclose the extrema of their members, a hull encloses the members of
both operands, and an intersection holds exactly the common ones. Parts of the operands give a part
of each of these results.
-/

namespace Bitspan.Interval

variable {b : BoundType} {x y : Interval b}

theorem max_encloses (hx : x.isEmpty = false) (hy : y.isEmpty = false) :
    (max x y).Encloses {r | ∃ a ∈ x, ∃ c ∈ y, max a c = r} := by
  have hxu := isEmpty_eq_false_iff.1 hx
  have hyu := isEmpty_eq_false_iff.1 hy
  constructor
  · rw [isEmpty_eq_false_iff, lower_max, upper_max, FixedInt.val_max, FixedInt.val_max]
    exact max_le_max hxu hyu
  · rintro _ ⟨a, ha, c, hc, rfl⟩
    rw [mem_def, lower_max, upper_max, FixedInt.val_max, FixedInt.val_max]
    exact ⟨max_le_max ha.1 hc.1, max_le_max ha.2 hc.2⟩

theorem min_encloses (hx : x.isEmpty = false) (hy : y.isEmpty = false) :
    (min x y).Encloses {r | ∃ a ∈ x, ∃ c ∈ y, min a c = r} := by
  have hxu := isEmpty_eq_false_iff.1 hx
  have hyu := isEmpty_eq_false_iff.1 hy
  constructor
  · rw [isEmpty_eq_false_iff, lower_min, upper_min, FixedInt.val_min, FixedInt.val_min]
    exact min_le_min hxu hyu
  · rintro _ ⟨a, ha, c, hc, rfl⟩
    rw [mem_def, lower_min, upper_min, FixedInt.val_min, FixedInt.val_min]
    exact ⟨min_le_min ha.1 hc.1, min_le_min ha.2 hc.2⟩

theorem hull_isEmpty_eq_false (hx : x.isEmpty = false) : (x.hull y).isEmpty = false :=
  isEmpty_eq_false_of_mem (mem_hull_left (lower_mem hx))

theorem hull_encloses (hx : x.isEmpty = false) :
    (x.hull y).Encloses {r | ∃ a ∈ x, ∃ c ∈ y, r = a ∨ r = c} := by
  refine ⟨hull_isEmpty_eq_false hx, ?_⟩
  rintro r ⟨a, ha, c, hc, rfl | rfl⟩
  · exact mem_hull_left ha
  · exact mem_hull_right hc

protected theorem max_comm (x y : Interval b) : max x y = max y x := by
  apply ext
  · simp only [lower_max, FixedInt.val_max, max_comm]
  · simp only [upper_max, FixedInt.val_max, max_comm]

protected theorem min_comm (x y : Interval b) : min x y = min y x := by
  apply ext
  · simp only [lower_min, FixedInt.val_min, min_comm]
  · simp only [upper_min, FixedInt.val_min, min_comm]

theorem hull_comm (x y : Interval b) : x.hull y = y.hull x := by
  apply ext
  · simp only [lower_hull, FixedInt.val_min, min_comm]
  · simp only [upper_hull, FixedInt.val_max, max_comm]

theorem max_hull (x y z : Interval b) : max (x.hull y) z = (max x z).hull (max y z) := by
  apply ext
  · simp only [lower_max, lower_hull, FixedInt.val_max, FixedInt.val_min, max_min_distrib_right]
  · simp only [upper_max, upper_hull, FixedInt.val_max]
    exact sup_sup_distrib_right _ _ _

theorem min_hull (x y z : Interval b) : min (x.hull y) z = (min x z).hull (min y z) := by
  apply ext
  · simp only [lower_min, lower_hull, FixedInt.val_min]
    exact inf_inf_distrib_right _ _ _
  · simp only [upper_min, upper_hull, FixedInt.val_min, FixedInt.val_max, min_max_distrib_right]

theorem hull_hull (x y z : Interval b) : (x.hull y).hull z = (x.hull z).hull (y.hull z) := by
  apply ext
  · simp only [lower_hull, FixedInt.val_min]
    exact inf_inf_distrib_right _ _ _
  · simp only [upper_hull, FixedInt.val_max]
    exact sup_sup_distrib_right _ _ _

/-- The three guards of an intersection together catch the bounds that would cross. -/
theorem intersection_guards_iff :
    (x.isEmpty || y.isEmpty || x.disjoint y) = true ↔
      min x.upper.val y.upper.val < max x.lower.val y.lower.val := by
  simp only [Bool.or_eq_true, isEmpty_iff, disjoint, decide_eq_true_iff, FixedInt.lt_def]
  omega

theorem intersection_eq_ite (x y : Interval b) :
    x.intersection y =
      if min x.upper.val y.upper.val < max x.lower.val y.lower.val then empty
      else ⟨max x.lower y.lower, min x.upper y.upper⟩ :=
  if_congr intersection_guards_iff rfl rfl

theorem mem_intersection_iff {v : ℤ} : v ∈ x.intersection y ↔ v ∈ x ∧ v ∈ y := by
  rw [intersection_eq_ite]
  split
  · refine iff_of_false (not_mem_empty v) ?_
    rw [mem_def, mem_def]
    omega
  · simp only [mem_def, FixedInt.val_max, FixedInt.val_min]
    omega

theorem intersection_of_empty (h : x.isEmpty = true ∨ y.isEmpty = true) :
    x.intersection y = empty := by
  rw [← Bool.or_eq_true] at h
  simp [intersection, h]

theorem intersection_mono {w v : Interval b} (hxw : x ⊆ w) (hyv : y ⊆ v) :
    x.intersection y ⊆ w.intersection v := by
  intro a ha
  rw [mem_intersection_iff] at ha ⊢
  exact ⟨hxw a ha.1, hyv a ha.2⟩

theorem max_mono {w v : Interval b} (hx : x.isEmpty = false) (hy : y.isEmpty = false)
    (hxw : x ⊆ w) (hyv : y ⊆ v) : max x y ⊆ max w v := by
  have hxs := (subset_iff hx).1 hxw
  have hys := (subset_iff hy).1 hyv
  rw [subset_iff (max_encloses hx hy).nonempty]
  simp only [lower_max, upper_max, FixedInt.val_max]
  omega

theorem min_mono {w v : Interval b} (hx : x.isEmpty = false) (hy : y.isEmpty = false)
    (hxw : x ⊆ w) (hyv : y ⊆ v) : min x y ⊆ min w v := by
  have hxs := (subset_iff hx).1 hxw
  have hys := (subset_iff hy).1 hyv
  rw [subset_iff (min_encloses hx hy).nonempty]
  simp only [lower_min, upper_min, FixedInt.val_min]
  omega

/-- The hull is the least interval that holds both operands. -/
theorem hull_subset {w : Interval b} (hx : x.isEmpty = false) (hy : y.isEmpty = false)
    (hxw : x ⊆ w) (hyw : y ⊆ w) : x.hull y ⊆ w := by
  have hxs := (subset_iff hx).1 hxw
  have hys := (subset_iff hy).1 hyw
  rw [subset_iff (hull_isEmpty_eq_false hx)]
  simp only [lower_hull, upper_hull, FixedInt.val_min, FixedInt.val_max]
  omega

theorem hull_mono {w v : Interval b} (hx : x.isEmpty = false) (hy : y.isEmpty = false)
    (hxw : x ⊆ w) (hyv : y ⊆ v) : x.hull y ⊆ w.hull v := by
  apply hull_subset hx hy
  · intro a ha
    exact mem_hull_left (hxw a ha)
  · intro a ha
    exact mem_hull_right (hyv a ha)

end Bitspan.Interval
