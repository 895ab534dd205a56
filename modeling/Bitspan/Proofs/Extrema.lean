import Mathlib.Algebra.Order.Group.MinMax
import Mathlib.Order.Lattice
import Bitspan.Proofs.Lattice
import Bitspan.Proofs.Linear

set_option autoImplicit false

/-!
# The lattice of pointwise extrema

The maximum and the minimum of two intervals hold exactly the maxima and minima of their members.
They are taken bound by bound, so all intervals, the inverted ones too, form a distributive lattice
under them; it is the order of the bounds and not the inclusion of intervals. Together the two
extrema have the bounds of both operands, hence the same sum, and negation exchanges them.
-/

namespace Bitspan.Interval

variable {b : BoundType} {x y p q : Interval b} {v : ℤ}

/-! ## Exact images -/

/-- A member of `x` that is not below `y` is the greater one beside the last member of `y` up to
it. -/
theorem exists_max_eq (hy : y.isEmpty = false) (hv : v ∈ x) (hyv : y.lower.val ≤ v) :
    ∃ a ∈ x, ∃ c ∈ y, max a c = v := by
  have hyu := isEmpty_eq_false_iff.1 hy
  refine ⟨v, hv, min v y.upper.val, ?_, max_eq_left (min_le_left _ _)⟩
  exact ⟨le_min hyv hyu, min_le_right _ _⟩

theorem exists_min_eq (hy : y.isEmpty = false) (hv : v ∈ x) (hyv : v ≤ y.upper.val) :
    ∃ a ∈ x, ∃ c ∈ y, min a c = v := by
  have hyu := isEmpty_eq_false_iff.1 hy
  refine ⟨v, hv, max v y.lower.val, ?_, min_eq_left (le_max_left _ _)⟩
  exact ⟨le_max_right _ _, max_le hyv hyu⟩

theorem mem_max_iff (hx : x.isEmpty = false) (hy : y.isEmpty = false) :
    v ∈ max x y ↔ ∃ a ∈ x, ∃ c ∈ y, max a c = v := by
  constructor
  · intro hv
    rw [mem_def, lower_max, upper_max, FixedInt.val_max, FixedInt.val_max, max_le_iff,
      le_max_iff] at hv
    obtain ⟨⟨hxl, hyl⟩, hxu | hyu⟩ := hv
    · exact exists_max_eq hy ⟨hxl, hxu⟩ hyl
    · obtain ⟨c, hc, a, ha, rfl⟩ := exists_max_eq hx ⟨hyl, hyu⟩ hxl
      exact ⟨a, ha, c, hc, max_comm a c⟩
  · exact (max_encloses hx hy).mem v

theorem mem_min_iff (hx : x.isEmpty = false) (hy : y.isEmpty = false) :
    v ∈ min x y ↔ ∃ a ∈ x, ∃ c ∈ y, min a c = v := by
  constructor
  · intro hv
    rw [mem_def, lower_min, upper_min, FixedInt.val_min, FixedInt.val_min, le_min_iff,
      min_le_iff] at hv
    obtain ⟨hxl | hyl, hxu, hyu⟩ := hv
    · exact exists_min_eq hy ⟨hxl, hxu⟩ hyu
    · obtain ⟨c, hc, a, ha, rfl⟩ := exists_min_eq hx ⟨hyl, hyu⟩ hxu
      exact ⟨a, ha, c, hc, min_comm a c⟩
  · exact (min_encloses hx hy).mem v

/-! ## The order of the bounds -/

def bounds (x : Interval b) : ℤ × ℤ := (x.lower.val, x.upper.val)

theorem bounds_injective : Function.Injective (bounds : Interval b → ℤ × ℤ) := by
  intro x y h
  exact ext (congrArg Prod.fst h) (congrArg Prod.snd h)

theorem bounds_max (x y : Interval b) : (max x y).bounds = x.bounds ⊔ y.bounds :=
  Prod.ext (FixedInt.val_max _ _) (FixedInt.val_max _ _)

theorem bounds_min (x y : Interval b) : (min x y).bounds = x.bounds ⊓ y.bounds :=
  Prod.ext (FixedInt.val_min _ _) (FixedInt.val_min _ _)

/-- The lattice in which one interval is below another when both of its bounds are. -/
abbrev boundsLattice (b : BoundType) : DistribLattice (Interval b) :=
  letI : LE (Interval b) := ⟨fun x y => x.bounds ≤ y.bounds⟩
  letI : LT (Interval b) := ⟨fun x y => x ≤ y ∧ ¬ y ≤ x⟩
  bounds_injective.distribLattice bounds Iff.rfl lt_iff_le_not_ge bounds_max bounds_min

/-! ## Sums and negations of extrema -/

theorem max_add_min_eq (x y : Interval b) : (max x y).add (min x y) = x.add y := by
  have sums : ∀ u v : Bound b, (max u v).add (min u v) = u.add v := by
    intro u v
    rw [FixedInt.add, FixedInt.add, FixedInt.val_max, FixedInt.val_min, max_add_min]
  rw [add, add, lower_max, lower_min, upper_max, upper_min, sums, sums]

theorem neg_max_eq (hp : x.neg = .ok p) (hq : y.neg = .ok q) : (max x y).neg = .ok (min p q) := by
  obtain ⟨hpl, hpu⟩ := neg_eq_ok_iff.1 hp
  obtain ⟨hql, hqu⟩ := neg_eq_ok_iff.1 hq
  refine neg_eq_ok_iff.2 ⟨?_, ?_⟩
  · rw [lower_min, upper_max, FixedInt.val_min, FixedInt.val_max, hpl, hql, min_neg_neg]
  · rw [upper_min, lower_max, FixedInt.val_min, FixedInt.val_max, hpu, hqu, min_neg_neg]

/-- Between intervals with members the extrema are exact. For all intervals they obey the laws of a
distributive lattice, add up to the sum of the operands, with the same overflow, and are exchanged
by a negation that does not overflow. -/
theorem extrema_exact_and_lattice (x y z : Interval b) :
    (x.isEmpty = false → y.isEmpty = false → ∀ v,
      (v ∈ max x y ↔ ∃ a ∈ x, ∃ c ∈ y, max a c = v) ∧
      (v ∈ min x y ↔ ∃ a ∈ x, ∃ c ∈ y, min a c = v)) ∧
    (max x y = max y x ∧ min x y = min y x) ∧
    (max (max x y) z = max x (max y z) ∧ min (min x y) z = min x (min y z)) ∧
    (max x x = x ∧ min x x = x) ∧
    (max x (min x y) = x ∧ min x (max x y) = x) ∧
    (max x (min y z) = min (max x y) (max x z) ∧ min x (max y z) = max (min x y) (min x z)) ∧
    (max x y).add (min x y) = x.add y ∧
    ∀ p q, x.neg = .ok p → y.neg = .ok q → (max x y).neg = .ok (min p q) := by
  let lattice := boundsLattice b
  refine ⟨?_, ⟨Interval.max_comm x y, Interval.min_comm x y⟩, ⟨sup_assoc x y z, inf_assoc x y z⟩,
    ⟨sup_idem x, inf_idem x⟩, ⟨sup_inf_self, inf_sup_self⟩,
    ⟨sup_inf_left x y z, inf_sup_left x y z⟩, max_add_min_eq x y, fun _ _ => neg_max_eq⟩
  intro hx hy v
  exact ⟨mem_max_iff hx hy, mem_min_iff hx hy⟩

theorem extrema_exact_and_lattice_mixed_signs :
    (∀ v, v ∈ (between 2 10 : Interval .int8) ↔
      ∃ a ∈ (between (-3) 10 : Interval .int8), ∃ c ∈ (between 2 6 : Interval .int8),
        max a c = v) ∧
    (∀ v, v ∈ (between (-3) 6 : Interval .int8) ↔
      ∃ a ∈ (between (-3) 10 : Interval .int8), ∃ c ∈ (between 2 6 : Interval .int8),
        min a c = v) ∧
    (between 2 10 : Interval .int8).neg = .ok (min (between (-10) 3) (between (-6) (-2))) ∧
    (between 5 100 : Interval .int8).add (between (-9) 60) = .error (.overflow .add) ∧
    min (between 5 (-5)) (max (between 5 (-5)) (between 3 9)) =
      (between 5 (-5) : Interval .int8) := by
  obtain ⟨images, -, -, -, -, -, -, negated⟩ :=
    extrema_exact_and_lattice (between (-3) 10 : Interval .int8) (between 2 6) empty
  obtain ⟨-, -, -, -, -, -, sums, -⟩ :=
    extrema_exact_and_lattice (between 5 60 : Interval .int8) (between (-9) 100) empty
  obtain ⟨-, -, -, -, absorbed, -⟩ :=
    extrema_exact_and_lattice (between 5 (-5) : Interval .int8) (between 3 9) empty
  have values := images rfl rfl
  exact ⟨fun v => (values v).1, fun v => (values v).2, negated _ _ rfl rfl, sums.trans rfl,
    absorbed.2⟩

end Bitspan.Interval
