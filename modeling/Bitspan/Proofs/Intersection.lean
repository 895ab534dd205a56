import Bitspan.Proofs.Lattice

set_option autoImplicit false

/-!
# Canonical intersections

Every inverted pair stands for no integer, and of all these pairs an intersection is only ever
`[1,0]`. Intervals of that sort are equal as soon as they have the same members, so the laws of
intersections are those of conjunctions, whatever the operands.
-/

namespace Bitspan.Interval

variable {b : BoundType} {x y : Interval b}

/-- Of the intervals with the same members the one that intersections give. -/
def Canonical (x : Interval b) : Prop := x.lower ≤ x.upper ∨ x = empty

theorem canonical_of_nonempty (hx : x.isEmpty = false) : x.Canonical :=
  .inl (isEmpty_eq_false_iff.1 hx)

theorem Canonical.eq_of_mem_iff (hx : x.Canonical) (hy : y.Canonical) (h : ∀ v, v ∈ x ↔ v ∈ y) :
    x = y := by
  rcases hx with hx | rfl <;> rcases hy with hy | rfl
  · have hxy := (subset_iff (isEmpty_eq_false_iff.2 hx)).1 fun v => (h v).1
    have hyx := (subset_iff (isEmpty_eq_false_iff.2 hy)).1 fun v => (h v).2
    exact ext (le_antisymm hyx.1 hxy.1) (le_antisymm hxy.2 hyx.2)
  · exact absurd ((h _).1 ⟨le_rfl, hx⟩) (not_mem_empty _)
  · exact absurd ((h _).2 ⟨le_rfl, hy⟩) (not_mem_empty _)
  · rfl

theorem canonical_intersection (x y : Interval b) : (x.intersection y).Canonical := by
  rw [intersection_eq_ite]
  split
  · exact .inr rfl
  · left
    rw [FixedInt.le_def, FixedInt.val_max, FixedInt.val_min]
    omega

theorem contains_intersection (x y : Interval b) (v : Bound b) :
    (x.intersection y).contains v = (x.contains v && y.contains v) := by
  rw [Bool.eq_iff_iff, Bool.and_eq_true, contains_iff, contains_iff, contains_iff,
    mem_intersection_iff]

theorem intersection_comm (x y : Interval b) : x.intersection y = y.intersection x := by
  apply (canonical_intersection x y).eq_of_mem_iff (canonical_intersection y x)
  intro v
  rw [mem_intersection_iff, mem_intersection_iff, and_comm]

theorem intersection_assoc (x y z : Interval b) :
    (x.intersection y).intersection z = x.intersection (y.intersection z) := by
  apply (canonical_intersection _ z).eq_of_mem_iff (canonical_intersection x _)
  intro v
  simp only [mem_intersection_iff, and_assoc]

theorem intersection_self (x : Interval b) :
    x.intersection x = if x.isEmpty then empty else x := by
  split
  · rename_i hx
    exact intersection_of_empty (.inl hx)
  · rename_i hx
    rw [Bool.not_eq_true] at hx
    apply (canonical_intersection x x).eq_of_mem_iff (canonical_of_nonempty hx)
    intro v
    rw [mem_intersection_iff, and_self]

/-- An intersection holds the common members, is not inverted or else `[1,0]`, and so obeys the laws
of intersections of sets as an equation of bounds. -/
theorem intersection_exact_and_canonical (x y z : Interval b) :
    (∀ v, (x.intersection y).contains v = (x.contains v && y.contains v)) ∧
    ((x.intersection y).lower ≤ (x.intersection y).upper ∨ x.intersection y = ⟨1, 0⟩) ∧
    x.intersection y = y.intersection x ∧
    (x.intersection y).intersection z = x.intersection (y.intersection z) ∧
    x.intersection x = if x.isEmpty then ⟨1, 0⟩ else x :=
  ⟨contains_intersection x y, canonical_intersection x y, intersection_comm x y,
    intersection_assoc x y z, intersection_self x⟩

/-- The bounds of the inverted pair are not apart from those of the other operand. -/
example : (between 5 3 : Interval .int8).intersection (between 0 10) = ⟨1, 0⟩ := by decide

end Bitspan.Interval
