import Bitspan.Proofs.Linear

set_option autoImplicit false

/-!
# The algebra of sums

Sums, differences and negations of intervals hold exactly the sums, differences and negations of
their members. They obey the laws of an ordered group as far as the bounds stay in the type, on
inverted operands too, since the laws are those of the bounds. A difference is no inverse of a sum:
`x - x` is a singleton only where `x` is.
-/

namespace Bitspan.Interval

variable {b : BoundType} {x y z p q w : Interval b}

/-! ## Laws -/

protected theorem add_comm (x y : Interval b) : x.add y = y.add x := by
  have bounds : ∀ u v : Bound b, u.add v = v.add u := fun u v =>
    congrArg (FixedInt.fit .add) (Int.add_comm u.val v.val)
  rw [add, add, bounds x.lower, bounds x.upper]

/-- Where both inner sums fit, the outer ones have the same exact bounds. -/
protected theorem add_assoc (hp : x.add y = .ok p) (hq : y.add z = .ok q) : p.add z = x.add q := by
  obtain ⟨hpl, hpu⟩ := add_eq_ok_iff.1 hp
  obtain ⟨hql, hqu⟩ := add_eq_ok_iff.1 hq
  have lower : p.lower.add z.lower = x.lower.add q.lower := by
    rw [FixedInt.add, FixedInt.add, hpl, hql, Int.add_assoc]
  have upper : p.upper.add z.upper = x.upper.add q.upper := by
    rw [FixedInt.add, FixedInt.add, hpu, hqu, Int.add_assoc]
  rw [add, add, lower, upper]

theorem sub_eq_ok_iff_add_neg (hw : y.neg = .ok w) : x.sub y = .ok p ↔ x.add w = .ok p := by
  obtain ⟨hl, hu⟩ := neg_eq_ok_iff.1 hw
  rw [sub_eq_ok_iff, add_eq_ok_iff, hl, hu, Int.sub_eq_add_neg, Int.sub_eq_add_neg]

protected theorem neg_neg (hw : x.neg = .ok w) : w.neg = .ok x := by
  obtain ⟨hl, hu⟩ := neg_eq_ok_iff.1 hw
  rw [neg_eq_ok_iff, hl, hu, Int.neg_neg, Int.neg_neg]
  exact ⟨rfl, rfl⟩

protected theorem neg_sub (hp : x.sub y = .ok p) : p.neg = .ok q ↔ y.sub x = .ok q := by
  obtain ⟨hl, hu⟩ := sub_eq_ok_iff.1 hp
  rw [neg_eq_ok_iff, sub_eq_ok_iff, hl, hu, Int.neg_sub, Int.neg_sub]

/-! ## Exact images -/

/-- An integer between the extreme sums is the sum of the least member of `x` that leaves no more
than `y` can hold, and of what it leaves. -/
theorem image2_add_values (hx : x.isEmpty = false) (hy : y.isEmpty = false) :
    Set.image2 (· + ·) x.values y.values =
      {v | x.lower.val + y.lower.val ≤ v ∧ v ≤ x.upper.val + y.upper.val} := by
  rw [isEmpty_eq_false_iff] at hx hy
  ext v
  constructor
  · rintro ⟨a, ha, c, hc, rfl⟩
    exact ⟨Int.add_le_add ha.1 hc.1, Int.add_le_add ha.2 hc.2⟩
  · rintro ⟨hl, hu⟩
    obtain ⟨a, ha⟩ : ∃ a, a = max x.lower.val (v - y.upper.val) := ⟨_, rfl⟩
    exact ⟨a, ⟨by omega, by omega⟩, v - a, ⟨by omega, by omega⟩, add_sub_cancel a v⟩

theorem image2_sub_values (hx : x.isEmpty = false) (hy : y.isEmpty = false) :
    Set.image2 (· - ·) x.values y.values =
      {v | x.lower.val - y.upper.val ≤ v ∧ v ≤ x.upper.val - y.lower.val} := by
  rw [isEmpty_eq_false_iff] at hx hy
  ext v
  constructor
  · rintro ⟨a, ha, c, hc, rfl⟩
    exact ⟨Int.sub_le_sub ha.1 hc.2, Int.sub_le_sub ha.2 hc.1⟩
  · rintro ⟨hl, hu⟩
    obtain ⟨a, ha⟩ : ∃ a, a = max x.lower.val (v + y.lower.val) := ⟨_, rfl⟩
    exact ⟨a, ⟨by omega, by omega⟩, a - v, ⟨by omega, by omega⟩, Int.sub_sub_self a v⟩

theorem image_neg_values (x : Interval b) :
    (fun a => -a) '' x.values = {v | -x.upper.val ≤ v ∧ v ≤ -x.lower.val} := by
  ext v
  constructor
  · rintro ⟨a, ha, rfl⟩
    exact ⟨Int.neg_le_neg ha.2, Int.neg_le_neg ha.1⟩
  · rintro ⟨hl, hu⟩
    exact ⟨-v, ⟨Int.le_neg_of_le_neg hu, Int.neg_le_of_neg_le hl⟩, Int.neg_neg v⟩

theorem exactImage_add (hx : x.isEmpty = false) (hy : y.isEmpty = false) :
    ExactImage .add {v | ∃ a ∈ x, ∃ c ∈ y, a + c = v} (x.add y) :=
  (tightImage_add hx hy).exact (image2_add_values hx hy)

theorem exactImage_sub (hx : x.isEmpty = false) (hy : y.isEmpty = false) :
    ExactImage .subtract {v | ∃ a ∈ x, ∃ c ∈ y, a - c = v} (x.sub y) :=
  (tightImage_sub hx hy).exact (image2_sub_values hx hy)

theorem exactImage_neg (hx : x.isEmpty = false) :
    ExactImage .negate {v | ∃ a ∈ x, -a = v} x.neg :=
  (tightImage_neg hx).exact (image_neg_values x)

/-- Sums, differences and negations of intervals with members are exact, and for all intervals they
obey the laws of addition as far as no bound overflows. -/
theorem sums_exact_and_lawful (x y z : Interval b) :
    (x.isEmpty = false → y.isEmpty = false →
      ExactImage .add {v | ∃ a ∈ x, ∃ c ∈ y, a + c = v} (x.add y) ∧
      ExactImage .subtract {v | ∃ a ∈ x, ∃ c ∈ y, a - c = v} (x.sub y) ∧
      ExactImage .negate {v | ∃ a ∈ x, -a = v} x.neg) ∧
    x.add y = y.add x ∧
    (∀ p q, x.add y = .ok p → y.add z = .ok q → p.add z = x.add q) ∧
    (∀ w, y.neg = .ok w → ∀ p, x.sub y = .ok p ↔ x.add w = .ok p) ∧
    (∀ w, x.neg = .ok w → w.neg = .ok x) ∧
    (∀ p, x.sub y = .ok p → ∀ q, p.neg = .ok q ↔ y.sub x = .ok q) := by
  refine ⟨?_, Interval.add_comm x y, fun _ _ => Interval.add_assoc,
    fun _ hw _ => sub_eq_ok_iff_add_neg hw, fun _ => Interval.neg_neg,
    fun _ hp _ => Interval.neg_sub hp⟩
  intro hx hy
  exact ⟨exactImage_add hx hy, exactImage_sub hx hy, exactImage_neg hx⟩

theorem sums_exact_and_lawful_mixed_signs :
    (∀ v, v ∈ (between (-8) 10 : Interval .int8) ↔
      ∃ a ∈ (between (-3) 4 : Interval .int8), ∃ c ∈ (between (-5) 6 : Interval .int8),
        a + c = v) ∧
    (∃ a ∈ (between (-3) 100 : Interval .int8), ∃ c ∈ (between (-50) 6 : Interval .int8),
      ¬ BoundType.int8.intType.Fits (a - c)) ∧
    (between 5 (-5) : Interval .int8).sub (between 3 9) = .ok (between (-4) (-8)) ∧
    (between (-4) (-8) : Interval .int8).neg = (between 3 9).sub (between 5 (-5)) := by
  obtain ⟨sums, -⟩ :=
    sums_exact_and_lawful (between (-3) 4 : Interval .int8) (between (-5) 6) empty
  obtain ⟨overflows, -⟩ :=
    sums_exact_and_lawful (between (-3) 100 : Interval .int8) (between (-50) 6) empty
  obtain ⟨-, -, -, -, -, negated⟩ :=
    sums_exact_and_lawful (between 5 (-5) : Interval .int8) (between 3 9) empty
  have hsub : (between 5 (-5) : Interval .int8).sub (between 3 9) = .ok (between (-4) (-8)) := rfl
  have hneg : (between (-4) (-8) : Interval .int8).neg = .ok (between 8 4) := rfl
  obtain ⟨-, hfit⟩ := ((overflows rfl rfl).2.1.eq_error_iff (.overflow .subtract)).1 rfl
  obtain ⟨_, ⟨a, ha, c, hc, rfl⟩, hfit⟩ := hfit
  exact ⟨(sums rfl rfl).1.mem_iff rfl, ⟨a, ha, c, hc, hfit⟩, hsub,
    hneg.trans ((negated _ hsub _).1 hneg).symm⟩

end Bitspan.Interval
