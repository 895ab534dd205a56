import Bitspan.Proofs.Lattice
import Bitspan.Proofs.ProductLaws
import Bitspan.Proofs.Remainder

set_option autoImplicit false

/-!
# Symmetric intervals

An interval is symmetric when negation leaves it as it is. The test for it negates the upper bound,
so it overflows exactly where that is the least value of the type, and no symmetric interval has
such an upper bound, since the lower one would not fit. The signed operators keep symmetry, on
inverted operands too because it is a property of the bounds. Only the intersection asks for
members: of the intervals without any it gives `[1,0]`, which is not symmetric.
-/

namespace Bitspan

variable {b : BoundType}

namespace Interval

/-- The lower bound is the mirror image of the upper one in zero. -/
def Symmetric (x : Interval b) : Prop := x.lower.val = -x.upper.val

instance (x : Interval b) : Decidable x.Symmetric :=
  inferInstanceAs (Decidable (x.lower.val = -x.upper.val))

variable {x y z : Interval b} {kx ky : Kind}

/-! ## The test -/

theorem isSymmetric_eq_error_iff {f : Fault} :
    x.isSymmetric = .error f ↔ f = .overflow .negate ∧ x.upper.val = b.intType.least := by
  rw [← not_fits_neg_iff, ← FixedInt.neg_eq_error_iff, isSymmetric, Checked.bind_eq_error_iff,
    or_iff_left]
  rintro ⟨_, _, h⟩
  cases h

theorem isSymmetric_eq_ok_iff {s : Bool} :
    x.isSymmetric = .ok s ↔ x.upper.val ≠ b.intType.least ∧ (s = true ↔ x.Symmetric) := by
  rw [Ne, ← not_fits_neg_iff, not_not, isSymmetric, Checked.bind_eq_ok_iff]
  constructor
  · rintro ⟨p, hp, hs⟩
    cases hs
    rw [FixedInt.neg_eq_ok_iff] at hp
    rw [decide_eq_true_iff, ← FixedInt.val_inj, hp]
    exact ⟨hp ▸ p.fits, Iff.rfl⟩
  · rintro ⟨hfit, hs⟩
    refine ⟨⟨_, hfit⟩, FixedInt.neg_eq_ok_iff.2 rfl, congrArg Except.ok ?_⟩
    rw [Bool.eq_iff_iff, hs, decide_eq_true_iff, ← FixedInt.val_inj]
    rfl

/-- The lower bound of a symmetric interval is the negation that the test computes. -/
theorem Symmetric.upper_ne_least (hx : x.Symmetric) : x.upper.val ≠ b.intType.least := by
  rw [Ne, ← not_fits_neg_iff, not_not, ← hx]
  exact x.lower.fits

theorem isSymmetric_iff : x.isSymmetric = .ok true ↔ x.Symmetric := by
  rw [isSymmetric_eq_ok_iff, and_iff_right_of_imp]
  · exact ⟨fun h => h.1 rfl, iff_of_true rfl⟩
  · exact fun h => Symmetric.upper_ne_least (h.1 rfl)

theorem neg_eq_self_iff : x.neg = .ok x ↔ x.Symmetric := by
  rw [neg_eq_ok_iff, Symmetric]
  omega

/-! ## Results of the operators -/

theorem symmetric_sub_self (h : x.sub x = .ok z) : z.Symmetric := by
  obtain ⟨hl, hu⟩ := sub_eq_ok_iff.1 h
  rw [Symmetric, hl, hu, Int.neg_sub]

theorem symmetric_modulo (h : (x.modulo y .signed).outcome = .ok z) : z.Symmetric :=
  (modulo_signed_eq_ok_iff.1 h).2.2.1

theorem exists_corners_of_mulSigned (h : x.mulSigned y = .ok z) :
    ∃ c : Corners b, z = c.span ∧
      c.lowerLower.val = x.lower.val * y.lower.val ∧
      c.lowerUpper.val = x.lower.val * y.upper.val ∧
      c.upperLower.val = x.upper.val * y.lower.val ∧
      c.upperUpper.val = x.upper.val * y.upper.val := by
  simp only [mulSigned, Corners.of, Checked.bind_eq_ok_iff, FixedInt.mul_eq_ok_iff] at h
  obtain ⟨c, ⟨ll, hll, lu, hlu, ul, hul, uu, huu, hc⟩, hz⟩ := h
  cases hc
  cases hz
  exact ⟨_, rfl, hll, hlu, hul, huu⟩

/-- Each product with the lower bound of `x` is the mirror image of one with the upper bound, so the
least of the four is that of the greatest. -/
theorem Symmetric.mul (hx : x.Symmetric) (hkx : kx ≠ .unsigned) (hky : ky ≠ .unsigned)
    (h : x.mul y kx ky = .ok z) : z.Symmetric := by
  rw [mul_of_signed hkx hky] at h
  obtain ⟨c, rfl, hll, hlu, hul, huu⟩ := exists_corners_of_mulSigned h
  rw [hx, Int.neg_mul, ← hul] at hll
  rw [hx, Int.neg_mul, ← huu] at hlu
  simp only [Symmetric, Corners.span, Corners.least, Corners.greatest, FixedInt.val_min,
    FixedInt.val_max, hll, hlu]
  omega

theorem Symmetric.add (hx : x.Symmetric) (hy : y.Symmetric) (h : x.add y = .ok z) :
    z.Symmetric := by
  obtain ⟨hl, hu⟩ := add_eq_ok_iff.1 h
  rw [Symmetric, hl, hu, hx, hy, Int.neg_add]

theorem Symmetric.sub (hx : x.Symmetric) (hy : y.Symmetric) (h : x.sub y = .ok z) :
    z.Symmetric := by
  obtain ⟨hl, hu⟩ := sub_eq_ok_iff.1 h
  rw [Symmetric, hl, hu, hx, hy]
  omega

theorem Symmetric.neg (hx : x.Symmetric) (h : x.neg = .ok z) : z.Symmetric := by
  rw [neg_eq_self_iff.2 hx, Except.ok.injEq] at h
  rwa [← h]

theorem Symmetric.hull (hx : x.Symmetric) (hy : y.Symmetric) : (x.hull y).Symmetric := by
  rw [Symmetric, lower_hull, upper_hull, FixedInt.val_min, FixedInt.val_max, hx, hy]
  omega

/-- Symmetric intervals with members all hold zero, so they are never disjoint. -/
theorem Symmetric.intersection_iff (hx : x.Symmetric) (hy : y.Symmetric) :
    (x.intersection y).Symmetric ↔ x.isEmpty = false ∧ y.isEmpty = false := by
  rw [Symmetric] at hx hy
  rw [Symmetric, intersection_eq_ite, isEmpty_eq_false_iff, isEmpty_eq_false_iff]
  split
  · refine iff_of_false (show ¬ (1 : ℤ) = -0 by decide) ?_
    omega
  · rw [FixedInt.val_max, FixedInt.val_min]
    omega

/-! ## Main result -/

/-- The test faults for the least upper bound alone and else tells whether negation leaves the
interval as it is. Whatever the signed operators give from symmetric operands passes it, and so do
the remainders of any operands and the difference of an interval with itself. -/
theorem symmetry_fixed_by_neg_and_kept (x y : Interval b) :
    (∀ f, x.isSymmetric = .error f ↔
      f = .overflow .negate ∧ x.upper.val = b.intType.least) ∧
    (x.upper.val ≠ b.intType.least →
      ∃ s, x.isSymmetric = .ok s ∧ (s = true ↔ x.neg = .ok x)) ∧
    (∀ z, x.sub x = .ok z → z.isSymmetric = .ok true) ∧
    (∀ z, (x.modulo y .signed).outcome = .ok z → z.isSymmetric = .ok true) ∧
    (x.isSymmetric = .ok true →
      ∀ kx ky : Kind, kx.inSignedFamily = true → ky.inSignedFamily = true →
        ∀ z, x.mul y kx ky = .ok z → z.isSymmetric = .ok true) ∧
    (x.isSymmetric = .ok true → y.isSymmetric = .ok true →
      (∀ z, x.add y = .ok z → z.isSymmetric = .ok true) ∧
      (∀ z, x.sub y = .ok z → z.isSymmetric = .ok true) ∧
      (∀ z, x.neg = .ok z → z.isSymmetric = .ok true) ∧
      (x.hull y).isSymmetric = .ok true ∧
      ((x.intersection y).isSymmetric = .ok true ↔ x.isEmpty = false ∧ y.isEmpty = false)) := by
  simp only [isSymmetric_iff, neg_eq_self_iff, Kind.inSignedFamily_iff]
  refine ⟨fun _ => isSymmetric_eq_error_iff, ?_, fun _ => symmetric_sub_self,
    fun _ => symmetric_modulo, fun hx _ _ hkx hky _ => hx.mul hkx hky, ?_⟩
  · intro hu
    exact ⟨decide x.Symmetric, isSymmetric_eq_ok_iff.2 ⟨hu, decide_eq_true_iff⟩, decide_eq_true_iff⟩
  · intro hx hy
    exact ⟨fun _ => hx.add hy, fun _ => hx.sub hy, fun _ => hx.neg, hx.hull hy,
      hx.intersection_iff hy⟩

theorem symmetry_fixed_by_neg_and_kept_mixed_signs :
    (between (-5) 5 : Interval .int8).neg = .ok (between (-5) 5) ∧
    (between (-5) 5 : Interval .int8).mul (between 3 (-7)) .signed .signedNegative =
      .ok (between (-35) 35) ∧
    (between (-35) 35 : Interval .int8).isSymmetric = .ok true ∧
    (between 3 (-3) : Interval .int8).isSymmetric = .ok true ∧
    ((between (-5) 5 : Interval .int8).intersection (between 3 (-3))).isSymmetric ≠ .ok true ∧
    (between (-5) (-128) : Interval .int8).isSymmetric = .error (.overflow .negate) := by
  obtain ⟨-, fixed, -, -, products, -⟩ :=
    symmetry_fixed_by_neg_and_kept (between (-5) 5 : Interval .int8) (between 3 (-7))
  obtain ⟨-, -, -, -, -, kept⟩ :=
    symmetry_fixed_by_neg_and_kept (between (-5) 5 : Interval .int8) (between 3 (-3))
  obtain ⟨faults, -⟩ :=
    symmetry_fixed_by_neg_and_kept (between (-5) (-128) : Interval .int8) (between 3 (-3))
  have hx : (between (-5) 5 : Interval .int8).isSymmetric = .ok true := rfl
  have hmul : (between (-5) 5 : Interval .int8).mul (between 3 (-7)) .signed .signedNegative =
      .ok (between (-35) 35) := rfl
  obtain ⟨s, hs, hneg⟩ := fixed (by decide)
  rw [hx] at hs
  cases hs
  obtain ⟨-, -, -, -, common⟩ := kept hx rfl
  exact ⟨hneg.1 rfl, hmul, products hx _ _ rfl rfl _ hmul, rfl,
    fun h => absurd (common.1 h).2 (by decide), (faults _).2 ⟨rfl, rfl⟩⟩

end Interval

end Bitspan
