import Bitspan.Proofs.Linear
import Bitspan.Proofs.Powers
import Bitspan.Proofs.Roots

set_option autoImplicit false

/-!
# Roots of squares and squares of roots

The magnitude of an integer is both roots of its square. So the root of a squared interval is that
interval, or its negation if it lies below zero, where squaring exchanges the bounds. In the other
order the bounds move outwards: the square of a root holds all that the root was taken of.
-/

namespace Bitspan

variable {b : BoundType}

theorem isFloorRoot_mul_self {r : ℤ} (h : 0 ≤ r) : IsFloorRoot (r * r) r :=
  isFloorRoot_iff.2 ⟨h, le_rfl, mul_self_lt_mul_self h (lt_add_one r)⟩

theorem isCeilRoot_mul_self {r : ℤ} (h : 0 ≤ r) : IsCeilRoot (r * r) r :=
  (isFloorRoot_mul_self h).isCeilRoot_of_eq rfl

theorem fits_neg_of_fits_mul_self {a : ℤ} (ha : a ≤ 0) (h : b.intType.Fits (a * a)) :
    b.intType.Fits (-a) := by
  have hself := Int.le_self_sq (-a)
  rw [neg_sq, sq] at hself
  exact b.intType.fits_zero.of_between h (neg_nonneg.2 ha) hself

namespace Interval

variable {x q w z : Interval b}

theorem square_bounds (h : (x.power 2).outcome = .ok q) :
    0 ≤ x.lower.val ∧ q.lower.val = x.lower.val * x.lower.val ∧
      q.upper.val = x.upper.val * x.upper.val ∨
    x.lower.val < 0 ∧ q.lower.val = x.upper.val * x.upper.val ∧
      q.upper.val = x.lower.val * x.lower.val := by
  simp only [← sq]
  rcases power_bounds_of_eq_ok h with ⟨hup, hbounds⟩ | ⟨⟨-, hl, -⟩, hbounds⟩
  · exact .inl ⟨hup.resolve_left (by decide), hbounds⟩
  · exact .inr ⟨hl, hbounds⟩

theorem sqrt_of_squares (hl : 0 ≤ w.lower.val) (hu : 0 ≤ w.upper.val)
    (hql : q.lower.val = w.lower.val * w.lower.val)
    (hqu : q.upper.val = w.upper.val * w.upper.val) : q.sqrt.outcome = .ok w := by
  rw [sqrt_eq_ok_iff, hql, hqu]
  exact ⟨isFloorRoot_mul_self hl, mul_self_nonneg _, isCeilRoot_mul_self hu⟩

theorem sqrt_square_of_nonneg (h : (x.power 2).outcome = .ok q) (hl : 0 ≤ x.lower.val)
    (hu : 0 ≤ x.upper.val) : q.sqrt.outcome = .ok x := by
  rcases square_bounds h with ⟨-, hql, hqu⟩ | ⟨hneg, -⟩
  · exact sqrt_of_squares hl hu hql hqu
  · exact absurd hl (not_le.2 hneg)

/-- A square that fits leaves room for the negation. -/
theorem exists_sqrt_square_of_neg (h : (x.power 2).outcome = .ok q) (hl : x.lower.val < 0)
    (hu : x.upper.val ≤ 0) : ∃ w, x.neg = .ok w ∧ q.sqrt.outcome = .ok w := by
  rcases square_bounds h with ⟨hnonneg, -⟩ | ⟨-, hql, hqu⟩
  · exact absurd hl (not_lt.2 hnonneg)
  have hlower : b.intType.Fits (-x.upper.val) := fits_neg_of_fits_mul_self hu (hql ▸ q.lower.fits)
  have hupper : b.intType.Fits (-x.lower.val) :=
    fits_neg_of_fits_mul_self hl.le (hqu ▸ q.upper.fits)
  refine ⟨⟨⟨_, hlower⟩, ⟨_, hupper⟩⟩, neg_eq_ok_iff.2 ⟨rfl, rfl⟩, ?_⟩
  apply sqrt_of_squares
  · exact neg_nonneg.2 hu
  · exact neg_nonneg.2 hl.le
  · rw [neg_mul_neg, hql]
  · rw [neg_mul_neg, hqu]

theorem subset_square_of_sqrt (hx : x.isEmpty = false) (hz : x.sqrt.outcome = .ok z)
    (hq : (z.power 2).outcome = .ok q) : x ⊆ q := by
  obtain ⟨hfloor, -, hceil⟩ := sqrt_eq_ok_iff.1 hz
  rcases square_bounds hq with ⟨-, hql, hqu⟩ | ⟨hneg, -⟩
  · rw [subset_iff hx, hql, hqu]
    exact ⟨hfloor.1, hceil.1.2⟩
  · exact absurd hfloor.nonneg (not_le.2 hneg)

/-- The root is exact and undoes the square, and squaring a root widens the interval. -/
theorem sqrt_exact_and_inverts_squares (x : Interval b) :
    (∀ e, x.sqrt.outcome = .error e ↔
      e = .rejected (.outsideDomain .sqrt) ∧ (x.lower.val < 0 ∨ x.upper.val < 0)) ∧
    (0 ≤ x.lower.val → 0 ≤ x.upper.val →
      ∃ z, x.sqrt.outcome = .ok z ∧ IsFloorRoot x.lower.val z.lower.val ∧
        IsCeilRoot x.upper.val z.upper.val) ∧
    (∀ q, (x.power 2).outcome = .ok q →
      (0 ≤ x.lower.val → 0 ≤ x.upper.val → q.sqrt.outcome = .ok x) ∧
      (x.lower.val < 0 → x.upper.val ≤ 0 → ∃ w, x.neg = .ok w ∧ q.sqrt.outcome = .ok w)) ∧
    (x.isPositive = true → x.isEmpty = false →
      ∃ z, x.sqrt.outcome = .ok z ∧
        ((z.power 2).Faultless → ∃ q, (z.power 2).outcome = .ok q ∧ x ⊆ q)) := by
  refine ⟨fun e => sqrt_eq_error_iff, exists_sqrt, ?_, ?_⟩
  · intro q hq
    exact ⟨sqrt_square_of_nonneg hq, exists_sqrt_square_of_neg hq⟩
  · intro hpos hx
    obtain ⟨hl, hu⟩ := isPositive_iff.1 hpos
    obtain ⟨z, hz, hfloor, -⟩ := exists_sqrt hl hu
    refine ⟨z, hz, fun hsafe => ?_⟩
    have hfolds : ¬ z.Folds 2 := fun h => absurd hfloor.nonneg (not_le.2 h.2.1)
    obtain ⟨q, hq⟩ := exists_power_of_faultless hfolds hsafe
    exact ⟨q, hq, subset_square_of_sqrt hx hz hq⟩

theorem sqrt_exact_and_inverts_squares_near_greatest :
    (∃ z : Interval .int8, (between 5 127).sqrt.outcome = .ok z ∧ IsFloorRoot 5 z.lower.val ∧
      IsCeilRoot 127 z.upper.val) ∧
    (between 49 121 : Interval .int8).sqrt.outcome = .ok (between 7 11) ∧
    (∃ w : Interval .int8, (between (-11) (-7)).neg = .ok w ∧
      (between 49 121).sqrt.outcome = .ok w) ∧
    (between 5 120 : Interval .int8) ⊆ between 4 121 := by
  obtain ⟨-, exact, -⟩ := sqrt_exact_and_inverts_squares (between 5 127 : Interval .int8)
  obtain ⟨-, -, inverts, -⟩ := sqrt_exact_and_inverts_squares (between 7 11 : Interval .int8)
  obtain ⟨-, -, negates, -⟩ := sqrt_exact_and_inverts_squares (between (-11) (-7) : Interval .int8)
  obtain ⟨-, -, -, widens⟩ := sqrt_exact_and_inverts_squares (between 5 120 : Interval .int8)
  obtain ⟨z, hz, hsquare⟩ := widens rfl rfl
  have hroot : (between 5 120 : Interval .int8).sqrt.outcome = .ok (between 2 11) := rfl
  rw [hroot] at hz
  cases hz
  obtain ⟨q, hq, hsub⟩ := hsquare nofun
  have hpower : ((between 2 11 : Interval .int8).power 2).outcome = .ok (between 4 121) := rfl
  rw [hpower] at hq
  cases hq
  exact ⟨exact (by decide) (by decide), (inverts (between 49 121) rfl).1 (by decide) (by decide),
    (negates (between 49 121) rfl).2 (by decide) (by decide), hsub⟩

end Interval

end Bitspan
