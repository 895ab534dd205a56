import Mathlib.Algebra.Order.Ring.Abs
import Bitspan.Interval.Arithmetic
import Bitspan.Proofs.Image

set_option autoImplicit false

/-!
# Exact square roots

The two roots of a value that is not negative are found without a fault: the square of the floor
root is at most the value, and so is the floor root plus one where the root is not exact. Both
roots grow with the value, which is all that `sqrt` rests on.
-/

namespace Bitspan

variable {b : BoundType}

/-- The greatest integer whose square is at most `v`. -/
def IsFloorRoot (v r : ℤ) : Prop := IsGreatest {s | s * s ≤ v} r

/-- The least natural number whose square is at least `v`. -/
def IsCeilRoot (v r : ℤ) : Prop := IsLeast {s | 0 ≤ s ∧ v ≤ s * s} r

theorem lt_of_mul_self_lt {r s : ℤ} (hs : 0 ≤ s) (h : r * r < s * s) : r < s :=
  lt_of_not_ge fun hsr => absurd (mul_self_le_mul_self hs hsr) (not_le.2 h)

theorem isFloorRoot_iff {v r : ℤ} :
    IsFloorRoot v r ↔ 0 ≤ r ∧ r * r ≤ v ∧ v < (r + 1) * (r + 1) := by
  constructor
  · rintro ⟨hr, hgreatest⟩
    have hzero : (0 : ℤ) * 0 ≤ v := (mul_self_nonneg r).trans hr
    refine ⟨hgreatest hzero, hr, not_le.1 fun hnext => ?_⟩
    have h := hgreatest hnext
    omega
  · rintro ⟨h0, hr, hnext⟩
    refine ⟨hr, fun s hs => ?_⟩
    have h := lt_of_mul_self_lt (by omega) (lt_of_le_of_lt hs hnext)
    omega

namespace IsFloorRoot

variable {v w r s : ℤ}

theorem nonneg (h : IsFloorRoot v r) : 0 ≤ r := (isFloorRoot_iff.1 h).1

theorem mono (h : IsFloorRoot v r) (hw : IsFloorRoot w s) (hvw : v ≤ w) : r ≤ s :=
  hw.2 (h.1.trans hvw)

theorem le_ceilRoot (h : IsFloorRoot v r) (hw : IsCeilRoot w s) (hvw : v ≤ w) : r ≤ s := by
  obtain ⟨hs, hws⟩ := hw.1
  have hsq : r * r ≤ s * s := h.1.trans (hvw.trans hws)
  by_contra hlt
  have hlt := not_le.1 hlt
  exact absurd (mul_self_lt_mul_self hs hlt) (not_lt.2 hsq)

theorem isCeilRoot_of_eq (h : IsFloorRoot v r) (hsq : r * r = v) : IsCeilRoot v r := by
  refine ⟨⟨h.nonneg, hsq.ge⟩, ?_⟩
  rintro s ⟨hs, hvs⟩
  rw [← hsq] at hvs
  exact not_lt.1 fun hlt => absurd (mul_self_lt_mul_self hs hlt) (not_lt.2 hvs)

theorem isCeilRoot_of_ne (h : IsFloorRoot v r) (hsq : r * r ≠ v) : IsCeilRoot v (r + 1) := by
  obtain ⟨h0, hle, hlt⟩ := isFloorRoot_iff.1 h
  refine ⟨⟨by omega, hlt.le⟩, ?_⟩
  rintro s ⟨hs, hvs⟩
  have hrs := lt_of_mul_self_lt hs (lt_of_lt_of_le (lt_of_le_of_ne hle hsq) hvs)
  omega

/-- The step up from an inexact root stays below the value. -/
theorem succ_le_of_ne (h : IsFloorRoot v r) (hsq : r * r ≠ v) : r + 1 ≤ v := by
  obtain ⟨h0, hle, _⟩ := isFloorRoot_iff.1 h
  have hlt : r * r < v := lt_of_le_of_ne hle hsq
  rcases h0.eq_or_lt with rfl | hpos
  · omega
  · have hself : r ≤ r * r := le_mul_of_one_le_right h0 hpos
    omega

end IsFloorRoot

theorem IsCeilRoot.mono {v w r s : ℤ} (h : IsCeilRoot v r) (hw : IsCeilRoot w s) (hvw : v ≤ w) :
    r ≤ s :=
  h.2 ⟨hw.1.1, hvw.trans hw.1.2⟩

namespace FixedInt

variable {t : IntType} {x : FixedInt t}

theorem exists_floorRoot (h : 0 ≤ x.val) :
    ∃ r : FixedInt t, x.floorRoot = .ok r ∧ IsFloorRoot x.val r.val := by
  obtain ⟨r, hr, hbounds⟩ := floorRootLaw t x h
  exact ⟨r, hr, isFloorRoot_iff.2 hbounds⟩

theorem exists_ceilRoot (h : 0 ≤ x.val) :
    ∃ r : FixedInt t, x.ceilRoot = .ok r ∧ IsCeilRoot x.val r.val := by
  obtain ⟨r, hr, hroot⟩ := exists_floorRoot h
  have hfit : t.Fits (r.val * r.val) :=
    t.fits_zero.of_between x.fits (mul_self_nonneg _) hroot.1
  have hceil : x.ceilRoot = if (⟨_, hfit⟩ : FixedInt t) = x then .ok r else r.add 1 := by
    rw [ceilRoot, hr]
    change (r.mul r >>= _) = _
    rw [mul, fit_of_fits hfit]
    rfl
  by_cases hsq : r.val * r.val = x.val
  · exact ⟨r, by rw [hceil, if_pos (ext hsq)], hroot.isCeilRoot_of_eq hsq⟩
  · have hnext : t.Fits (r.val + 1) :=
      r.fits.of_between x.fits (by omega) (hroot.succ_le_of_ne hsq)
    refine ⟨⟨_, hnext⟩, ?_, hroot.isCeilRoot_of_ne hsq⟩
    rw [hceil, if_neg fun he => hsq (congrArg val he)]
    exact fit_of_fits hnext

end FixedInt

namespace Interval

variable {x z : Interval b}

theorem exists_sqrt (hl : 0 ≤ x.lower.val) (hu : 0 ≤ x.upper.val) :
    ∃ z, x.sqrt.outcome = .ok z ∧ IsFloorRoot x.lower.val z.lower.val ∧
      IsCeilRoot x.upper.val z.upper.val := by
  obtain ⟨r, hr, hfloor⟩ := FixedInt.exists_floorRoot hl
  obtain ⟨s, hs, hceil⟩ := FixedInt.exists_ceilRoot hu
  have hdomain : 0 ≤ x.lower ∧ 0 ≤ x.upper := ⟨hl, hu⟩
  refine ⟨⟨r, s⟩, ?_, hfloor, hceil⟩
  rw [sqrt, if_pos hdomain, rootBetween, hr, hs]
  rfl

theorem sqrt_of_neg (h : ¬ (0 ≤ x.lower.val ∧ 0 ≤ x.upper.val)) :
    x.sqrt.outcome = .error (.rejected (.outsideDomain .sqrt)) := by
  have hdomain : ¬ (0 ≤ x.lower ∧ 0 ≤ x.upper) := h
  rw [sqrt, if_neg hdomain]
  rfl

theorem sqrt_eq_ok_iff :
    x.sqrt.outcome = .ok z ↔ IsFloorRoot x.lower.val z.lower.val ∧
      0 ≤ x.upper.val ∧ IsCeilRoot x.upper.val z.upper.val := by
  by_cases h : 0 ≤ x.lower.val ∧ 0 ≤ x.upper.val
  · obtain ⟨w, hw, hfloor, hceil⟩ := exists_sqrt h.1 h.2
    rw [hw, Except.ok.injEq]
    constructor
    · rintro rfl
      exact ⟨hfloor, h.2, hceil⟩
    · rintro ⟨hl, _, hu⟩
      exact ext (hfloor.unique hl) (hceil.unique hu)
  · rw [sqrt_of_neg h]
    constructor
    · intro he
      cases he
    · rintro ⟨hl, hu, _⟩
      exact absurd ⟨(mul_self_nonneg _).trans hl.1, hu⟩ h

theorem sqrt_eq_error_iff {e : Failure} :
    x.sqrt.outcome = .error e ↔
      e = .rejected (.outsideDomain .sqrt) ∧ (x.lower.val < 0 ∨ x.upper.val < 0) := by
  rw [← not_le, ← not_le, ← not_and_or]
  refine Call.outcome_eq_error_iff_of_guard sqrt_of_neg (fun h => ?_) e
  obtain ⟨hl, hu⟩ := not_not.1 h
  obtain ⟨z, hz, -⟩ := exists_sqrt hl hu
  exact ⟨z, hz⟩

theorem sqrt_encloses (hx : x.isEmpty = false) (h : x.sqrt.outcome = .ok z) :
    z.Encloses {r | ∃ a ∈ x, IsFloorRoot a r ∨ IsCeilRoot a r} := by
  obtain ⟨hl, _, hu⟩ := sqrt_eq_ok_iff.1 h
  have hxu := isEmpty_eq_false_iff.1 hx
  refine ⟨isEmpty_eq_false_iff.2 (hl.le_ceilRoot hu hxu), ?_⟩
  rintro r ⟨a, ha, hr | hr⟩
  · exact ⟨hl.mono hr ha.1, hr.le_ceilRoot hu ha.2⟩
  · exact ⟨hl.le_ceilRoot hr ha.1, hr.mono hu ha.2⟩

theorem sqrt_mono {w : Interval b} (hx : x.isEmpty = false) (hxw : x ⊆ w) :
    Narrows x.sqrt w.sqrt := by
  intro z hz
  obtain ⟨hl, _, hu⟩ := sqrt_eq_ok_iff.1 hz
  obtain ⟨hwl, hwu⟩ := (subset_iff hx).1 hxw
  have hnonneg : 0 ≤ x.lower.val := ((mul_self_nonneg _).trans hl.1).trans hwl
  obtain ⟨v, hv, hvl, hvu⟩ := exists_sqrt hnonneg (hnonneg.trans (isEmpty_eq_false_iff.1 hx))
  refine ⟨v, hv, ?_⟩
  intro r hr
  exact ⟨(hl.mono hvl hwl).trans hr.1, hr.2.trans (hvu.mono hu hwu)⟩

end Interval

end Bitspan
