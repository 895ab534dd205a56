import Mathlib.Algebra.Ring.Parity
import Mathlib.Algebra.Order.Ring.Int
import Mathlib.Algebra.Order.Ring.Abs
import Mathlib.Order.Bounds.Image
import Bitspan.Interval.Arithmetic
import Bitspan.Proofs.Image

set_option autoImplicit false

/-!
# Exactness of powers

A power of a bound is computed without a fault exactly when it fits, since no product on the way is
greater than the last one: `pow_overflows_only_at_result` says so of every partial product. On an
interval where the power runs one way it is taken at the bounds, which gives the tight image.
-/

namespace Bitspan

namespace FixedInt

variable {t : IntType} {b : BoundType}

theorem pow_shortExponent (base : FixedInt t) (n : ℕ) :
    base.val ^ shortExponent base n = base.val ^ n := by
  unfold shortExponent
  split
  · rename_i h
    have hb : base.val = 0 ∨ base.val = 1 ∨ base.val = -1 := by omega
    rcases hb with hb | hb | hb
    · rw [hb, zero_pow (by omega), zero_pow (by omega)]
    · rw [hb, one_pow, one_pow]
    · rw [hb]
      rcases Nat.even_or_odd n with hn | hn
      · rw [Nat.even_iff.1 hn, hn.neg_one_pow]
        rfl
      · rw [Nat.odd_iff.1 hn, hn.neg_one_pow]
        rfl
  · rfl

/-- A power of a base other than 0, 1 and -1 is at least twice each of its factors. -/
theorem fits_of_fits_mul_pow {u c : ℤ} {n : ℕ} (h : 2 ≤ c.natAbs ∨ u.natAbs ≤ 1)
    (hfit : b.intType.Fits (u * c ^ n)) : b.intType.Fits u := by
  have hl := b.least_eq
  have hg := b.intType.one_le_greatest
  rcases h with hc | hu
  · cases n with
    | zero => rwa [pow_zero, mul_one] at hfit
    | succ n =>
      have hpow : 2 ≤ c.natAbs ^ (n + 1) := hc.trans (Nat.le_self_pow (by omega) _)
      have hmul : (u * c ^ (n + 1)).natAbs = u.natAbs * c.natAbs ^ (n + 1) := by
        rw [Int.natAbs_mul, Int.natAbs_pow]
      have htwice := Nat.mul_le_mul_left u.natAbs hpow
      unfold IntType.Fits at *
      omega
  · unfold IntType.Fits at *
    omega

theorem timesPower_eq_fit {base acc : Bound b} (h : 2 ≤ base.val.natAbs ∨ acc.val.natAbs ≤ 1)
    (n : ℕ) : timesPower base acc n = fit .multiply (acc.val * base.val ^ n) := by
  -- The bound on `base` and `acc` is kept by every factor, so no product overflows before the last.
  induction n generalizing acc with
  | zero =>
    rw [pow_zero, mul_one]
    exact (fit_of_fits acc.fits).symm
  | succ n ih =>
    have hnext : 2 ≤ base.val.natAbs ∨ (acc.val * base.val).natAbs ≤ 1 := by
      by_cases hb : 2 ≤ base.val.natAbs
      · exact .inl hb
      · have hb : base.val.natAbs ≤ 1 := by omega
        have hmul := Nat.mul_le_mul (h.resolve_left (by omega)) hb
        rw [Int.natAbs_mul]
        exact .inr hmul
    rw [timesPower_succ, mul, pow_succ', ← mul_assoc]
    by_cases hfit : b.intType.Fits (acc.val * base.val)
    · rw [fit_of_fits hfit]
      exact ih hnext
    · have hover : ¬ b.intType.Fits (acc.val * base.val * base.val ^ n) :=
        mt (fits_of_fits_mul_pow hnext) hfit
      rw [fit_eq_error_iff.2 ⟨rfl, hfit⟩, fit_eq_error_iff.2 ⟨rfl, hover⟩]
      rfl

theorem timesPower_one_eq_fit (base : Bound b) (n : ℕ) :
    timesPower base 1 n = fit .multiply (base.val ^ n) := by
  have hone : (1 : Bound b).val.natAbs ≤ 1 := by
    rw [val_one]
    decide
  rw [timesPower_eq_fit (.inr hone), val_one, one_mul]

theorem pow_eq_fit (base : Bound b) (n : ℕ) : base.pow n = fit .multiply (base.val ^ n) := by
  rw [pow, timesPower_one_eq_fit, pow_shortExponent]

/-! ## Partial products -/

theorem fits_pow_of_le {c : ℤ} {k n : ℕ} (hkn : k ≤ n) (h : b.intType.Fits (c ^ n)) :
    b.intType.Fits (c ^ k) := by
  have hgrows : 2 ≤ c.natAbs ∨ (c ^ k).natAbs ≤ 1 := by
    rw [Int.natAbs_pow]
    rcases Nat.lt_or_ge c.natAbs 2 with hsmall | hlarge
    · exact .inr (pow_le_one₀ (Nat.zero_le _) (by omega))
    · exact .inl hlarge
  apply fits_of_fits_mul_pow (n := n - k) hgrows
  rwa [← pow_add, Nat.add_sub_cancel' hkn]

theorem timesPower_add (base acc : FixedInt t) (m n : ℕ) :
    timesPower base acc (m + n) = timesPower base acc m >>= fun p => timesPower base p n := by
  -- On the factors taken first, from any product so far, which each of them changes.
  induction m generalizing acc with
  | zero =>
    rw [Nat.zero_add]
    rfl
  | succ m ih =>
    rw [Nat.add_right_comm, timesPower_succ, timesPower_succ, bind_assoc]
    simp only [ih]

/-- The product of the first factors fits if that of all of them does, and the rest of the product
goes on from it. -/
theorem exists_partial_product (base : Bound b) {k n : ℕ} (hkn : k ≤ n)
    (h : b.intType.Fits (base.val ^ n)) :
    ∃ p, timesPower base 1 k = .ok p ∧ p.val = base.val ^ k ∧
      timesPower base p (n - k) = timesPower base 1 n := by
  have hfit := fits_pow_of_le hkn h
  have hpart : timesPower base 1 k = .ok ⟨_, hfit⟩ := by
    rw [timesPower_one_eq_fit, fit_of_fits hfit]
  refine ⟨_, hpart, rfl, ?_⟩
  have hsplit := timesPower_add base 1 k (n - k)
  rw [Nat.add_sub_cancel' hkn, hpart] at hsplit
  exact hsplit.symm

/-- A product of `n` factors overflows exactly when the power does not fit, and where it fits no
product of fewer factors overflows on the way. -/
theorem pow_overflows_only_at_result (base : Bound b) (n : ℕ) :
    base.pow n = timesPower base 1 n ∧
    (∀ f, timesPower base 1 n = .error f ↔
      f = .overflow .multiply ∧ ¬ b.intType.Fits (base.val ^ n)) ∧
    (b.intType.Fits (base.val ^ n) → ∃ z, timesPower base 1 n = .ok z ∧ z.val = base.val ^ n) ∧
    (∀ k ≤ n, b.intType.Fits (base.val ^ n) →
      ∃ p, timesPower base 1 k = .ok p ∧ p.val = base.val ^ k ∧
        timesPower base p (n - k) = timesPower base 1 n) ∧
    timesPower base 1 0 = .ok 1 := by
  refine ⟨?_, ?_, ?_, fun _ hkn => exists_partial_product base hkn, rfl⟩
  · rw [pow_eq_fit, timesPower_one_eq_fit]
  · intro f
    rw [timesPower_one_eq_fit, fit_eq_error_iff]
  · intro hfit
    obtain ⟨p, hp, hval, -⟩ := exists_partial_product base le_rfl hfit
    exact ⟨p, hp, hval⟩

theorem pow_overflows_only_at_result_least :
    (∃ z : Bound .int8, timesPower ⟨-2, by decide⟩ 1 7 = .ok z ∧ z.val = (-2) ^ 7) ∧
    ¬ BoundType.int8.intType.Fits (2 ^ 7) ∧
    (∃ p : Bound .int8, timesPower ⟨-2, by decide⟩ 1 6 = .ok p ∧ p.val = (-2) ^ 6) := by
  obtain ⟨-, -, result, partials, -⟩ :=
    pow_overflows_only_at_result (⟨-2, by decide⟩ : Bound .int8) 7
  obtain ⟨-, overflows, -⟩ := pow_overflows_only_at_result (⟨2, by decide⟩ : Bound .int8) 7
  have hfit : BoundType.int8.intType.Fits ((-2) ^ 7) := by decide
  obtain ⟨p, hp, hval, -⟩ := partials 6 (by decide) hfit
  exact ⟨result hfit, ((overflows (.overflow .multiply)).1 rfl).2, p, hp, hval⟩

end FixedInt

namespace Interval

variable {b : BoundType} {x : Interval b} {n : ℕ}

theorem pow_le_pow_of_le {a c : ℤ} (h : Odd n ∨ 0 ≤ a) (hac : a ≤ c) : a ^ n ≤ c ^ n := by
  rcases h with hn | ha
  · exact hn.strictMono_pow.monotone hac
  · exact pow_le_pow_left₀ ha hac n

theorem even_pow_le_pow_of_le {a c : ℤ} (hn : Even n) (hc : c ≤ 0) (hac : a ≤ c) :
    c ^ n ≤ a ^ n := by
  have h := pow_le_pow_left₀ (neg_nonneg.2 hc) (neg_le_neg hac) n
  rwa [hn.neg_pow, hn.neg_pow] at h

theorem tightImage_powerBetween {p q : Bound b}
    (hp : IsLeast ((· ^ n) '' x.values) (p.val ^ n))
    (hq : IsGreatest ((· ^ n) '' x.values) (q.val ^ n)) :
    TightImage .multiply ((· ^ n) '' x.values) (powerBetween p q n) := by
  rw [powerBetween, FixedInt.pow_eq_fit, FixedInt.pow_eq_fit]
  exact .of_bounds hp hq

/-- An even power of an interval with values on both sides of zero is not taken. -/
def Folds (x : Interval b) (n : ℕ) : Prop := Even n ∧ x.lower.val < 0 ∧ 0 < x.upper.val

theorem Folds.mono {w : Interval b} (h : x.Folds n) (hxw : x ⊆ w) : w.Folds n := by
  obtain ⟨hn, hl, hu⟩ := h
  have hx : x.isEmpty = false := isEmpty_eq_false_iff.2 (hl.trans hu).le
  obtain ⟨hwl, hwu⟩ := (subset_iff hx).1 hxw
  exact ⟨hn, hwl.trans_lt hl, hu.trans_le hwu⟩

theorem power_of_folds (h : x.Folds n) :
    (x.power n).outcome = .error (.rejected (.notImplemented .power)) := by
  obtain ⟨hn, hl, hu⟩ := h
  have hup : ¬ (n % 2 = 1 ∨ 0 ≤ x.lower) :=
    not_or.2 ⟨mt Nat.odd_iff.2 (Nat.not_odd_iff_even.2 hn), not_le.2 hl⟩
  have hdown : ¬ x.upper ≤ 0 := not_le.2 hu
  rw [power, if_neg hup, if_neg hdown]
  rfl

/-- Short of folding, a power rises with the base or falls with it, and is taken at the bounds. -/
theorem power_cases (x : Interval b) (n : ℕ) :
    x.Folds n ∨
    (Odd n ∨ 0 ≤ x.lower.val) ∧ x.power n = .checked (powerBetween x.lower x.upper n) ∨
    (Even n ∧ x.lower.val < 0 ∧ x.upper.val ≤ 0) ∧
      x.power n = .checked (powerBetween x.upper x.lower n) := by
  by_cases hup : Odd n ∨ 0 ≤ x.lower.val
  · have hif : n % 2 = 1 ∨ 0 ≤ x.lower := hup.imp_left Nat.odd_iff.1
    exact .inr (.inl ⟨hup, by rw [power, if_pos hif]⟩)
  obtain ⟨hn, hl⟩ := not_or.1 hup
  rw [Nat.not_odd_iff_even] at hn
  by_cases hu : x.upper.val ≤ 0
  · have hif : ¬ (n % 2 = 1 ∨ 0 ≤ x.lower) := mt (Or.imp_left Nat.odd_iff.2) hup
    have hle : x.upper ≤ 0 := hu
    exact .inr (.inr ⟨⟨hn, not_le.1 hl, hu⟩, by rw [power, if_neg hif, if_pos hle]⟩)
  · exact .inl ⟨hn, not_le.1 hl, not_le.1 hu⟩

theorem exists_tightImage_power (hx : x.isEmpty = false) (h : ¬ x.Folds n) :
    ∃ r, x.power n = .checked r ∧ TightImage .multiply ((· ^ n) '' x.values) r := by
  rcases x.power_cases n with hf | ⟨hup, hr⟩ | ⟨⟨hn, _, hu⟩, hr⟩
  · exact absurd hf h
  · have rises : MonotoneOn (· ^ n) x.values := fun _ ha _ _ hac =>
      pow_le_pow_of_le (hup.imp_right ha.1.trans') hac
    exact ⟨_, hr, tightImage_powerBetween (rises.map_isLeast (isLeast_lower hx))
      (rises.map_isGreatest (isGreatest_upper hx))⟩
  · have falls : AntitoneOn (· ^ n) x.values := fun _ _ _ hc hac =>
      even_pow_le_pow_of_le hn (hc.2.trans hu) hac
    exact ⟨_, hr, tightImage_powerBetween (falls.map_isGreatest (isGreatest_upper hx))
      (falls.map_isLeast (isLeast_lower hx))⟩

theorem not_folds_of_power_eq_ok {z : Interval b} (h : (x.power n).outcome = .ok z) :
    ¬ x.Folds n := by
  intro hf
  rw [power_of_folds hf] at h
  cases h

theorem exists_power_of_faultless (h : ¬ x.Folds n) (hf : (x.power n).Faultless) :
    ∃ z, (x.power n).outcome = .ok z := by
  have hchecked : ∃ r, x.power n = .checked r := by
    rcases x.power_cases n with hfolds | ⟨-, hr⟩ | ⟨-, hr⟩
    · exact absurd hfolds h
    · exact ⟨_, hr⟩
    · exact ⟨_, hr⟩
  obtain ⟨r, hr⟩ := hchecked
  rw [hr] at hf ⊢
  cases r with
  | ok z => exact ⟨z, rfl⟩
  | error f => exact absurd rfl (hf f)

theorem powerBetween_eq_ok_iff {p q : Bound b} {z : Interval b} :
    powerBetween p q n = .ok z ↔ z.lower.val = p.val ^ n ∧ z.upper.val = q.val ^ n := by
  rw [powerBetween, bounds_eq_ok_iff, FixedInt.pow_eq_fit, FixedInt.pow_eq_fit,
    FixedInt.fit_eq_ok_iff, FixedInt.fit_eq_ok_iff]

theorem power_bounds_of_eq_ok {z : Interval b} (h : (x.power n).outcome = .ok z) :
    (Odd n ∨ 0 ≤ x.lower.val) ∧ z.lower.val = x.lower.val ^ n ∧ z.upper.val = x.upper.val ^ n ∨
    (Even n ∧ x.lower.val < 0 ∧ x.upper.val ≤ 0) ∧
      z.lower.val = x.upper.val ^ n ∧ z.upper.val = x.lower.val ^ n := by
  rcases x.power_cases n with hf | ⟨hup, hr⟩ | ⟨hdown, hr⟩
  · exact absurd hf (not_folds_of_power_eq_ok h)
  · rw [hr, Call.outcome_checked_eq_ok_iff, powerBetween_eq_ok_iff] at h
    exact .inl ⟨hup, h⟩
  · rw [hr, Call.outcome_checked_eq_ok_iff, powerBetween_eq_ok_iff] at h
    exact .inr ⟨hdown, h⟩

theorem power_encloses {z : Interval b} (hx : x.isEmpty = false) (h : (x.power n).outcome = .ok z) :
    z.Encloses ((· ^ n) '' x.values) := by
  obtain ⟨r, hr, himage⟩ := exists_tightImage_power hx (not_folds_of_power_eq_ok h)
  rw [hr] at h
  exact himage.encloses (Call.outcome_checked_eq_ok_iff.1 h)

theorem power_mono {w : Interval b} (hx : x.isEmpty = false) (hxw : x ⊆ w) :
    Narrows (x.power n) (w.power n) := by
  intro z hz
  have hfolds := not_folds_of_power_eq_ok hz
  have hw := isEmpty_eq_false_of_subset hx hxw
  obtain ⟨r, hr, himage⟩ := exists_tightImage_power hx (mt (Folds.mono · hxw) hfolds)
  obtain ⟨q, hq, hwide⟩ := exists_tightImage_power hw hfolds
  rw [hq] at hz
  rw [hr]
  exact himage.narrows hwide (Set.image_mono hxw) z hz

/-- A power is declined exactly where it folds. Any other one overflows exactly when the power of
some member does not fit, and else spans the powers of the members. -/
theorem power_spans_powers (x : Interval b) (n : ℕ) (hx : x.isEmpty = false) :
    (∀ e, (x.power n).outcome = .error e ↔
      e = .rejected (.notImplemented .power) ∧ x.Folds n ∨
      e = .fault (.overflow .multiply) ∧ ¬ x.Folds n ∧ ∃ a ∈ x, ¬ b.intType.Fits (a ^ n)) ∧
    (¬ x.Folds n → (∀ a ∈ x, b.intType.Fits (a ^ n)) →
      ∃ z, (x.power n).outcome = .ok z ∧ z.Spans {v | ∃ a ∈ x, a ^ n = v}) := by
  by_cases hfolds : x.Folds n
  · refine ⟨fun e => ?_, fun h => absurd hfolds h⟩
    rw [power_of_folds hfolds, Except.error.injEq, eq_comm]
    simp [hfolds]
  obtain ⟨r, hr, himage⟩ := exists_tightImage_power hx hfolds
  constructor
  · intro e
    rw [hr, himage.outcome_eq_error_iff, Set.exists_mem_image]
    simp only [hfolds, and_false, not_false_eq_true, true_and, false_or]
    rfl
  · rintro - hfits
    obtain ⟨z, hz, hspan⟩ := himage.exists_of_fits (Set.forall_mem_image.2 hfits)
    exact ⟨z, by rw [hr, hz]; rfl, hspan⟩

theorem power_spans_powers_minus_two :
    (between (-128) 1 : Interval .int8).Spans
      {v | ∃ a ∈ (between (-2) 1 : Interval .int8), a ^ 7 = v} ∧
    (∃ a ∈ (between (-2) 2 : Interval .int8), ¬ BoundType.int8.intType.Fits (a ^ 7)) ∧
    (between (-8) 7 : Interval .int8).Folds 2 := by
  obtain ⟨errors, spans⟩ := power_spans_powers (between (-2) 1 : Interval .int8) 7 rfl
  obtain ⟨overflows, -⟩ := power_spans_powers (between (-2) 2 : Interval .int8) 7 rfl
  obtain ⟨declines, -⟩ := power_spans_powers (between (-8) 7 : Interval .int8) 2 rfl
  have hpower : ((between (-2) 1 : Interval .int8).power 7).outcome = .ok (between (-128) 1) := rfl
  have hfolds : ¬ (between (-2) 1 : Interval .int8).Folds 7 := by
    rintro ⟨hn, -⟩
    exact absurd hn (by decide)
  have hfits : ∀ a ∈ (between (-2) 1 : Interval .int8), BoundType.int8.intType.Fits (a ^ 7) := by
    intro a ha
    by_contra h
    have herror := (errors _).2 (.inr ⟨rfl, hfolds, a, ha, h⟩)
    rw [hpower] at herror
    cases herror
  obtain ⟨z, hz, hspan⟩ := spans hfolds hfits
  rw [hpower] at hz
  cases hz
  refine ⟨hspan, ?_, ?_⟩
  · rcases (overflows (.fault (.overflow .multiply))).1 rfl with ⟨h, -⟩ | ⟨-, -, h⟩
    · cases h
    · exact h
  · rcases (declines (.rejected (.notImplemented .power))).1 rfl with ⟨-, h⟩ | ⟨h, -⟩
    · exact h
    · cases h

end Interval

end Bitspan
