import Mathlib.Algebra.Order.Ring.Int
import Mathlib.Data.Nat.Log
import Mathlib.Order.Bounds.Basic
import Bitspan.FixedInt.Elementary

set_option autoImplicit false

/-!
# Exact ceiling logarithms

The significant bits of the predecessor of a positive value are as many as its ceiling logarithm.
So `ceilLog` gives the least exponent of two that reaches the value, in every type that has the
value, and grows with it. No step under it faults: the predecessor is a value of the type, and no
value has more leading zeros than its type has bits.
-/

namespace Bitspan

theorem twoPow_eq_pow (n : ℕ) : twoPow n = 2 ^ n := Nat.one_shiftLeft n

theorem cast_twoPow (n : ℕ) : ((twoPow n : ℕ) : ℤ) = 2 ^ n := by
  rw [twoPow_eq_pow]
  exact Nat.cast_pow 2 n

theorem significant_eq_clog {bits n : ℕ} (h : n < twoPow bits) :
    bits - leadingZeros bits n = Nat.clog 2 (n + 1) := by
  apply le_antisymm
  · by_contra hlt
    have hle := twoPow_le_of_lt_significant h (not_le.1 hlt)
    have hpow := Nat.le_pow_clog (b := 2) (by decide) (n + 1)
    rw [twoPow_eq_pow] at hle
    omega
  · have hlt := lt_twoPow_significant h
    rw [twoPow_eq_pow] at hlt
    exact Nat.clog_le_of_le_pow hlt

theorem isLeast_clog (s : ℕ) : IsLeast {m | s ≤ 2 ^ m} (Nat.clog 2 s) :=
  ⟨Nat.le_pow_clog (by decide) s, fun _ hm => Nat.clog_le_of_le_pow hm⟩

theorem IntType.greatest_lt_twoPow_bits (t : IntType) : t.greatest < twoPow t.bits := by
  rcases t with size | size <;> cases size <;> decide

namespace FixedInt

variable {t u : IntType} {x : FixedInt t} {y : FixedInt u} {k m : ℕ}

theorem fits_predecessor (hx : 0 < x.val) : t.Fits (x.val - 1) :=
  t.fits_zero.of_between x.fits (by omega) (by omega)

theorem leadingZeros_le_bits (x : FixedInt t) : x.leadingZeros ≤ t.bits := by
  unfold leadingZeros
  split
  · exact Nat.zero_le _
  · exact Bitspan.leadingZeros_le _ _

theorem ceilLog_eq_pure (hx : 0 < x.val) : x.ceilLog = pure (Nat.clog 2 x.val.toNat) := by
  have hfit := fits_predecessor hx
  have hlt := lt_of_le_of_lt hfit.2 t.greatest_lt_twoPow_bits
  have hnat : (x.val - 1).toNat + 1 = x.val.toNat := by omega
  have hsig := significant_eq_clog (show (x.val - 1).toNat < twoPow t.bits by omega)
  rw [hnat] at hsig
  rw [ceilLog, if_neg (by omega), sub, val_one, fit_of_fits hfit, ← hsig, Call.checked_ok,
    pure_bind, leadingZeros, if_neg (show ¬ x.val - 1 < 0 by omega)]

theorem ceilLog_of_pos (hx : 0 < x.val) : x.ceilLog.outcome = .ok (Nat.clog 2 x.val.toNat) := by
  rw [ceilLog_eq_pure hx]
  rfl

theorem ceilLog_of_nonpos (hx : x.val ≤ 0) :
    x.ceilLog.outcome = .error (.rejected (.outsideDomain .ceilLog)) := by
  rw [ceilLog, if_pos hx]
  rfl

theorem ceilLog_eq_error_iff (x : FixedInt t) (e : Failure) :
    x.ceilLog.outcome = .error e ↔ e = .rejected (.outsideDomain .ceilLog) ∧ x.val ≤ 0 :=
  Call.outcome_eq_error_iff_of_guard ceilLog_of_nonpos
    (fun hx => ⟨_, ceilLog_of_pos (not_le.1 hx)⟩) e

theorem ceilLog_faultless (x : FixedInt t) : x.ceilLog.Faultless :=
  Call.faultless_of_rejection x.ceilLog_eq_error_iff

theorem ceilLog_eq_ok_iff :
    x.ceilLog.outcome = .ok k ↔ 0 < x.val ∧ IsLeast {k : ℕ | x.val ≤ 2 ^ k} k := by
  rcases le_or_gt x.val 0 with hx | hx
  · rw [ceilLog_of_nonpos hx]
    exact iff_of_false nofun fun h => absurd h.1 (not_lt.2 hx)
  have hset : {k : ℕ | x.val ≤ 2 ^ k} = {k | x.val.toNat ≤ 2 ^ k} := by
    ext k
    change x.val ≤ 2 ^ k ↔ x.val.toNat ≤ 2 ^ k
    rw [Int.toNat_le, Nat.cast_pow, Nat.cast_two]
  rw [ceilLog_of_pos hx, Except.ok.injEq, and_iff_right hx, hset]
  constructor
  · rintro rfl
    exact isLeast_clog _
  · exact (isLeast_clog _).unique

theorem ceilLog_mono (hxy : x.val ≤ y.val) (hk : x.ceilLog.outcome = .ok k) :
    ∃ m, y.ceilLog.outcome = .ok m ∧ k ≤ m := by
  obtain ⟨hx, hleast⟩ := ceilLog_eq_ok_iff.1 hk
  have hm := ceilLog_of_pos (hx.trans_le hxy)
  exact ⟨_, hm, hleast.2 (hxy.trans (ceilLog_eq_ok_iff.1 hm).2.1)⟩

/-- The type decides which values there are, and nothing about their logarithms. -/
theorem ceilLog_congr (h : x.val = y.val) : x.ceilLog = y.ceilLog := by
  rcases le_or_gt x.val 0 with hx | hx
  · rw [ceilLog, ceilLog, if_pos hx, if_pos (h ▸ hx), toString_def, toString_def, h]
  · rw [ceilLog_eq_pure hx, ceilLog_eq_pure (h ▸ hx), h]

/-- The ceiling logarithm is declined exactly where the value is not positive, and else it is the
least exponent of two that reaches the value. It grows with the value, and values that are equal
have the same one, whatever their types. -/
theorem ceilLog_is_least_exponent (x : FixedInt t) (y : FixedInt u) :
    (∀ e, x.ceilLog.outcome = .error e ↔
      e = .rejected (.outsideDomain .ceilLog) ∧ x.val ≤ 0) ∧
    (0 < x.val →
      (∃ p, x.sub 1 = .ok p ∧ p.leadingZeros ≤ t.bits) ∧
      ∃ k, x.ceilLog.outcome = .ok k ∧ IsLeast {k : ℕ | x.val ≤ 2 ^ k} k) ∧
    (x.val ≤ y.val → ∀ k, x.ceilLog.outcome = .ok k → ∃ m, y.ceilLog.outcome = .ok m ∧ k ≤ m) ∧
    (x.val = y.val → x.ceilLog = y.ceilLog) := by
  refine ⟨x.ceilLog_eq_error_iff, ?_, fun hxy _ => ceilLog_mono hxy, ceilLog_congr⟩
  intro hx
  have hk := ceilLog_of_pos hx
  exact ⟨⟨_, fit_of_fits (fits_predecessor hx), leadingZeros_le_bits _⟩, _, hk,
    (ceilLog_eq_ok_iff.1 hk).2⟩

/-- The greatest value of 128 bits takes all of them, and one past a power of two takes one bit more
than the power, in a type of eight bits as in one of 128. -/
theorem ceilLog_is_least_exponent_boundaries :
    IsLeast {k : ℕ | (2 ^ 128 - 1 : ℤ) ≤ 2 ^ k} 128 ∧
    (⟨65, by decide⟩ : FixedInt (.signed .bits8)).ceilLog =
      (⟨65, by decide⟩ : FixedInt (.unsigned .bits128)).ceilLog ∧
    (⟨65, by decide⟩ : FixedInt (.unsigned .bits128)).ceilLog.outcome = .ok 7 ∧
    (⟨-128, by decide⟩ : FixedInt (.signed .bits8)).ceilLog.outcome =
      .error (.rejected (.outsideDomain .ceilLog)) := by
  obtain ⟨-, least, -⟩ := ceilLog_is_least_exponent
    (⟨2 ^ 128 - 1, by decide⟩ : FixedInt (.unsigned .bits128)) (0 : FixedInt .wide)
  obtain ⟨-, -, -, equal⟩ := ceilLog_is_least_exponent
    (⟨65, by decide⟩ : FixedInt (.signed .bits8))
    (⟨65, by decide⟩ : FixedInt (.unsigned .bits128))
  obtain ⟨declines, -⟩ := ceilLog_is_least_exponent
    (⟨-128, by decide⟩ : FixedInt (.signed .bits8)) (0 : FixedInt .wide)
  obtain ⟨-, k, hk, hleast⟩ := least (by decide)
  have hgreatest : (⟨2 ^ 128 - 1, by decide⟩ :
      FixedInt (.unsigned .bits128)).ceilLog.outcome = .ok 128 := by decide +kernel
  rw [hgreatest] at hk
  cases hk
  exact ⟨hleast, equal rfl, by decide +kernel, (declines _).2 ⟨rfl, by decide⟩⟩

end FixedInt

end Bitspan
