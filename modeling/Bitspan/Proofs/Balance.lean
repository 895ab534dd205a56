import Bitspan.Interval.BitWidth
import Bitspan.Proofs.Universe

set_option autoImplicit false

/-!
# Widths and balanced intervals without faults

The logarithm of a magnitude is less than the number of bits of the bound type, so the powers of two
that a balanced interval is built from fit, and the wide type has room for each step on the way. No
operation on widths faults, and each of its rejections comes under an exact condition.
-/

namespace Bitspan

variable {b : BoundType}

theorem BoundType.greatest_eq (b : BoundType) : b.intType.greatest = 2 ^ (b.bits - 1) - 1 := by
  rw [← cast_twoPow]
  rfl

theorem BoundType.size_eq (b : BoundType) :
    b.intType.greatest - b.intType.least + 1 = 2 ^ b.bits := by
  rw [← cast_twoPow]
  cases b <;> decide

theorem BoundType.wide_fits_twoPow_bits (b : BoundType) : IntType.wide.Fits (twoPow b.bits) := by
  cases b <;> decide

namespace Interval

variable {x z : Interval b} {k : Kind} {e : ℕ}

/-! ## Powers of two that fit -/

theorem fits_two_pow_sub_one_of_lt (h : e ≤ b.bits - 1) : b.intType.Fits (2 ^ e - 1) := by
  have hpos : (0 : ℤ) < 2 ^ e := Int.pow_pos (by decide)
  have hle : (2 : ℤ) ^ e ≤ 2 ^ (b.bits - 1) := pow_le_pow_right₀ (by decide) h
  have hg := b.greatest_eq
  refine ⟨b.intType.least_nonpos.trans (by omega), ?_⟩
  omega

theorem wide_fits_two_pow (h : e ≤ b.bits) : IntType.wide.Fits (2 ^ e) := by
  have hbits := b.wide_fits_twoPow_bits
  rw [cast_twoPow] at hbits
  exact IntType.wide.fits_zero.of_between hbits (Int.pow_pos (by decide)).le
    (pow_le_pow_right₀ (by decide) h)

theorem wide_fits_two_pow_sub_one (h : e ≤ b.bits) : IntType.wide.Fits (2 ^ e - 1) := by
  have hpos : (0 : ℤ) < 2 ^ e := Int.pow_pos (by decide)
  exact IntType.wide.fits_zero.of_between (wide_fits_two_pow h) (by omega) (by omega)

theorem wide_fits_neg_two_pow (h : e ≤ b.bits) : IntType.wide.Fits (-2 ^ e) := by
  have hfit := wide_fits_two_pow h
  have hpos : (0 : ℤ) < 2 ^ e := Int.pow_pos (by decide)
  have hl : IntType.wide.least = -IntType.wide.greatest - 1 := by decide
  unfold IntType.Fits at *
  omega

theorem powerOfTwo_of_fits (h : IntType.wide.Fits (2 ^ e)) :
    FixedInt.powerOfTwo e = .ok (⟨2 ^ e, h⟩ : FixedInt .wide) :=
  FixedInt.fit_eq_ok_iff.2 (cast_twoPow e).symm

/-! ## Logarithms of bounds -/

theorem natAbs_le_two_pow (v : Bound b) : v.val.natAbs ≤ 2 ^ (b.bits - 1) := by
  have hfit := v.fits
  have hl := b.least_eq
  have hg := b.greatest_eq
  have hcast : ((2 ^ (b.bits - 1) : ℕ) : ℤ) = 2 ^ (b.bits - 1) := Nat.cast_pow 2 _
  unfold IntType.Fits at hfit
  omega

theorem clog_natAbs_le (v : Bound b) : Nat.clog 2 v.val.natAbs ≤ b.bits - 1 :=
  Nat.clog_le_of_le_pow (natAbs_le_two_pow v)

theorem exists_magnitude (v : Bound b) :
    ∃ a : FixedInt .wide, v.widen.abs = .ok a ∧ a.val = v.val.natAbs := by
  have hle : (v.val.natAbs : ℤ) ≤ 2 ^ (b.bits - 1) := by exact_mod_cast natAbs_le_two_pow v
  have hfit : IntType.wide.Fits v.val.natAbs :=
    IntType.wide.fits_zero.of_between (wide_fits_two_pow (b.bits.sub_le 1)) (by omega) hle
  exact ⟨⟨_, hfit⟩, FixedInt.abs_eq_ok_iff.2 rfl, rfl⟩

theorem exists_magnitude_log {v : Bound b} (hv : v.val ≠ 0) :
    ∃ a : FixedInt .wide, v.widen.abs = .ok a ∧
      a.ceilLog.outcome = .ok (Nat.clog 2 v.val.natAbs) := by
  obtain ⟨a, ha, hval⟩ := exists_magnitude v
  have hlog := FixedInt.ceilLog_of_pos (show 0 < a.val by omega)
  rw [hval, Int.toNat_natCast] at hlog
  exact ⟨a, ha, hlog⟩

theorem exists_magnitude_zero {v : Bound b} (hv : v.val = 0) :
    ∃ a : FixedInt .wide, v.widen.abs = .ok a ∧
      a.ceilLog.outcome = .error (.rejected (.outsideDomain .ceilLog)) := by
  obtain ⟨a, ha, hval⟩ := exists_magnitude v
  exact ⟨a, ha, FixedInt.ceilLog_of_nonpos (by omega)⟩

theorem narrow_of_fits {v : ℤ} {width : ℕ} (hwide : IntType.wide.Fits v)
    (h : b.intType.Fits v) : narrow ⟨v, hwide⟩ width = pure (⟨v, h⟩ : Bound b) := by
  rw [narrow, FixedInt.ofInt?_eq_some_iff.2 (rfl : (⟨v, h⟩ : Bound b).val = v)]

/-! ## The two ways to balance -/

theorem exists_balanceUnsigned (h : 0 < x.upper.val) :
    ∃ z, x.balanceUnsigned.outcome = .ok z ∧ z.lower.val = 0 ∧
      z.upper.val = 2 ^ Nat.clog 2 x.upper.val.natAbs - 1 := by
  have hlog := FixedInt.ceilLog_of_pos h
  rw [show x.upper.val.toNat = x.upper.val.natAbs by omega] at hlog
  have hle := clog_natAbs_le x.upper
  -- From here on only the bound on the exponent matters, not which logarithm it is.
  generalize Nat.clog 2 x.upper.val.natAbs = e at hlog hle
  have hbits : e ≤ b.bits := hle.trans (b.bits.sub_le 1)
  have htop := wide_fits_two_pow_sub_one hbits
  have hfit := fits_two_pow_sub_one_of_lt hle
  refine ⟨⟨0, ⟨_, hfit⟩⟩, ?_, rfl, rfl⟩
  rw [balanceUnsigned, Call.outcome_bind_of_ok hlog, powerOfTwo_of_fits (wide_fits_two_pow hbits),
    Call.checked_ok, pure_bind, FixedInt.sub, FixedInt.val_one, FixedInt.fit_of_fits htop,
    Call.checked_ok, pure_bind, narrow_of_fits htop hfit, pure_bind, Call.outcome_pure]

theorem balanceUnsigned_of_nonpos (h : x.upper.val ≤ 0) :
    x.balanceUnsigned.outcome = .error (.rejected (.outsideDomain .ceilLog)) := by
  rw [balanceUnsigned]
  exact Call.outcome_bind_of_error (FixedInt.ceilLog_of_nonpos h) _

theorem exists_balanceSigned (hl : x.lower.val ≠ 0) (hu : x.upper.val ≠ 0) :
    ∃ z, x.balanceSigned.outcome = .ok z ∧
      z.lower.val = -2 ^ max (Nat.clog 2 x.upper.val.natAbs) (Nat.clog 2 x.lower.val.natAbs) ∧
      z.upper.val =
        2 ^ max (Nat.clog 2 x.upper.val.natAbs) (Nat.clog 2 x.lower.val.natAbs) - 1 := by
  obtain ⟨p, hp, hplog⟩ := exists_magnitude_log hu
  obtain ⟨q, hq, hqlog⟩ := exists_magnitude_log hl
  have hle := max_le (clog_natAbs_le x.upper) (clog_natAbs_le x.lower)
  generalize he : max (Nat.clog 2 x.upper.val.natAbs) (Nat.clog 2 x.lower.val.natAbs) = e at hle
  have hbits : e ≤ b.bits := hle.trans (b.bits.sub_le 1)
  have htop := wide_fits_two_pow_sub_one hbits
  have hbottom := wide_fits_neg_two_pow hbits
  have hupper := fits_two_pow_sub_one_of_lt hle
  have hlower := fits_neg_two_pow hupper
  refine ⟨⟨⟨_, hlower⟩, ⟨_, hupper⟩⟩, ?_, rfl, rfl⟩
  rw [balanceSigned, hp, Call.checked_ok, pure_bind, Call.outcome_bind_of_ok hplog, hq,
    Call.checked_ok, pure_bind, Call.outcome_bind_of_ok hqlog]
  simp only [he, powerOfTwo_of_fits (wide_fits_two_pow hbits), FixedInt.neg,
    FixedInt.fit_of_fits hbottom, FixedInt.sub, FixedInt.val_one, FixedInt.fit_of_fits htop,
    Call.checked_ok, pure_bind, narrow_of_fits hbottom hlower, narrow_of_fits htop hupper,
    Call.outcome_pure]

theorem balanceSigned_of_zero (h : x.lower.val = 0 ∨ x.upper.val = 0) :
    x.balanceSigned.outcome = .error (.rejected (.outsideDomain .ceilLog)) := by
  rw [balanceSigned]
  by_cases hu : x.upper.val = 0
  · obtain ⟨p, hp, hplog⟩ := exists_magnitude_zero hu
    rw [hp, Call.checked_ok, pure_bind]
    exact Call.outcome_bind_of_error hplog _
  · obtain ⟨p, hp, hplog⟩ := exists_magnitude_log hu
    obtain ⟨q, hq, hqlog⟩ := exists_magnitude_zero (h.resolve_right hu)
    rw [hp, Call.checked_ok, pure_bind, Call.outcome_bind_of_ok hplog, hq, Call.checked_ok,
      pure_bind]
    exact Call.outcome_bind_of_error hqlog _

/-- The kind has no rule to balance these bounds. -/
def LacksRule (x : Interval b) : Kind → Prop
  | .unsigned => x.lower.val < 0 ∨ x.upper.val < 0
  | .signed => False
  | .signedPositive | .signedNegative => True

/-- The rule of the kind takes the logarithm of a bound that is zero. -/
def ReadsZero (x : Interval b) : Kind → Prop
  | .unsigned => x.upper.val = 0
  | .signed => x.lower.val = 0 ∨ x.upper.val = 0
  | .signedPositive | .signedNegative => False

theorem not_lacksRule_unsigned_iff : ¬ x.LacksRule .unsigned ↔ x.isPositive = true := by
  rw [isPositive_iff, LacksRule]
  omega

theorem balance_unsigned (h : ¬ x.LacksRule .unsigned) :
    x.balance .unsigned = x.balanceUnsigned := by
  rw [balance, if_pos ⟨rfl, not_lacksRule_unsigned_iff.1 h⟩]

theorem balance_signed (x : Interval b) : x.balance .signed = x.balanceSigned := by
  rw [balance, if_neg (by simp), if_pos rfl]

theorem balance_of_lacksRule (h : x.LacksRule k) :
    (x.balance k).outcome = .error (.rejected (.unsupportedKinds .balance [k])) := by
  have hunsigned : ¬ (k = .unsigned ∧ x.isPositive = true) := by
    rintro ⟨rfl, hpos⟩
    exact not_lacksRule_unsigned_iff.2 hpos h
  have hsigned : k ≠ .signed := by
    rintro rfl
    exact h
  rw [balance, if_neg hunsigned, if_neg hsigned]
  rfl

theorem balance_of_readsZero (h : ¬ x.LacksRule k) (h0 : x.ReadsZero k) :
    (x.balance k).outcome = .error (.rejected (.outsideDomain .ceilLog)) := by
  cases k with
  | unsigned =>
    rw [balance_unsigned h]
    exact balanceUnsigned_of_nonpos (le_of_eq h0)
  | signed =>
    rw [balance_signed]
    exact balanceSigned_of_zero h0
  | signedPositive | signedNegative => exact absurd trivial h

/-- The least exponent of two that reaches the magnitude of every bound that the rule reads. -/
def balanceExponent (x : Interval b) : Kind → ℕ
  | .unsigned => Nat.clog 2 x.upper.val.natAbs
  | .signed | .signedPositive | .signedNegative =>
    max (Nat.clog 2 x.upper.val.natAbs) (Nat.clog 2 x.lower.val.natAbs)

/-- The bounds are those of the balanced interval of the kind for the exponent `e`. -/
def IsBalancedTo (z : Interval b) (k : Kind) (e : ℕ) : Prop :=
  z.lower.val = (if k = .unsigned then 0 else -2 ^ e) ∧ z.upper.val = 2 ^ e - 1

instance (z : Interval b) (k : Kind) (e : ℕ) : Decidable (z.IsBalancedTo k e) :=
  inferInstanceAs (Decidable (_ ∧ _))

theorem exists_balance (h : ¬ x.LacksRule k) (h0 : ¬ x.ReadsZero k) :
    ∃ z, (x.balance k).outcome = .ok z ∧ z.IsBalancedTo k (x.balanceExponent k) := by
  cases k with
  | unsigned =>
    have hupper := (isPositive_iff.1 (not_lacksRule_unsigned_iff.1 h)).2
    rw [balance_unsigned h]
    exact exists_balanceUnsigned (lt_of_le_of_ne hupper (Ne.symm h0))
  | signed =>
    obtain ⟨hl, hu⟩ := not_or.1 h0
    rw [balance_signed]
    exact exists_balanceSigned hl hu
  | signedPositive | signedNegative => exact absurd trivial h

theorem balance_eq_error_iff (x : Interval b) (k : Kind) (e : Failure) :
    (x.balance k).outcome = .error e ↔
      e = .rejected (.unsupportedKinds .balance [k]) ∧ x.LacksRule k ∨
      e = .rejected (.outsideDomain .ceilLog) ∧ ¬ x.LacksRule k ∧ x.ReadsZero k :=
  Call.outcome_eq_error_iff_of_guards balance_of_lacksRule balance_of_readsZero
    (fun h h0 => (exists_balance h h0).imp fun _ => And.left) e

/-! ## Recognizing a balanced interval -/

theorem size_le_two_pow_bits (x : Interval b) : x.size ≤ 2 ^ b.bits := by
  have hl := x.lower.fits
  have hu := x.upper.fits
  have hrange := b.size_eq
  have hcast : ((2 ^ b.bits : ℕ) : ℤ) = 2 ^ b.bits := Nat.cast_pow 2 _
  have hpos : (0 : ℤ) < 2 ^ b.bits := Int.pow_pos (by decide)
  unfold IntType.Fits at hl hu
  unfold size
  omega

theorem isBalanced_of_nonempty (hx : x.isEmpty = false) (hk : k = .unsigned ∨ k = .signed) :
    (x.isBalanced k).outcome = .ok (decide (x.IsBalancedTo k (Nat.clog 2 x.size))) := by
  have hwidth := bitWidth_of_nonempty hx hk
  have hbits : Nat.clog 2 x.size ≤ b.bits := Nat.clog_le_of_le_pow (size_le_two_pow_bits x)
  generalize Nat.clog 2 x.size = m at hwidth hbits
  have htop := wide_fits_two_pow_sub_one hbits
  have hbottom := wide_fits_neg_two_pow hbits
  rw [isBalanced, Call.outcome_bind_of_ok hwidth, powerOfTwo_of_fits (wide_fits_two_pow hbits),
    Call.checked_ok, pure_bind, FixedInt.sub, FixedInt.val_one, FixedInt.fit_of_fits htop,
    Call.checked_ok, pure_bind]
  rcases hk with rfl | rfl
  · rfl
  · rw [if_neg (by decide), FixedInt.neg, FixedInt.fit_of_fits hbottom, Call.checked_ok, pure_bind]
    rfl

theorem isBalanced_of_empty (hx : x.isEmpty = true) :
    (x.isBalanced k).outcome = .error (.rejected .emptyInterval) :=
  Call.outcome_bind_of_error (bitWidth_of_empty hx) _

theorem isBalanced_eq_error_iff (x : Interval b) (k : Kind) (e : Failure) :
    (x.isBalanced k).outcome = .error e ↔
      e = .rejected .emptyInterval ∧ x.isEmpty = true ∨
      e = .rejected (.unsupportedKinds .bitWidth [k]) ∧ ¬ x.isEmpty = true ∧
        (k ≠ .unsigned ∧ k ≠ .signed) := by
  apply Call.outcome_eq_error_iff_of_guards isBalanced_of_empty
  · intro hx hk
    exact Call.outcome_bind_of_error (bitWidth_of_unsupported (Bool.not_eq_true _ ▸ hx) hk) _
  · intro hx hk
    rw [← not_or, not_not] at hk
    exact ⟨_, isBalanced_of_nonempty (Bool.not_eq_true _ ▸ hx) hk⟩

/-- Nothing about widths faults. The values of `n` bits are rejected for a number of bits outside
the range or for exact bounds that do not fit, a width for an empty interval and then for the kind,
and a balanced interval for the kind and then for a zero; it is never too wide for the type. -/
theorem widths_reject_without_fault (x : Interval b) (n : ℕ) (k : Kind) :
    ((ofBitWidth n k : Call (Interval b)).Faultless ∧ (x.bitWidth k).Faultless ∧
      (x.balance k).Faultless ∧ (x.isBalanced k).Faultless) ∧
    (∀ e, (ofBitWidth n k : Call (Interval b)).outcome = .error e ↔
      e = .rejected (.widthOutOfRange n) ∧ (n = 0 ∨ 32 < n) ∨
      e = .rejected (.widthOverflow n) ∧ ¬ (n = 0 ∨ 32 < n) ∧
        ¬ (b.intType.Fits (k.leastOf n) ∧ b.intType.Fits (k.greatestOf n))) ∧
    (∀ u : Interval b, (ofBitWidth n k).outcome = .ok u ↔
      ¬ (n = 0 ∨ 32 < n) ∧ u.lower.val = k.leastOf n ∧ u.upper.val = k.greatestOf n) ∧
    (∀ e, (x.bitWidth k).outcome = .error e ↔
      e = .rejected .emptyInterval ∧ x.isEmpty = true ∨
      e = .rejected (.unsupportedKinds .bitWidth [k]) ∧ ¬ x.isEmpty = true ∧
        (k ≠ .unsigned ∧ k ≠ .signed)) ∧
    (∀ e, (x.isBalanced k).outcome = .error e ↔
      e = .rejected .emptyInterval ∧ x.isEmpty = true ∨
      e = .rejected (.unsupportedKinds .bitWidth [k]) ∧ ¬ x.isEmpty = true ∧
        (k ≠ .unsigned ∧ k ≠ .signed)) ∧
    ∀ e, (x.balance k).outcome = .error e ↔
      e = .rejected (.unsupportedKinds .balance [k]) ∧ x.LacksRule k ∨
      e = .rejected (.outsideDomain .ceilLog) ∧ ¬ x.LacksRule k ∧ x.ReadsZero k := by
  have hvalues := ofBitWidth_eq_error_iff b n k
  have hwidth := bitWidth_eq_error_iff x k
  have hbalance := balance_eq_error_iff x k
  have hrecognize := isBalanced_eq_error_iff x k
  refine ⟨⟨?_, ?_, ?_, ?_⟩, hvalues, fun u => ofBitWidth_eq_ok_iff, hwidth, hrecognize, hbalance⟩
  · exact Call.faultless_of_rejections hvalues
  · exact Call.faultless_of_rejections hwidth
  · exact Call.faultless_of_rejections hbalance
  · exact Call.faultless_of_rejections hrecognize

end Interval

end Bitspan
