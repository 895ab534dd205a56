import Mathlib.Algebra.Order.Ring.Int
import Mathlib.Data.Nat.Log
import Mathlib.Tactic.Ring
import Bitspan.Proofs.Widths

set_option autoImplicit false

/-!
# The values of a number of bits

The least and the greatest value of `n` bits are powers of two up to one, and `ofBitWidth` gives
the interval between them exactly when both fit the bound type. That interval has `2 ^ n` values,
which ties it to the width: a part of it is at most `n` bits wide, and an interval of width `n` is a
part of it when it starts at zero, or with one bit more when it holds zero.
-/

namespace Bitspan

variable {b : BoundType}

namespace Kind

def leastOf (k : Kind) (n : ℕ) : ℤ := if k = .unsigned then 0 else -2 ^ (n - 1)

def greatestOf (k : Kind) (n : ℕ) : ℤ := if k = .unsigned then 2 ^ n - 1 else 2 ^ (n - 1) - 1

theorem leastOf_unsigned (n : ℕ) : unsigned.leastOf n = 0 := rfl

theorem greatestOf_unsigned (n : ℕ) : unsigned.greatestOf n = 2 ^ n - 1 := rfl

theorem leastOf_of_ne {k : Kind} (h : k ≠ .unsigned) (n : ℕ) : k.leastOf n = -2 ^ (n - 1) :=
  if_neg h

theorem greatestOf_of_ne {k : Kind} (h : k ≠ .unsigned) (n : ℕ) :
    k.greatestOf n = 2 ^ (n - 1) - 1 :=
  if_neg h

theorem not_isUnsigned {k : Kind} (h : k ≠ .unsigned) : ¬ k.isUnsigned = true :=
  mt of_decide_eq_true h

/-- With a sign or without, there are `2 ^ n` values of `n` bits. -/
theorem greatestOf_sub_leastOf (k : Kind) {n : ℕ} (hn : n ≠ 0) :
    k.greatestOf n - k.leastOf n + 1 = 2 ^ n := by
  by_cases hk : k = .unsigned
  · rw [hk, greatestOf_unsigned, leastOf_unsigned]
    ring
  · rw [greatestOf_of_ne hk, leastOf_of_ne hk]
    obtain ⟨m, rfl⟩ := Nat.exists_eq_succ_of_ne_zero hn
    rw [Nat.succ_sub_one, pow_succ]
    ring

end Kind

namespace Interval

variable {x u : Interval b} {k : Kind} {n width : ℕ}

theorem fits_two_pow_of_succ (h : b.intType.Fits (2 ^ (n + 1) - 1)) : b.intType.Fits (2 ^ n) := by
  have hpos : (0 : ℤ) < 2 ^ n := Int.pow_pos (by decide)
  rw [pow_succ] at h
  exact b.intType.fits_zero.of_between h hpos.le (by omega)

theorem fits_two_pow_sub_one (h : b.intType.Fits (2 ^ n)) : b.intType.Fits (2 ^ n - 1) := by
  have hpos : (0 : ℤ) < 2 ^ n := Int.pow_pos (by decide)
  exact b.intType.fits_zero.of_between h (by omega) (by omega)

/-- The least value of a type is one further from zero than the greatest. -/
theorem fits_neg_two_pow (h : b.intType.Fits (2 ^ n - 1)) : b.intType.Fits (-2 ^ n) := by
  have hpos : (0 : ℤ) < 2 ^ n := Int.pow_pos (by decide)
  have hb := b.least_eq
  unfold IntType.Fits at *
  omega

theorem allOnes_succ (h : b.intType.Fits (2 ^ n)) :
    (allOnes width (n + 1) : Call (Bound b)) =
      (FixedInt.ofInt? (2 ^ (n + 1) - 1)).elim (.rejectSilently (.widthOverflow width)) pure := by
  have hhalf : FixedInt.ofInt? (twoPow n) = some (⟨2 ^ n, h⟩ : Bound b) :=
    FixedInt.ofInt?_eq_some_iff.2 (cast_twoPow n).symm
  have hrest := fits_two_pow_sub_one h
  have hsum : (2 : ℤ) ^ n - 1 + 2 ^ n = 2 ^ (n + 1) - 1 := by
    rw [pow_succ]
    ring
  -- Past the half only the last sum can fail to fit, so both branches are read off that sum.
  rw [allOnes, hhalf, ← hsum]
  simp only [FixedInt.sub, FixedInt.val_one, FixedInt.fit_of_fits hrest, Call.checked_ok, pure_bind]
  cases (FixedInt.ofInt? (2 ^ n - 1 + 2 ^ n) : Option (Bound b)) <;> rfl

theorem allOnes_of_fits (h : b.intType.Fits (2 ^ n - 1)) :
    (allOnes width n : Call (Bound b)) = pure ⟨2 ^ n - 1, h⟩ := by
  cases n with
  | zero => rfl
  | succ n =>
    have hones : FixedInt.ofInt? (2 ^ (n + 1) - 1) = some (⟨_, h⟩ : Bound b) :=
      FixedInt.ofInt?_eq_some_iff.2 rfl
    rw [allOnes_succ (fits_two_pow_of_succ h), hones]
    rfl

theorem allOnes_of_not_fits (h : ¬ b.intType.Fits (2 ^ n - 1)) :
    (allOnes width n : Call (Bound b)) = .rejectSilently (.widthOverflow width) := by
  cases n with
  | zero => exact absurd b.intType.fits_zero h
  | succ n =>
    by_cases hhalf : b.intType.Fits (2 ^ n)
    · rw [allOnes_succ hhalf, FixedInt.ofInt?_eq_none_iff.2 h]
      rfl
    · rw [← cast_twoPow] at hhalf
      rw [allOnes, FixedInt.ofInt?_eq_none_iff.2 hhalf]

theorem widthBounds_unsigned_of_fits (hu : b.intType.Fits (2 ^ n - 1)) :
    widthBounds n .unsigned = pure (⟨0, ⟨2 ^ n - 1, hu⟩⟩ : Interval b) := by
  change (allOnes n n >>= fun upper => pure (⟨0, upper⟩ : Interval b)) = _
  rw [allOnes_of_fits hu, pure_bind]

theorem widthBounds_signed_of_fits (hk : k ≠ .unsigned) (hl : b.intType.Fits (-2 ^ (n - 1)))
    (hu : b.intType.Fits (2 ^ (n - 1) - 1)) :
    widthBounds n k = pure (⟨⟨-2 ^ (n - 1), hl⟩, ⟨2 ^ (n - 1) - 1, hu⟩⟩ : Interval b) := by
  have hpos : (0 : ℤ) < 2 ^ (n - 1) := Int.pow_pos (by decide)
  have hreflected : b.intType.Fits (-(2 ^ (n - 1) - 1)) :=
    hl.of_between b.intType.fits_zero (by omega) (by omega)
  have hlower : -(2 ^ (n - 1) - 1) - 1 = (-2 ^ (n - 1) : ℤ) := by ring
  rw [widthBounds, if_neg (Kind.not_isUnsigned hk), allOnes_of_fits hu, pure_bind, FixedInt.neg,
    FixedInt.fit_of_fits hreflected, Call.checked_ok, pure_bind, FixedInt.sub, FixedInt.val_one]
  simp only [hlower, FixedInt.fit_of_fits hl, Call.checked_ok, pure_bind]

theorem widthBounds_of_fits (hl : b.intType.Fits (k.leastOf n))
    (hu : b.intType.Fits (k.greatestOf n)) :
    widthBounds n k = pure (⟨⟨_, hl⟩, ⟨_, hu⟩⟩ : Interval b) := by
  by_cases hk : k = .unsigned
  · subst hk
    exact widthBounds_unsigned_of_fits hu
  · simp only [Kind.leastOf_of_ne hk, Kind.greatestOf_of_ne hk] at hl hu ⊢
    exact widthBounds_signed_of_fits hk hl hu

theorem widthBounds_of_not_fits
    (h : ¬ (b.intType.Fits (k.leastOf n) ∧ b.intType.Fits (k.greatestOf n))) :
    (widthBounds n k : Call (Interval b)) = .rejectSilently (.widthOverflow n) := by
  by_cases hk : k = .unsigned
  · subst hk
    have hu : ¬ b.intType.Fits (2 ^ n - 1) := fun hu => h ⟨b.intType.fits_zero, hu⟩
    change (allOnes n n >>= fun upper => pure (⟨0, upper⟩ : Interval b)) = _
    rw [allOnes_of_not_fits hu]
    rfl
  · rw [Kind.leastOf_of_ne hk, Kind.greatestOf_of_ne hk] at h
    have hu : ¬ b.intType.Fits (2 ^ (n - 1) - 1) := fun hu => h ⟨fits_neg_two_pow hu, hu⟩
    rw [widthBounds, if_neg (Kind.not_isUnsigned hk), allOnes_of_not_fits hu]
    rfl

theorem ofBitWidth_of_outside (h : n = 0 ∨ maxBitWidth < n) :
    (ofBitWidth n k : Call (Interval b)).outcome = .error (.rejected (.widthOutOfRange n)) := by
  rw [ofBitWidth, if_pos h]
  rfl

theorem ofBitWidth_of_not_fits (hn : ¬ (n = 0 ∨ maxBitWidth < n))
    (h : ¬ (b.intType.Fits (k.leastOf n) ∧ b.intType.Fits (k.greatestOf n))) :
    (ofBitWidth n k : Call (Interval b)).outcome = .error (.rejected (.widthOverflow n)) := by
  rw [ofBitWidth, if_neg hn, widthBounds_of_not_fits h]
  rfl

theorem ofBitWidth_of_fits (hn : ¬ (n = 0 ∨ maxBitWidth < n)) (hl : b.intType.Fits (k.leastOf n))
    (hu : b.intType.Fits (k.greatestOf n)) :
    (ofBitWidth n k).outcome = .ok (⟨⟨_, hl⟩, ⟨_, hu⟩⟩ : Interval b) := by
  rw [ofBitWidth, if_neg hn, widthBounds_of_fits hl hu]
  rfl

theorem ofBitWidth_eq_ok_iff :
    (ofBitWidth n k).outcome = .ok u ↔
      ¬ (n = 0 ∨ maxBitWidth < n) ∧ u.lower.val = k.leastOf n ∧ u.upper.val = k.greatestOf n := by
  by_cases hn : n = 0 ∨ maxBitWidth < n
  · rw [ofBitWidth_of_outside hn]
    exact iff_of_false nofun fun h => h.1 hn
  by_cases hfit : b.intType.Fits (k.leastOf n) ∧ b.intType.Fits (k.greatestOf n)
  · rw [ofBitWidth_of_fits hn hfit.1 hfit.2, Except.ok.injEq]
    constructor
    · rintro rfl
      exact ⟨hn, rfl, rfl⟩
    · rintro ⟨_, hl, hu⟩
      exact ext hl.symm hu.symm
  · rw [ofBitWidth_of_not_fits hn hfit]
    refine iff_of_false nofun ?_
    rintro ⟨_, hl, hu⟩
    exact hfit ⟨hl ▸ u.lower.fits, hu ▸ u.upper.fits⟩

theorem ofBitWidth_eq_error_iff (b : BoundType) (n : ℕ) (k : Kind) (e : Failure) :
    (ofBitWidth n k : Call (Interval b)).outcome = .error e ↔
      e = .rejected (.widthOutOfRange n) ∧ (n = 0 ∨ maxBitWidth < n) ∨
      e = .rejected (.widthOverflow n) ∧ ¬ (n = 0 ∨ maxBitWidth < n) ∧
        ¬ (b.intType.Fits (k.leastOf n) ∧ b.intType.Fits (k.greatestOf n)) := by
  apply Call.outcome_eq_error_iff_of_guards ofBitWidth_of_outside ofBitWidth_of_not_fits
  intro hn hfit
  obtain ⟨hl, hu⟩ := not_not.1 hfit
  exact ⟨_, ofBitWidth_of_fits hn hl hu⟩

/-! ## Widths against the values of a number of bits -/

theorem cast_size (hx : x.isEmpty = false) : (x.size : ℤ) = x.upper.val - x.lower.val + 1 := by
  rw [isEmpty_eq_false_iff] at hx
  unfold size
  omega

theorem size_eq_two_pow (h : x.upper.val - x.lower.val + 1 = 2 ^ n) : x.size = 2 ^ n := by
  have hcast : (2 : ℤ) ^ n = (2 ^ n : ℕ) := (Nat.cast_pow 2 n).symm
  rw [size, h, hcast, Int.toNat_natCast]

theorem size_of_ofBitWidth (h : (ofBitWidth n k).outcome = .ok u) : u.size = 2 ^ n := by
  obtain ⟨hn, hl, hu⟩ := ofBitWidth_eq_ok_iff.1 h
  apply size_eq_two_pow
  rw [hl, hu, Kind.greatestOf_sub_leastOf k (not_or.1 hn).1]

theorem subset_ofBitWidth_unsigned_iff (hx : x.isEmpty = false)
    (hu : (ofBitWidth n .unsigned).outcome = .ok u) (h0 : x.lower.val = 0) :
    x ⊆ u ↔ Nat.clog 2 x.size ≤ n := by
  obtain ⟨_, hl, hg⟩ := ofBitWidth_eq_ok_iff.1 hu
  have hsize := cast_size hx
  have hpow : (x.size : ℤ) ≤ 2 ^ n ↔ x.size ≤ 2 ^ n := by exact_mod_cast Iff.rfl
  rw [Nat.clog_le_iff_le_pow (by decide), ← hpow, subset_iff hx, hl, hg,
    Kind.leastOf_unsigned, Kind.greatestOf_unsigned]
  omega

/-- One bit beyond the width makes room for the side of zero that the interval may not use. -/
theorem subset_ofBitWidth_signed (hx : x.isEmpty = false)
    (hu : (ofBitWidth n .signed).outcome = .ok u) (h0 : (0 : ℤ) ∈ x)
    (hn : Nat.clog 2 x.size + 1 ≤ n) : x ⊆ u := by
  obtain ⟨_, hl, hg⟩ := ofBitWidth_eq_ok_iff.1 hu
  have hsize := cast_size hx
  have hpow : (x.size : ℤ) ≤ 2 ^ (n - 1) := by
    exact_mod_cast (Nat.clog_le_iff_le_pow (by decide)).1 (by omega : Nat.clog 2 x.size ≤ n - 1)
  rw [Kind.leastOf_of_ne (by decide)] at hl
  rw [Kind.greatestOf_of_ne (by decide)] at hg
  obtain ⟨hlow, hhigh⟩ := h0
  rw [subset_iff hx]
  omega

/-- The width is the least number of bits that counts the values. No part of the values of `n` bits
is wider than `n`; the converse holds from zero up, and around zero with one bit more. -/
theorem bitWidth_adjoint_ofBitWidth (x : Interval b) (k : Kind) (hx : x.isEmpty = false)
    (hk : k = .unsigned ∨ k = .signed) :
    ∃ m, (x.bitWidth k).outcome = .ok m ∧ IsLeast {m : ℕ | x.size ≤ 2 ^ m} m ∧
      ∀ (n : ℕ) (u : Interval b), (ofBitWidth n k).outcome = .ok u →
        (x ⊆ u → m ≤ n) ∧ (x = u → m = n) ∧
        (k = .unsigned → x.lower.val = 0 → (x ⊆ u ↔ m ≤ n)) ∧
        (k = .signed → (0 : ℤ) ∈ x → m + 1 ≤ n → x ⊆ u) := by
  refine ⟨_, bitWidth_of_nonempty hx hk, isLeast_clog x.size, ?_⟩
  intro n u hu
  have hsize := size_of_ofBitWidth hu
  refine ⟨?_, ?_, ?_, ?_⟩
  · intro hxu
    exact Nat.clog_le_of_le_pow ((size_mono hx hxu).trans hsize.le)
  · rintro rfl
    rw [hsize, Nat.clog_pow 2 n (by decide)]
  · rintro rfl h0
    exact subset_ofBitWidth_unsigned_iff hx hu h0
  · rintro rfl h0 hn
    exact subset_ofBitWidth_signed hx hu h0 hn

/-- A signed interval of width seven that takes eight bits, and an unsigned one that takes seven. -/
theorem bitWidth_adjoint_ofBitWidth_seven :
    ((between (-1) 126 : Interval .int8).bitWidth .signed).outcome = .ok 7 ∧
    (between (-1) 126 : Interval .int8) ⊆ between (-128) 127 ∧
    ¬ (between (-1) 126 : Interval .int8) ⊆ between (-64) 63 ∧
    (between 0 126 : Interval .int8) ⊆ between 0 127 ∧
    IsLeast {m : ℕ | (between 0 126 : Interval .int8).size ≤ 2 ^ m} 7 := by
  obtain ⟨m, hm, _, signed⟩ :=
    bitWidth_adjoint_ofBitWidth (between (-1) 126 : Interval .int8) .signed rfl (.inr rfl)
  obtain ⟨j, hj, hleast, unsigned⟩ :=
    bitWidth_adjoint_ofBitWidth (between 0 126 : Interval .int8) .unsigned rfl (.inl rfl)
  have hseven : ((between (-1) 126 : Interval .int8).bitWidth .signed).outcome = .ok 7 := by
    decide +kernel
  have hseven' : ((between 0 126 : Interval .int8).bitWidth .unsigned).outcome = .ok 7 := by
    decide +kernel
  rw [hseven] at hm
  rw [hseven'] at hj
  cases hm
  cases hj
  obtain ⟨_, _, _, around⟩ := signed 8 (between (-128) 127) rfl
  obtain ⟨_, _, fromZero, _⟩ := unsigned 7 (between 0 127) rfl
  refine ⟨hseven, around rfl (by decide) (by decide), ?_, (fromZero rfl rfl).2 le_rfl, hleast⟩
  rw [subset_iff rfl]
  decide

end Interval

end Bitspan
