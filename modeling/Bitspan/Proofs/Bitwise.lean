import Mathlib.Data.Nat.Factorization.Basic
import Mathlib.Algebra.Order.Archimedean.Basic
import Mathlib.Algebra.Order.Ring.Int
import Mathlib.Data.Nat.Bitwise
import Bitspan.Proofs.Balance
import Bitspan.Proofs.Lattice

set_option autoImplicit false

/-!
# Bitwise results and the hull

The bitwise operators give the hull of their operands, which does not hold every bitwise result. It
bounds a conjunction from above and a disjunction from below. On the other side, and for exclusive
disjunctions on both, `Closed` says of which hulls all results are members, whatever the operands
joined to it. The values of `n` bits are such a hull, so no result needs more bits than its operands.
-/

namespace Bitspan

variable {b : BoundType}

/-! ## Words -/

namespace Word

variable {w : ℕ} {p q : BitVec w}

theorem toInt_and_of_nonneg (hp : 0 ≤ p.toInt) :
    0 ≤ (p &&& q).toInt ∧ (p &&& q).toInt ≤ p.toInt := by
  have hmsb : p.msb = false := by
    rw [BitVec.msb_eq_toInt]
    simpa using hp
  have hand : (p &&& q).msb = false := by
    rw [BitVec.msb_and, hmsb, Bool.false_and]
  rw [BitVec.toInt_eq_toNat_of_msb hmsb, BitVec.toInt_eq_toNat_of_msb hand, BitVec.toNat_and]
  have hle : p.toNat &&& q.toNat ≤ p.toNat := Nat.and_le_left
  omega

theorem toInt_and_of_neg (hp : p.toInt < 0) (hq : q.toInt < 0) : (p &&& q).toInt ≤ p.toInt := by
  have hand : (p &&& q).msb = true := by
    rw [BitVec.msb_and, BitVec.msb_eq_toInt, BitVec.msb_eq_toInt]
    simp [hp, hq]
  have hmsb : p.msb = true := by
    rw [BitVec.msb_eq_toInt]
    simpa using hp
  rw [BitVec.toInt_eq_msb_cond, BitVec.toInt_eq_msb_cond, if_pos hand, if_pos hmsb,
    BitVec.toNat_and]
  have hle : p.toNat &&& q.toNat ≤ p.toNat := Nat.and_le_left
  omega

/-- Of two words with the same sign, the conjunction is at most either. -/
theorem toInt_and_le (h : p.toInt < 0 ↔ q.toInt < 0) : (p &&& q).toInt ≤ p.toInt := by
  rcases lt_or_ge p.toInt 0 with hp | hp
  · exact toInt_and_of_neg hp (h.1 hp)
  · exact (toInt_and_of_nonneg hp).2

theorem toInt_and_le_max (p q : BitVec w) : (p &&& q).toInt ≤ max p.toInt q.toInt := by
  rcases lt_or_ge q.toInt 0 with hq | hq
  · rcases lt_or_ge p.toInt 0 with hp | hp
    · exact (toInt_and_of_neg hp hq).trans (le_max_left _ _)
    · exact (toInt_and_of_nonneg hp).2.trans (le_max_left _ _)
  · rw [BitVec.and_comm]
    exact (toInt_and_of_nonneg hq).2.trans (le_max_right _ _)

theorem neg_one_le_toInt_and (hp : -1 ≤ p.toInt) (hq : -1 ≤ q.toInt) : -1 ≤ (p &&& q).toInt := by
  rcases lt_or_ge p.toInt 0 with hpn | hpn
  · rcases lt_or_ge q.toInt 0 with hqn | hqn
    · have hpq : p = q := BitVec.toInt_inj.1 (by omega)
      rwa [hpq, BitVec.and_self]
    · rw [BitVec.and_comm]
      have h := (toInt_and_of_nonneg (q := p) hqn).1
      omega
  · have h := (toInt_and_of_nonneg (q := q) hpn).1
    omega

theorem toInt_not (hw : 0 < w) (p : BitVec w) : (~~~p).toInt = -1 - p.toInt := by
  have hlt := p.isLt
  rw [BitVec.toInt_eq_msb_cond, BitVec.toInt_eq_msb_cond, BitVec.msb_not, BitVec.toNat_not,
    decide_eq_true hw, Bool.true_and]
  generalize 2 ^ w = n at hlt
  cases p.msb
  · simp only [Bool.not_false, if_true, Bool.false_eq_true, if_false]
    omega
  · simp only [Bool.not_true, if_true, Bool.false_eq_true, if_false]
    omega

theorem toInt_emod_two (hw : 0 < w) (p : BitVec w) : p.toInt % 2 = p.toNat % 2 := by
  obtain ⟨v, rfl⟩ := Nat.exists_eq_succ_of_ne_zero hw.ne'
  have hpow : ((2 ^ (v + 1) : ℕ) : ℤ) = 2 * (2 ^ v : ℕ) := by
    rw [pow_succ']
    push_cast
    rfl
  rw [BitVec.toInt_eq_msb_cond, hpow]
  split <;> omega

theorem toInt_and_emod_two (hw : 0 < w) (hq : q.toInt % 2 = 0) : (p &&& q).toInt % 2 = 0 := by
  rw [toInt_emod_two hw] at hq ⊢
  have h : (p.toNat &&& q.toNat) % 2 ^ 1 = p.toNat % 2 ^ 1 &&& q.toNat % 2 ^ 1 :=
    Nat.and_mod_two_pow
  rw [BitVec.toNat_and]
  rw [pow_one, show q.toNat % 2 = 0 by omega, Nat.and_zero] at h
  omega

theorem toInt_ediv_two_pow (p : BitVec w) (k : ℕ) : p.toInt / 2 ^ k = (p.sshiftRight k).toInt := by
  rw [BitVec.toInt_sshiftRight, Int.shiftRight_eq_div_pow]
  push_cast
  rfl

end Word

theorem BoundType.bits_pos (b : BoundType) : 0 < b.bits := by
  cases b <;> decide

theorem toInt_ofInt_of_fits {a : ℤ} (ha : b.intType.Fits a) : (BitVec.ofInt b.bits a).toInt = a := by
  have hl := b.least_eq
  have hg := b.greatest_eq
  unfold IntType.Fits at ha
  exact BitVec.toInt_ofInt_eq_self b.bits_pos (by omega) (by omega)

theorem fits_ediv_two_pow {a : ℤ} (ha : b.intType.Fits a) (k : ℕ) : b.intType.Fits (a / 2 ^ k) := by
  have hpos : (0 : ℤ) < 2 ^ k := Int.pow_pos (by decide)
  rcases le_total 0 a with h | h
  · exact b.intType.fits_zero.of_between ha (Int.ediv_nonneg h hpos.le) (Int.ediv_le_self _ h)
  · refine ha.of_between b.intType.fits_zero ?_ (Int.ediv_nonpos_of_nonpos_of_neg h hpos)
    rw [Int.le_ediv_iff_mul_le hpos]
    exact mul_le_of_one_le_right h hpos

theorem fits_complement {a : ℤ} (ha : b.intType.Fits a) : b.intType.Fits (-1 - a) := by
  have hl := b.least_eq
  unfold IntType.Fits at *
  omega

/-! ## Results on integers -/

inductive BitwiseOp where
  | and
  | or
  | xor

namespace BitwiseOp

def onWords {w : ℕ} : BitwiseOp → BitVec w → BitVec w → BitVec w
  | and, p, q => p &&& q
  | or, p, q => p ||| q
  | xor, p, q => p ^^^ q

/-- The operation on two's complement words of the bound type. -/
def result (b : BoundType) (op : BitwiseOp) (a c : ℤ) : ℤ :=
  (op.onWords (BitVec.ofInt b.bits a) (BitVec.ofInt b.bits c)).toInt

def apply : BitwiseOp → Interval b → Interval b → Interval b
  | and, x, y => x.bitAnd y
  | or, x, y => x.bitOr y
  | xor, x, y => x.bitXor y

variable {op : BitwiseOp} {a c l u : ℤ}

/-- Dropping the low `k` bits of both operands drops those of the result. -/
theorem result_ediv_two_pow (ha : b.intType.Fits a) (hc : b.intType.Fits c) (k : ℕ) :
    op.result b a c / 2 ^ k = op.result b (a / 2 ^ k) (c / 2 ^ k) := by
  have shift : ∀ {v : ℤ}, b.intType.Fits v →
      (BitVec.ofInt b.bits v).sshiftRight k = BitVec.ofInt b.bits (v / 2 ^ k) := by
    intro v hv
    rw [← BitVec.toInt_inj, ← Word.toInt_ediv_two_pow, toInt_ofInt_of_fits hv,
      toInt_ofInt_of_fits (fits_ediv_two_pow hv k)]
  unfold result
  rw [← shift ha, ← shift hc, Word.toInt_ediv_two_pow]
  cases op with
  | and => exact congrArg _ (BitVec.sshiftRight_and_distrib _ _ _)
  | or => exact congrArg _ (BitVec.sshiftRight_or_distrib _ _ _)
  | xor => exact congrArg _ (BitVec.sshiftRight_xor_distrib _ _ _)

theorem and_le_max (ha : b.intType.Fits a) (hc : b.intType.Fits c) :
    and.result b a c ≤ max a c := by
  have h := Word.toInt_and_le_max (BitVec.ofInt b.bits a) (BitVec.ofInt b.bits c)
  rwa [toInt_ofInt_of_fits ha, toInt_ofInt_of_fits hc] at h

theorem and_le_of_alike (ha : b.intType.Fits a) (hc : b.intType.Fits c) (h : a < 0 ↔ c < 0) :
    and.result b a c ≤ a := by
  rw [← toInt_ofInt_of_fits ha, ← toInt_ofInt_of_fits hc] at h
  exact (Word.toInt_and_le h).trans (toInt_ofInt_of_fits ha).le

theorem neg_one_le_and (ha : b.intType.Fits a) (hc : b.intType.Fits c) (hal : -1 ≤ a)
    (hcl : -1 ≤ c) : -1 ≤ and.result b a c := by
  rw [← toInt_ofInt_of_fits ha] at hal
  rw [← toInt_ofInt_of_fits hc] at hcl
  exact Word.neg_one_le_toInt_and hal hcl

theorem and_self (ha : b.intType.Fits a) : and.result b a a = a := by
  rw [result, onWords, BitVec.and_self, toInt_ofInt_of_fits ha]

theorem and_emod_two (hc : b.intType.Fits c) (h : c % 2 = 0) : and.result b a c % 2 = 0 := by
  rw [← toInt_ofInt_of_fits hc] at h
  exact Word.toInt_and_emod_two b.bits_pos h

theorem ofInt_complement (ha : b.intType.Fits a) :
    BitVec.ofInt b.bits (-1 - a) = ~~~BitVec.ofInt b.bits a := by
  rw [← BitVec.toInt_inj, Word.toInt_not b.bits_pos, toInt_ofInt_of_fits ha,
    toInt_ofInt_of_fits (fits_complement ha)]

theorem or_eq_complement_and (ha : b.intType.Fits a) (hc : b.intType.Fits c) :
    or.result b a c = -1 - and.result b (-1 - a) (-1 - c) := by
  simp only [result, onWords]
  rw [ofInt_complement ha, ofInt_complement hc, ← Word.toInt_not b.bits_pos, ← BitVec.not_or,
    BitVec.not_not]

theorem xor_self (a : ℤ) : xor.result b a a = 0 := by
  rw [result, onWords, BitVec.xor_self, BitVec.toInt_zero]

theorem xor_neg_one (ha : b.intType.Fits a) : xor.result b a (-1) = -1 - a := by
  have hone : BitVec.ofInt b.bits (-1) = BitVec.allOnes b.bits := by
    rw [BitVec.ofInt_neg, BitVec.ofInt_ofNat, BitVec.neg_one_eq_allOnes]
  rw [result, onWords, hone, BitVec.xor_allOnes, Word.toInt_not b.bits_pos, toInt_ofInt_of_fits ha]

/-! ## Conjunctions and the lower bound -/

/-- The integers from `l` to `u` differ only in low bits that `l` lacks, or `l` is the negation of a
power of two. -/
def LowerAligned (l u : ℤ) : Prop :=
  (∃ k : ℕ, 2 ^ k ∣ l ∧ u < l + 2 ^ k) ∨ ∃ k : ℕ, l = -2 ^ k

theorem ediv_eq_of_lt_add {k : ℕ} {v : ℤ} (hk : 2 ^ k ∣ l) (hl : l ≤ v) (hu : v < l + 2 ^ k) :
    v / 2 ^ k = l / 2 ^ k := by
  rw [Int.ediv_eq_iff_of_pos (Int.pow_pos (by decide)), Int.ediv_mul_cancel hk]
  exact ⟨hl, hu⟩

theorem le_and_of_lowerAligned (h : LowerAligned l u) (ha : b.intType.Fits a)
    (hc : b.intType.Fits c) (hal : l ≤ a) (hau : a ≤ u) (hcl : l ≤ c) (hcu : c ≤ u) :
    l ≤ and.result b a c := by
  rcases h with ⟨k, hk, hu⟩ | ⟨k, rfl⟩
  · have hpos : (0 : ℤ) < 2 ^ k := Int.pow_pos (by decide)
    have high : and.result b a c / 2 ^ k = l / 2 ^ k := by
      have hfit := fits_ediv_two_pow ha k
      rw [ediv_eq_of_lt_add hk hal (hau.trans_lt hu)] at hfit
      rw [result_ediv_two_pow ha hc, ediv_eq_of_lt_add hk hal (hau.trans_lt hu),
        ediv_eq_of_lt_add hk hcl (hcu.trans_lt hu), and_self hfit]
    calc
      l = l / 2 ^ k * 2 ^ k := (Int.ediv_mul_cancel hk).symm
      _ = and.result b a c / 2 ^ k * 2 ^ k := by rw [high]
      _ ≤ and.result b a c := Int.ediv_mul_le _ hpos.ne'
  · have hpos : (0 : ℤ) < 2 ^ k := Int.pow_pos (by decide)
    have high : ∀ {v : ℤ}, -2 ^ k ≤ v ↔ -1 ≤ v / 2 ^ k := by
      intro v
      rw [Int.le_ediv_iff_mul_le hpos, neg_one_mul]
    rw [high, result_ediv_two_pow ha hc]
    exact neg_one_le_and (fits_ediv_two_pow ha k) (fits_ediv_two_pow hc k) (high.1 hal) (high.1 hcl)

theorem exists_two_pow_mul_odd (hl : l ≠ 0) : ∃ (k : ℕ) (n : ℤ), l = 2 ^ k * n ∧ n % 2 = 1 := by
  obtain ⟨k, m, ⟨j, hj⟩, hm⟩ := Nat.exists_eq_two_pow_mul_odd (Int.natAbs_ne_zero.2 hl)
  have hcast : (l.natAbs : ℤ) = 2 ^ k * m := by
    rw [hm]
    push_cast
    rfl
  rcases Int.natAbs_eq l with h | h
  · exact ⟨k, m, by rw [h, hcast], by omega⟩
  · exact ⟨k, -m, by rw [h, hcast, mul_neg], by omega⟩

/-- The least bit of `l` is missing from the next multiple of its value, so that multiple has to lie
beyond `u`. -/
theorem lowerAligned_of_le_and (hl : b.intType.Fits l) (hu : b.intType.Fits u)
    (h : ∀ a c, l ≤ a → a ≤ u → l ≤ c → c ≤ u → l ≤ and.result b a c) : LowerAligned l u := by
  by_cases hzero : l = 0
  · have hg := b.greatest_eq
    have hug := hu.2
    exact .inl ⟨b.bits - 1, hzero ▸ dvd_zero _, by omega⟩
  obtain ⟨k, n, rfl, hodd⟩ := exists_two_pow_mul_odd hzero
  have hpos : (0 : ℤ) < 2 ^ k := Int.pow_pos (by decide)
  by_cases hone : n = -1
  · exact .inr ⟨k, by rw [hone, mul_neg_one]⟩
  refine .inl ⟨k, dvd_mul_right _ _, not_le.1 fun hle => ?_⟩
  have hnext : b.intType.Fits (2 ^ k * n + 2 ^ k) := hl.of_between hu (by omega) hle
  have hn : 2 ^ k * n / 2 ^ k = n := Int.mul_ediv_cancel_left n hpos.ne'
  have hn' : (2 ^ k * n + 2 ^ k) / 2 ^ k = n + 1 := by
    rw [← mul_add_one, Int.mul_ediv_cancel_left _ hpos.ne']
  have hfit := fits_ediv_two_pow hl k
  have hfit' := fits_ediv_two_pow hnext k
  rw [hn] at hfit
  rw [hn'] at hfit'
  have hbound := h _ _ le_rfl (by omega) (by omega) hle
  have hhigh := Int.ediv_le_ediv hpos hbound
  rw [result_ediv_two_pow hl hnext, hn, hn'] at hhigh
  have hle' := and_le_of_alike hfit hfit' (by omega)
  have heven := and_emod_two (a := n) hfit' (by omega)
  omega

/-! ## Disjunctions and the upper bound -/

theorem min_le_or (ha : b.intType.Fits a) (hc : b.intType.Fits c) : min a c ≤ or.result b a c := by
  have h := and_le_max (fits_complement ha) (fits_complement hc)
  rw [or_eq_complement_and ha hc]
  omega

theorem or_le_of_lowerAligned (h : LowerAligned (-1 - u) (-1 - l)) (ha : b.intType.Fits a)
    (hc : b.intType.Fits c) (hal : l ≤ a) (hau : a ≤ u) (hcl : l ≤ c) (hcu : c ≤ u) :
    or.result b a c ≤ u := by
  have hand := le_and_of_lowerAligned h (fits_complement ha) (fits_complement hc) (by omega)
    (by omega) (by omega) (by omega)
  rw [or_eq_complement_and ha hc]
  omega

theorem lowerAligned_of_or_le (hl : b.intType.Fits l) (hu : b.intType.Fits u)
    (h : ∀ a c, l ≤ a → a ≤ u → l ≤ c → c ≤ u → or.result b a c ≤ u) :
    LowerAligned (-1 - u) (-1 - l) := by
  apply lowerAligned_of_le_and (fits_complement hu) (fits_complement hl)
  intro a c hal hau hcl hcu
  have ha : b.intType.Fits a := (fits_complement hu).of_between (fits_complement hl) hal hau
  have hc : b.intType.Fits c := (fits_complement hu).of_between (fits_complement hl) hcl hcu
  have hor := h (-1 - a) (-1 - c) (by omega) (by omega) (by omega) (by omega)
  rw [or_eq_complement_and (fits_complement ha) (fits_complement hc), sub_sub_cancel,
    sub_sub_cancel] at hor
  omega

/-! ## Exclusive disjunctions -/

theorem xor_natCast {m n : ℕ} (h : b.intType.Fits (m ^^^ n : ℕ)) :
    xor.result b m n = (m ^^^ n : ℕ) := by
  simp only [result, onWords, BitVec.ofInt_natCast, ← BitVec.ofNat_xor]
  rw [← BitVec.ofInt_natCast]
  exact toInt_ofInt_of_fits h

theorem two_pow_xor_pred (k : ℕ) : 2 ^ k ^^^ (2 ^ k - 1) = 2 ^ (k + 1) - 1 := by
  apply Nat.eq_of_testBit_eq
  intro i
  simp only [Nat.testBit_xor, Nat.testBit_two_pow, Nat.testBit_two_pow_sub_one]
  grind

theorem xor_comm (a c : ℤ) : xor.result b a c = xor.result b c a := by
  rw [result, onWords, BitVec.xor_comm]
  rfl

theorem ediv_two_pow_eq_zero_iff {k : ℕ} : a / 2 ^ k = 0 ↔ 0 ≤ a ∧ a ≤ 2 ^ k - 1 := by
  rw [Int.ediv_eq_iff_of_pos (Int.pow_pos (by decide))]
  omega

theorem ediv_two_pow_eq_neg_one_iff {k : ℕ} : a / 2 ^ k = -1 ↔ -2 ^ k ≤ a ∧ a < 0 := by
  rw [Int.ediv_eq_iff_of_pos (Int.pow_pos (by decide))]
  omega

theorem xor_mem_of_nonneg {k : ℕ} (ha : b.intType.Fits a) (hc : b.intType.Fits c)
    (hak : 0 ≤ a ∧ a ≤ 2 ^ k - 1) (hck : 0 ≤ c ∧ c ≤ 2 ^ k - 1) :
    0 ≤ xor.result b a c ∧ xor.result b a c ≤ 2 ^ k - 1 := by
  rw [← ediv_two_pow_eq_zero_iff] at hak hck ⊢
  rw [result_ediv_two_pow ha hc, hak, hck, xor_self]

/-- Above the low `k` bits each operand is all zeros or all ones, and so is the result. -/
theorem xor_mem_of_signed {k : ℕ} (ha : b.intType.Fits a) (hc : b.intType.Fits c)
    (hak : -2 ^ k ≤ a ∧ a ≤ 2 ^ k - 1) (hck : -2 ^ k ≤ c ∧ c ≤ 2 ^ k - 1) :
    -2 ^ k ≤ xor.result b a c ∧ xor.result b a c ≤ 2 ^ k - 1 := by
  have sides : ∀ v : ℤ, -2 ^ k ≤ v ∧ v ≤ 2 ^ k - 1 ↔ v / 2 ^ k = 0 ∨ v / 2 ^ k = -1 := by
    intro v
    have hpos : (0 : ℤ) < 2 ^ k := Int.pow_pos (by decide)
    rw [ediv_two_pow_eq_zero_iff, ediv_two_pow_eq_neg_one_iff]
    omega
  rw [sides] at hak hck ⊢
  rw [result_ediv_two_pow ha hc]
  rcases hak with hak | hak <;> rcases hck with hck | hck
  · rw [hak, hck]
    exact .inl (xor_self 0)
  · rw [hak, hck]
    exact .inr (xor_neg_one b.intType.fits_zero)
  · rw [hak, hck, xor_comm]
    exact .inr (xor_neg_one b.intType.fits_zero)
  · rw [hak, hck]
    exact .inl (xor_self (-1))

theorem fits_two_pow_succ_sub_one {k : ℕ} (h : b.intType.Fits (2 ^ k)) :
    b.intType.Fits (2 ^ (k + 1) - 1) := by
  have hlt : (2 : ℤ) ^ k < 2 ^ (b.bits - 1) := by
    have hg := b.greatest_eq
    have hk := h.2
    omega
  have hk : k < b.bits - 1 := (pow_lt_pow_iff_right₀ (by decide)).1 hlt
  exact Interval.fits_two_pow_sub_one_of_lt hk

theorem xor_two_pow_pred {k : ℕ} (h : b.intType.Fits (2 ^ k)) :
    xor.result b (2 ^ k) (2 ^ k - 1) = 2 ^ (k + 1) - 1 := by
  have hcast : ∀ j : ℕ, ((2 ^ j - 1 : ℕ) : ℤ) = 2 ^ j - 1 := by
    intro j
    rw [Nat.cast_sub Nat.one_le_two_pow]
    push_cast
    rfl
  have hpow : ((2 ^ k : ℕ) : ℤ) = 2 ^ k := Nat.cast_pow 2 k
  have hxor := xor_natCast (b := b) (m := 2 ^ k) (n := 2 ^ k - 1) (by
    rw [two_pow_xor_pred, hcast]
    exact fits_two_pow_succ_sub_one h)
  rwa [two_pow_xor_pred, hcast, hcast, hpow] at hxor

/-- A power of two and its predecessor give all ones below the next power of two. -/
theorem exists_eq_two_pow_sub_one (hu : b.intType.Fits u) (h0 : 0 ≤ u)
    (h : ∀ a c, 0 ≤ a → a ≤ u → 0 ≤ c → c ≤ u → xor.result b a c ≤ u) :
    ∃ k : ℕ, u = 2 ^ k - 1 := by
  obtain ⟨k, hle, hlt⟩ := exists_nat_pow_near (show 1 ≤ u + 1 by omega) (show 1 < 2 by decide)
  have hpos : (0 : ℤ) < 2 ^ k := Int.pow_pos (by decide)
  refine ⟨k, by_contra fun hne => ?_⟩
  have hfit : b.intType.Fits (2 ^ k) :=
    b.intType.fits_zero.of_between hu hpos.le (by omega)
  have hbound := h (2 ^ k) (2 ^ k - 1) hpos.le (by omega) (by omega) (by omega)
  rw [xor_two_pow_pred hfit] at hbound
  omega

theorem xor_aligned_of_mem (hl : b.intType.Fits l) (hu : b.intType.Fits u) (hlu : l ≤ u)
    (h : ∀ a c, l ≤ a → a ≤ u → l ≤ c → c ≤ u →
      l ≤ xor.result b a c ∧ xor.result b a c ≤ u) :
    ∃ k : ℕ, u = 2 ^ k - 1 ∧ (l = 0 ∨ l = -2 ^ k) := by
  have hzero := h l l le_rfl hlu le_rfl hlu
  rw [xor_self] at hzero
  obtain ⟨k, hk⟩ := exists_eq_two_pow_sub_one hu hzero.2 fun a c ha hau hc hcu =>
    (h a c (hzero.1.trans ha) hau (hzero.1.trans hc) hcu).2
  refine ⟨k, hk, or_iff_not_imp_left.2 fun hne => ?_⟩
  -- With -1 among the operands, the complement of each bound is a result.
  have hlower := h l (-1) le_rfl hlu (by omega) (by omega)
  have hupper := h u (-1) hlu le_rfl (by omega) (by omega)
  rw [xor_neg_one hl] at hlower
  rw [xor_neg_one hu] at hupper
  omega

/-! ## Closed hulls -/

/-- No bitwise result of two members of the interval lies outside it. Complements exchange
conjunctions with disjunctions and the two bounds with each other. -/
def Closed : BitwiseOp → Interval b → Prop
  | and, h => LowerAligned h.lower.val h.upper.val
  | or, h => LowerAligned (-1 - h.upper.val) (-1 - h.lower.val)
  | xor, h => ∃ k : ℕ, h.upper.val = 2 ^ k - 1 ∧ (h.lower.val = 0 ∨ h.lower.val = -2 ^ k)

variable {h x y : Interval b}

theorem Closed.result_mem (hop : op.Closed h) (ha : a ∈ h) (hc : c ∈ h) : op.result b a c ∈ h := by
  have hfa := Interval.fits_of_mem ha
  have hfc := Interval.fits_of_mem hc
  cases op with
  | and =>
    exact ⟨le_and_of_lowerAligned hop hfa hfc ha.1 ha.2 hc.1 hc.2,
      (and_le_max hfa hfc).trans (max_le ha.2 hc.2)⟩
  | or =>
    exact ⟨(le_min ha.1 hc.1).trans (min_le_or hfa hfc),
      or_le_of_lowerAligned hop hfa hfc ha.1 ha.2 hc.1 hc.2⟩
  | xor =>
    obtain ⟨k, hk, hl | hl⟩ := hop
    · rw [Interval.mem_def, hk, hl] at ha hc ⊢
      exact xor_mem_of_nonneg hfa hfc ha hc
    · rw [Interval.mem_def, hk, hl] at ha hc ⊢
      exact xor_mem_of_signed hfa hfc ha hc

theorem closed_of_result_mem (hh : h.isEmpty = false)
    (hop : ∀ a ∈ h, ∀ c ∈ h, op.result b a c ∈ h) : op.Closed h := by
  have hmem : ∀ a c, h.lower.val ≤ a → a ≤ h.upper.val → h.lower.val ≤ c → c ≤ h.upper.val →
      op.result b a c ∈ h := fun a c hal hau hcl hcu => hop a ⟨hal, hau⟩ c ⟨hcl, hcu⟩
  cases op with
  | and =>
    exact lowerAligned_of_le_and h.lower.fits h.upper.fits fun a c hal hau hcl hcu =>
      (hmem a c hal hau hcl hcu).1
  | or =>
    exact lowerAligned_of_or_le h.lower.fits h.upper.fits fun a c hal hau hcl hcu =>
      (hmem a c hal hau hcl hcu).2
  | xor =>
    exact xor_aligned_of_mem h.lower.fits h.upper.fits (Interval.isEmpty_eq_false_iff.1 hh) hmem

theorem apply_eq_hull (op : BitwiseOp) (x y : Interval b) : op.apply x y = x.hull y := by
  cases op <;> rfl

theorem hull_self (h : Interval b) : h.hull h = h := by
  apply Interval.ext
  · simp only [Interval.lower_hull, FixedInt.val_min, min_self]
  · simp only [Interval.upper_hull, FixedInt.val_max, max_self]

theorem Closed.of_xor (hx : xor.Closed h) (op : BitwiseOp) : op.Closed h := by
  obtain ⟨k, hk, hl⟩ := hx
  cases op with
  | and =>
    rcases hl with hl | hl
    · exact .inl ⟨k, hl ▸ dvd_zero _, by omega⟩
    · exact .inr ⟨k, hl⟩
  | or => exact .inr ⟨k, by omega⟩
  | xor => exact ⟨k, hk, hl⟩

theorem closed_ofBitWidth {n : ℕ} {k : Kind} {u : Interval b}
    (hu : (Interval.ofBitWidth n k).outcome = .ok u) (op : BitwiseOp) : op.Closed u := by
  obtain ⟨_, hl, hg⟩ := Interval.ofBitWidth_eq_ok_iff.1 hu
  apply Closed.of_xor
  by_cases hk : k = .unsigned
  · subst hk
    exact ⟨n, hg, .inl hl⟩
  · rw [Kind.leastOf_of_ne hk] at hl
    rw [Kind.greatestOf_of_ne hk] at hg
    exact ⟨n - 1, hg, .inr hl⟩

/-- A hull holds the bitwise results of every two operands joined to it exactly when it is closed.
In any case it bounds conjunctions from above and disjunctions from below, and operands among the
values of `n` bits have their results there too. -/
theorem hull_holds_bitwise_results_iff (b : BoundType) :
    (∀ (op : BitwiseOp) (h : Interval b), h.isEmpty = false →
      ((∀ x y : Interval b, x.isEmpty = false → y.isEmpty = false → x.hull y = h →
        ∀ a ∈ x, ∀ c ∈ y, op.result b a c ∈ op.apply x y) ↔ op.Closed h)) ∧
    (∀ x y : Interval b, ∀ a ∈ x, ∀ c ∈ y,
      and.result b a c ≤ (and.apply x y).upper.val ∧
        (or.apply x y).lower.val ≤ or.result b a c) ∧
    ∀ (op : BitwiseOp) (n : ℕ) (k : Kind) (u x y : Interval b),
      (Interval.ofBitWidth n k).outcome = .ok u → x ⊆ u → y ⊆ u →
        ∀ a ∈ x, ∀ c ∈ y, op.result b a c ∈ u := by
  refine ⟨?_, ?_, ?_⟩
  · intro op h hh
    constructor
    · intro hcovers
      have hself := hcovers h h hh hh (hull_self h)
      rw [apply_eq_hull, hull_self] at hself
      exact closed_of_result_mem hh hself
    · rintro hop x y _ _ rfl a ha c hc
      rw [apply_eq_hull]
      exact hop.result_mem (Interval.mem_hull_left ha) (Interval.mem_hull_right hc)
  · intro x y a ha c hc
    have hleft := Interval.mem_hull_left (y := y) ha
    have hright := Interval.mem_hull_right (x := x) hc
    have hfa := Interval.fits_of_mem ha
    have hfc := Interval.fits_of_mem hc
    rw [apply_eq_hull, apply_eq_hull]
    exact ⟨(and_le_max hfa hfc).trans (max_le hleft.2 hright.2),
      (le_min hleft.1 hright.1).trans (min_le_or hfa hfc)⟩
  · intro op n k u x y hu hxu hyu a ha c hc
    exact (closed_ofBitWidth hu op).result_mem (hxu a ha) (hyu c hc)

/-- A closed hull of operands of either sign, and one that only disjunctions leave. -/
theorem hull_holds_bitwise_results_iff_mixed_signs :
    xor.result .int8 6 (-3) ∈ xor.apply (.between (-8) 6 : Interval .int8) (.between (-3) 7) ∧
    (∀ a ∈ (.between (-8) 6 : Interval .int8), ∀ c ∈ (.between (-3) 2 : Interval .int8),
      and.result .int8 a c ∈ and.apply (.between (-8) 6 : Interval .int8) (.between (-3) 2)) ∧
    ¬ ∀ x y : Interval .int8, x.isEmpty = false → y.isEmpty = false → x.hull y = .between (-8) 6 →
      ∀ a ∈ x, ∀ c ∈ y, or.result .int8 a c ∈ or.apply x y := by
  obtain ⟨covers, _, _⟩ := hull_holds_bitwise_results_iff .int8
  have all : xor.Closed (.between (-8) 7 : Interval .int8) := ⟨3, rfl, .inr rfl⟩
  have below : and.Closed (.between (-8) 6 : Interval .int8) := .inr ⟨3, rfl⟩
  refine ⟨(covers xor (.between (-8) 7) rfl).2 all _ _ rfl rfl rfl 6 (by decide) (-3) (by decide),
    (covers and (.between (-8) 6) rfl).2 below _ _ rfl rfl rfl, ?_⟩
  intro hor
  have h := hor (.between (-8) 6) (.between (-8) 6) rfl rfl rfl 4 (by decide) 3 (by decide)
  exact absurd h (by decide)

/-- Each operator has operands with a result outside their hull. -/
theorem bitwise_result_outside_hull :
    (and.result .int8 (-127) (-126) = -128 ∧
      (-127 : ℤ) ∈ (.between (-127) 127 : Interval .int8) ∧
      (-126 : ℤ) ∈ (.between (-126) 127 : Interval .int8) ∧
      (-128 : ℤ) ∉ and.apply (.between (-127) 127 : Interval .int8) (.between (-126) 127)) ∧
    (or.result .int8 64 63 = 127 ∧
      (64 : ℤ) ∈ (.between (-128) 126 : Interval .int8) ∧
      (63 : ℤ) ∈ (.between (-128) 126 : Interval .int8) ∧
      (127 : ℤ) ∉ or.apply (.between (-128) 126 : Interval .int8) (.between (-128) 126)) ∧
    (xor.result .int8 (-1) (-128) = 127 ∧
      (-1 : ℤ) ∈ (.between (-128) (-1) : Interval .int8) ∧
      (-128 : ℤ) ∈ (.between (-128) 0 : Interval .int8) ∧
      (127 : ℤ) ∉ xor.apply (.between (-128) (-1) : Interval .int8) (.between (-128) 0)) := by
  decide

end BitwiseOp

end Bitspan
