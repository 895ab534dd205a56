import Bitspan.Call

set_option autoImplicit false

/-!
# Powers, roots and logarithms of fixed-width integers

A power is a product of factors taken one at a time from the number one, each product checked. The
floor root is that of an integer library, and `FloorRootLaw` is all that is assumed of it. The least
exponent of two that reaches a positive value is the number of significant bits of its predecessor,
which is the width of the type less the leading zeros.
-/

namespace Bitspan

/-! ## Powers -/

namespace FixedInt

variable {t : IntType}

def timesPower (base acc : FixedInt t) : Nat → Checked (FixedInt t)
  | 0 => .ok acc
  | n + 1 =>
    match acc.mul base with
    | .ok next => timesPower base next n
    | .error f => .error f

/-- An exponent with the same power of `base` as `n`. The powers of 0, 1 and -1 depend only on
whether the exponent is zero, odd or even; those of any other base leave the type after fewer
factors than the type has bits. -/
def shortExponent (base : FixedInt t) (n : Nat) : Nat :=
  if base.val.natAbs ≤ 1 ∧ 2 < n then 2 - n % 2 else n

def pow (base : FixedInt t) (n : Nat) : Checked (FixedInt t) :=
  timesPower base 1 (shortExponent base n)

theorem timesPower_succ (base acc : FixedInt t) (n : Nat) :
    timesPower base acc (n + 1) = acc.mul base >>= fun next => timesPower base next n := by
  rw [timesPower]
  cases acc.mul base <;> rfl

end FixedInt

/-! ## Square roots -/

/-- The floor square root of `n`, for `n` of at most `pairs` pairs of bits, found from the leading
pair down. -/
def root : Nat → Nat → Nat
  | 0, _ => 0
  | pairs + 1, n =>
    let r := 2 * root pairs (n / 4)
    if (r + 1) * (r + 1) ≤ n then r + 1 else r

theorem root_mul_self_le (pairs n : Nat) : root pairs n * root pairs n ≤ n := by
  induction pairs generalizing n with
  | zero => exact Nat.zero_le n
  | succ pairs ih =>
    simp only [root]
    split
    · assumption
    · have h := ih (n / 4)
      have e : 2 * root pairs (n / 4) * (2 * root pairs (n / 4)) =
          4 * (root pairs (n / 4) * root pairs (n / 4)) := by
        rw [Nat.mul_mul_mul_comm]
      omega

theorem lt_root_succ_mul_self {pairs n : Nat} (h : n < twoPow (2 * pairs)) :
    n < (root pairs n + 1) * (root pairs n + 1) := by
  induction pairs generalizing n with
  | zero =>
    rw [Nat.mul_zero, twoPow_zero] at h
    simp only [root]
    omega
  | succ pairs ih =>
    have hq : n / 4 < twoPow (2 * pairs) := by
      rw [Nat.mul_succ, twoPow_succ, twoPow_succ] at h
      omega
    have hr := ih hq
    simp only [root]
    generalize root pairs (n / 4) = r at hr
    have e : (2 * r + 1 + 1) * (2 * r + 1 + 1) = 4 * ((r + 1) * (r + 1)) := by
      rw [show 2 * r + 1 + 1 = 2 * (r + 1) by omega, Nat.mul_mul_mul_comm]
    split
    · omega
    · omega

theorem root_le_self (pairs n : Nat) : root pairs n ≤ n := by
  rcases Nat.eq_zero_or_pos (root pairs n) with h | h
  · omega
  · exact Nat.le_trans (Nat.le_mul_of_pos_right _ h) (root_mul_self_le pairs n)

namespace FixedInt

variable {t : IntType}

def floorRoot (x : FixedInt t) : Checked (FixedInt t) :=
  if h : x.val < 0 then .error .negativeRoot
  else
    .ok ⟨root (t.bits / 2) x.val.toNat,
      t.fits_zero.of_between x.fits (Int.natCast_nonneg _) (by
        have := root_le_self (t.bits / 2) x.val.toNat
        omega)⟩

/-- All that is assumed of the floor root. What is said of roots elsewhere rests on this law, not on
how the root is found nor on the fault of a negative value. -/
def FloorRootLaw (t : IntType) : Prop :=
  ∀ x : FixedInt t, 0 ≤ x.val → ∃ r, x.floorRoot = .ok r ∧
    0 ≤ r.val ∧ r.val * r.val ≤ x.val ∧ x.val < (r.val + 1) * (r.val + 1)

theorem greatest_lt_twoPow (t : IntType) : t.greatest < twoPow (2 * (t.bits / 2)) := by
  rcases t with size | size <;> cases size <;> decide

theorem floorRootLaw (t : IntType) : FloorRootLaw t := by
  intro x h
  have hval : (x.val.toNat : Int) = x.val := Int.toNat_of_nonneg h
  have hlt := Int.lt_of_le_of_lt x.fits.2 (greatest_lt_twoPow t)
  have hle := Int.ofNat_le.2 (root_mul_self_le (t.bits / 2) x.val.toNat)
  have hnext := Int.ofNat_lt.2
    (lt_root_succ_mul_self (show x.val.toNat < twoPow (2 * (t.bits / 2)) by omega))
  rw [hval, Int.natCast_mul] at hle hnext
  rw [Int.natCast_succ] at hnext
  exact ⟨_, by rw [floorRoot, dif_neg (Int.not_lt.2 h)], Int.natCast_nonneg _, hle, hnext⟩

/-- The least natural number whose square is at least `x`. -/
def ceilRoot (x : FixedInt t) : Checked (FixedInt t) := do
  let r ← x.floorRoot
  let square ← r.mul r
  if square = x then return r else r.add 1

end FixedInt

/-! ## Logarithms -/

def leadingZeros : Nat → Nat → Nat
  | 0, _ => 0
  | bits + 1, n => if n.testBit bits then 0 else leadingZeros bits n + 1

theorem leadingZeros_le (bits n : Nat) : leadingZeros bits n ≤ bits := by
  induction bits with
  | zero => exact Nat.le_refl 0
  | succ bits ih =>
    rw [leadingZeros]
    split <;> omega

theorem testBit_eq_true_iff {k n : Nat} (h : n < twoPow (k + 1)) :
    n.testBit k = true ↔ twoPow k ≤ n := by
  have hp := twoPow_pos k
  rw [twoPow_succ] at h
  rw [Nat.testBit_eq_decide_div_mod_eq, decide_eq_true_iff, ← Nat.one_shiftLeft]
  change n / twoPow k % 2 = 1 ↔ _
  rcases Nat.lt_or_ge n (twoPow k) with hn | hn
  · rw [Nat.div_eq_of_lt hn]
    omega
  · have hq : n / twoPow k = 1 := Nat.div_eq_of_lt_le (by omega) (by omega)
    rw [hq]
    omega

theorem lt_twoPow_significant {bits n : Nat} (h : n < twoPow bits) :
    n < twoPow (bits - leadingZeros bits n) := by
  induction bits with
  | zero => exact h
  | succ bits ih =>
    rw [leadingZeros]
    split
    · exact h
    · rename_i hb
      rw [testBit_eq_true_iff h, Nat.not_le] at hb
      rw [Nat.add_sub_add_right]
      exact ih hb

theorem twoPow_le_of_lt_significant {bits n k : Nat} (h : n < twoPow bits)
    (hk : k < bits - leadingZeros bits n) : twoPow k ≤ n := by
  induction bits with
  | zero => exact absurd hk (by omega)
  | succ bits ih =>
    rw [leadingZeros] at hk
    split at hk
    · rename_i hb
      rw [testBit_eq_true_iff h] at hb
      exact Nat.le_trans (twoPow_le_twoPow (by omega)) hb
    · rename_i hb
      rw [testBit_eq_true_iff h, Nat.not_le] at hb
      exact ih hb (by omega)

namespace FixedInt

variable {t : IntType}

/-- A negative value has its sign bit set, so it has no leading zeros. -/
def leadingZeros (x : FixedInt t) : Nat :=
  if x.val < 0 then 0 else Bitspan.leadingZeros t.bits x.val.toNat

def ceilLog (x : FixedInt t) : Call Nat :=
  if x.val ≤ 0 then
    .reject (.outsideDomain .ceilLog) s!"ceil_log2 of non-positive value {x}"
  else do
    let predecessor ← .checked (x.sub 1)
    return t.bits - predecessor.leadingZeros

end FixedInt

end Bitspan
