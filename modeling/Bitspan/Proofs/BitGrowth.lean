import Bitspan.Proofs.Product
import Bitspan.Proofs.Size

set_option autoImplicit false

/-!
# Bit growth

The width of an interval is the ceiling logarithm of its size, so an exact size of a result bounds
the bits that it takes. A sum or a difference takes as many as the wider operand or one more, and a
negation as many as its operand. A product from zero takes no more than both factors together.
-/

namespace Bitspan.Interval

variable {b : BoundType} {x y z : Interval b} {k : Kind} {p q s : ℕ}

/-! ## Logarithms of sizes -/

theorem clog_of_succ_eq_add (hp : 0 < p) (hq : 0 < q) (h : s + 1 = p + q) :
    max (Nat.clog 2 p) (Nat.clog 2 q) ≤ Nat.clog 2 s ∧
      Nat.clog 2 s ≤ max (Nat.clog 2 p) (Nat.clog 2 q) + 1 := by
  constructor
  · exact max_le (Nat.clog_mono_right 2 (by omega)) (Nat.clog_mono_right 2 (by omega))
  · have hpn : p ≤ 2 ^ max (Nat.clog 2 p) (Nat.clog 2 q) :=
      (Nat.clog_le_iff_le_pow (by decide)).1 (le_max_left _ _)
    have hqn : q ≤ 2 ^ max (Nat.clog 2 p) (Nat.clog 2 q) :=
      (Nat.clog_le_iff_le_pow (by decide)).1 (le_max_right _ _)
    apply Nat.clog_le_of_le_pow
    rw [pow_succ]
    omega

theorem clog_mul_le (p q : ℕ) : Nat.clog 2 (p * q) ≤ Nat.clog 2 p + Nat.clog 2 q := by
  apply Nat.clog_le_of_le_pow
  calc
    p * q ≤ 2 ^ Nat.clog 2 p * 2 ^ Nat.clog 2 q :=
      Nat.mul_le_mul (Nat.le_pow_clog (by decide) p) (Nat.le_pow_clog (by decide) q)
    _ = 2 ^ (Nat.clog 2 p + Nat.clog 2 q) := (Nat.pow_add 2 _ _).symm

/-! ## Widths of results -/

theorem exists_bitWidth_of_succ_size_eq_add (hx : x.isEmpty = false) (hy : y.isEmpty = false)
    (hk : k = .unsigned ∨ k = .signed) (h : z.size + 1 = x.size + y.size) :
    ∃ w, (z.bitWidth k).outcome = .ok w ∧ max (Nat.clog 2 x.size) (Nat.clog 2 y.size) ≤ w ∧
      w ≤ max (Nat.clog 2 x.size) (Nat.clog 2 y.size) + 1 := by
  have hxs := size_pos hx
  have hys := size_pos hy
  have hz : z.isEmpty = false := isEmpty_eq_false_of_size_pos (by omega)
  exact ⟨_, bitWidth_of_nonempty hz hk, clog_of_succ_eq_add hxs hys h⟩

theorem bitWidth_neg (hx : x.isEmpty = false) (hk : k = .unsigned ∨ k = .signed)
    (h : x.neg = .ok z) : (z.bitWidth k).outcome = .ok (Nat.clog 2 x.size) := by
  have hsize := size_neg h
  have hz : z.isEmpty = false := isEmpty_eq_false_of_size_pos (hsize ▸ size_pos hx)
  rw [bitWidth_of_nonempty hz hk, hsize]

theorem size_mul_le (hx : x.isEmpty = false) (hy : y.isEmpty = false) (hz : z.isEmpty = false)
    (hxl : x.lower.val = 0) (hyl : y.lower.val = 0) (h : x.mul y .unsigned .unsigned = .ok z) :
    z.size ≤ x.size * y.size := by
  obtain ⟨hl, hu⟩ := mulUnsigned_eq_ok_iff.1 h
  have hxu := isEmpty_eq_false_iff.1 hx
  have hyu := isEmpty_eq_false_iff.1 hy
  have hcast : (z.size : ℤ) ≤ x.size * y.size := by
    rw [cast_size hz, cast_size hx, cast_size hy, hl, hu, hxl, hyl]
    calc
      x.upper.val * y.upper.val - 0 * 0 + 1
          ≤ x.upper.val * y.upper.val + x.upper.val + y.upper.val + 1 := by omega
      _ = (x.upper.val - 0 + 1) * (y.upper.val - 0 + 1) := by ring
  exact_mod_cast hcast

theorem exists_bitWidth_mul_le (hx : x.isEmpty = false) (hy : y.isEmpty = false)
    (hk : k = .unsigned ∨ k = .signed) (hxl : x.lower.val = 0) (hyl : y.lower.val = 0)
    (h : x.mul y .unsigned .unsigned = .ok z) :
    ∃ w, (z.bitWidth k).outcome = .ok w ∧ w ≤ Nat.clog 2 x.size + Nat.clog 2 y.size := by
  have hz := ((tightImage_mul hx hy (fun _ => hxl.ge) fun _ => hyl.ge).encloses h).nonempty
  have hsize := size_mul_le hx hy hz hxl hyl h
  exact ⟨_, bitWidth_of_nonempty hz hk, (Nat.clog_mono_right 2 hsize).trans (clog_mul_le _ _)⟩

/-- For operands of `m` and `n` bits, a sum or a difference takes from `max m n` to `max m n + 1`
bits, a negation of the first exactly `m`, and a product from zero up at most `m + n`. -/
theorem results_grow_by_few_bits (x y : Interval b) (k : Kind) (hx : x.isEmpty = false)
    (hy : y.isEmpty = false) (hk : k = .unsigned ∨ k = .signed) :
    ∃ m n, (x.bitWidth k).outcome = .ok m ∧ (y.bitWidth k).outcome = .ok n ∧
      (∀ z, x.add y = .ok z →
        ∃ w, (z.bitWidth k).outcome = .ok w ∧ max m n ≤ w ∧ w ≤ max m n + 1) ∧
      (∀ z, x.sub y = .ok z →
        ∃ w, (z.bitWidth k).outcome = .ok w ∧ max m n ≤ w ∧ w ≤ max m n + 1) ∧
      (∀ z, x.neg = .ok z → (z.bitWidth k).outcome = .ok m) ∧
      (x.lower.val = 0 → y.lower.val = 0 → ∀ z, x.mul y .unsigned .unsigned = .ok z →
        ∃ w, (z.bitWidth k).outcome = .ok w ∧ w ≤ m + n) := by
  refine ⟨_, _, bitWidth_of_nonempty hx hk, bitWidth_of_nonempty hy hk, ?_, ?_, ?_, ?_⟩
  · intro z hz
    exact exists_bitWidth_of_succ_size_eq_add hx hy hk (size_add hx hy hz)
  · intro z hz
    exact exists_bitWidth_of_succ_size_eq_add hx hy hk (size_sub hx hy hz)
  · intro z hz
    exact bitWidth_neg hx hk hz
  · intro hxl hyl z hz
    exact exists_bitWidth_mul_le hx hy hk hxl hyl hz

/-- The sum takes a bit more than its operands, and the product as many as both together. -/
theorem results_grow_by_few_bits_two_bits :
    ((between 0 3 : Interval .int8).bitWidth .signed).outcome = .ok 2 ∧
    (∃ w, ((between 0 6 : Interval .int8).bitWidth .signed).outcome = .ok w ∧ 2 ≤ w ∧ w ≤ 3) ∧
    (∃ w, ((between (-3) 3 : Interval .int8).bitWidth .signed).outcome = .ok w ∧ 2 ≤ w ∧ w ≤ 3) ∧
    ((between (-3) 0 : Interval .int8).bitWidth .signed).outcome = .ok 2 ∧
    (∃ w, ((between 0 9 : Interval .int8).bitWidth .signed).outcome = .ok w ∧ w ≤ 4) ∧
    ((between 0 6 : Interval .int8).bitWidth .signed).outcome = .ok 3 ∧
    ((between 0 9 : Interval .int8).bitWidth .signed).outcome = .ok 4 := by
  have hwidth : ((between 0 3 : Interval .int8).bitWidth .signed).outcome = .ok 2 := by
    decide +kernel
  obtain ⟨m, n, hm, hn, sums, differences, negations, products⟩ :=
    results_grow_by_few_bits (between 0 3 : Interval .int8) (between 0 3) .signed rfl rfl
      (.inr rfl)
  rw [hwidth] at hm hn
  cases hm
  cases hn
  exact ⟨hwidth, sums _ rfl, differences _ rfl, negations _ rfl, products rfl rfl _ rfl,
    by decide +kernel, by decide +kernel⟩

end Bitspan.Interval
