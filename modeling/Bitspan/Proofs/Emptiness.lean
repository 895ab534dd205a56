import Mathlib.Algebra.Order.Ring.Abs
import Bitspan.Proofs.Operators

set_option autoImplicit false

/-!
# Empty results

Most operators compute straight on the bounds of their operands, so an inverted pair is neither
kept inverted nor brought to the form `[1,0]`. `GivesEmpty` lists the bounds from which a result is
nevertheless `[1,0]`; only the intersection gives it for every operand that is empty.
-/

namespace Bitspan

variable {b : BoundType}

namespace Interval

variable {x y z : Interval b} {n : ℕ}

theorem eq_empty_iff : z = empty ↔ z.lower.val = 1 ∧ z.upper.val = 0 := by
  constructor
  · rintro rfl
    exact ⟨rfl, rfl⟩
  · rintro ⟨hl, hu⟩
    exact ext hl hu

theorem ne_empty_of_nonempty (h : z.isEmpty = false) : z ≠ empty := by
  rw [isEmpty_eq_false_iff] at h
  rw [Ne, eq_empty_iff]
  omega

/-! ## Powers and roots -/

theorem isFloorRoot_one_iff {v : ℤ} : IsFloorRoot v 1 ↔ 1 ≤ v ∧ v ≤ 3 := by
  rw [isFloorRoot_iff]
  omega

theorem isCeilRoot_zero_iff {v : ℤ} (hv : 0 ≤ v) : IsCeilRoot v 0 ↔ v = 0 := by
  constructor
  · rintro ⟨⟨-, hle⟩, -⟩
    omega
  · rintro rfl
    exact ⟨⟨le_rfl, le_rfl⟩, fun _ hs => hs.1⟩

theorem sqrt_eq_empty_iff (h : x.sqrt.outcome = .ok z) :
    z = empty ↔ 1 ≤ x.lower.val ∧ x.lower.val ≤ 3 ∧ x.upper.val = 0 := by
  obtain ⟨hl, hu0, hu⟩ := sqrt_eq_ok_iff.1 h
  rw [eq_empty_iff, ← isCeilRoot_zero_iff hu0, ← and_assoc, ← isFloorRoot_one_iff]
  constructor
  · rintro ⟨hzl, hzu⟩
    rw [hzl] at hl
    rw [hzu] at hu
    exact ⟨hl, hu⟩
  · rintro ⟨hone, hzero⟩
    exact ⟨hl.unique hone, hu.unique hzero⟩

theorem pow_one_zero_iff {a c : ℤ} (h : Odd n ∨ 0 ≤ a) :
    a ^ n = 1 ∧ c ^ n = 0 ↔ n ≠ 0 ∧ a = 1 ∧ c = 0 := by
  constructor
  · rintro ⟨hone, hzero⟩
    have hn : n ≠ 0 := by
      rintro rfl
      rw [pow_zero] at hzero
      cases hzero
    have hnonneg : 0 ≤ a := by
      rcases h with hodd | hnonneg
      · exact hodd.pow_nonneg_iff.1 (by omega)
      · exact hnonneg
    exact ⟨hn, (pow_eq_one_iff_of_nonneg hnonneg hn).1 hone, (pow_eq_zero_iff hn).1 hzero⟩
  · rintro ⟨hn, rfl, rfl⟩
    exact ⟨one_pow n, zero_pow hn⟩

theorem power_eq_empty_iff (h : (x.power n).outcome = .ok z) :
    z = empty ↔ n ≠ 0 ∧ x.lower.val = 1 ∧ x.upper.val = 0 := by
  rw [eq_empty_iff]
  rcases power_bounds_of_eq_ok h with ⟨hup, hl, hu⟩ | ⟨⟨-, hneg, -⟩, -, hu⟩
  · rw [hl, hu, pow_one_zero_iff hup]
  · refine iff_of_false ?_ ?_
    · rintro ⟨-, hzero⟩
      exact pow_ne_zero n hneg.ne (hu.symm.trans hzero)
    · rintro ⟨-, hone, -⟩
      omega

/-! ## Products and quotients -/

theorem span_isEmpty_eq_false (c : Corners b) : c.span.isEmpty = false := by
  rw [isEmpty_eq_false_iff]
  simp only [Corners.span, Corners.least, Corners.greatest, FixedInt.val_min, FixedInt.val_max]
  omega

theorem ne_empty_of_corners {op : Bound b → Bound b → Checked (Bound b)}
    (h : (do let corners ← Corners.of op x y; return corners.span) = .ok z) : z ≠ empty := by
  obtain ⟨c, -, hz⟩ := Checked.bind_eq_ok_iff.1 h
  cases hz
  exact ne_empty_of_nonempty (span_isEmpty_eq_false c)

theorem mulUnsigned_eq_empty_iff (h : x.mulUnsigned y = .ok z) :
    z = empty ↔
      (x.lower.val = 1 ∧ y.lower.val = 1 ∨ x.lower.val = -1 ∧ y.lower.val = -1) ∧
        (x.upper.val = 0 ∨ y.upper.val = 0) := by
  obtain ⟨hl, hu⟩ := mulUnsigned_eq_ok_iff.1 h
  rw [eq_empty_iff, hl, hu, Int.mul_eq_one_iff_eq_one_or_neg_one, mul_eq_zero]

/-- The bounds of a product by an operand of either sign, from both bounds of the other one. -/
def MixedGivesEmpty (x y : Interval b) : Prop :=
  y.upper.val = 0 ∧
    (y.lower.val = 1 ∧ min x.lower.val x.upper.val = 1 ∨
      y.lower.val = -1 ∧ max x.lower.val x.upper.val = -1)

theorem mixedGivesEmpty_iff :
    min (x.upper.val * y.lower.val) (x.lower.val * y.lower.val) = 1 ∧
      max (x.upper.val * y.upper.val) (x.lower.val * y.upper.val) = 0 ↔ x.MixedGivesEmpty y := by
  constructor
  · rintro ⟨hmin, hmax⟩
    have hone : x.upper.val * y.lower.val = 1 ∨ x.lower.val * y.lower.val = 1 := by omega
    have hzero : x.upper.val * y.upper.val = 0 ∨ x.lower.val * y.upper.val = 0 := by omega
    rw [Int.mul_eq_one_iff_eq_one_or_neg_one, Int.mul_eq_one_iff_eq_one_or_neg_one] at hone
    rw [mul_eq_zero, mul_eq_zero] at hzero
    have hyl : y.lower.val = 1 ∨ y.lower.val = -1 := by omega
    -- With the lower bound of `y` known, both bounds of `x` have its sign, so none is zero.
    rcases hyl with hyl | hyl
    · rw [hyl] at hmin
      exact ⟨by omega, .inl ⟨hyl, by omega⟩⟩
    · rw [hyl] at hmin
      exact ⟨by omega, .inr ⟨hyl, by omega⟩⟩
  · rintro ⟨hyu, ⟨hyl, hx⟩ | ⟨hyl, hx⟩⟩
    all_goals
      rw [hyu, hyl]
      omega

theorem mulUnsignedSigned_eq_empty_iff (h : x.mulUnsignedSigned y = .ok z) :
    z = empty ↔ x.MixedGivesEmpty y := by
  simp only [mulUnsignedSigned, Checked.bind_eq_ok_iff, FixedInt.mul_eq_ok_iff] at h
  obtain ⟨ul, hul, ll, hll, uu, huu, lu, hlu, hz⟩ := h
  cases hz
  rw [eq_empty_iff, FixedInt.val_min, FixedInt.val_max, hul, hll, huu, hlu, mixedGivesEmpty_iff]

theorem mulSignedUnsigned_eq_empty_iff (h : x.mulSignedUnsigned y = .ok z) :
    z = empty ↔ y.MixedGivesEmpty x := by
  simp only [mulSignedUnsigned, Checked.bind_eq_ok_iff, FixedInt.mul_eq_ok_iff] at h
  obtain ⟨lu, hlu, ll, hll, uu, huu, ul, hul, hz⟩ := h
  cases hz
  rw [eq_empty_iff, FixedInt.val_min, FixedInt.val_max, hlu, hll, huu, hul, ← mixedGivesEmpty_iff]
  simp only [mul_comm y.upper.val, mul_comm y.lower.val]

theorem divUnsigned_eq_empty_iff (h : x.divUnsigned y = .ok z) :
    z = empty ↔ x.lower.val.tdiv y.upper.val = 1 ∧ x.upper.val.tdiv y.lower.val = 0 := by
  rw [divUnsigned, bounds_eq_ok_iff, FixedInt.quot_eq_ok_iff, FixedInt.quot_eq_ok_iff] at h
  rw [eq_empty_iff, h.1.2, h.2.2]

theorem div_eq_empty_iff {kx ky : Kind} (h : (x.div y kx ky).outcome = .ok z) :
    z = empty ↔ kx = .unsigned ∧ x.lower.val.tdiv y.upper.val = 1 ∧
      x.upper.val.tdiv y.lower.val = 0 := by
  obtain ⟨hy, h0, hk⟩ := guards_of_div_eq_ok h
  rcases Kind.unsigned_or_signed_of_alike hk with ⟨rfl, rfl⟩ | ⟨hkx, hky⟩
  · rw [div_of_unsigned hy h0, Call.outcome_checked_eq_ok_iff] at h
    rw [divUnsigned_eq_empty_iff h, and_iff_right rfl]
  · rw [div_of_signed hy h0 hkx hky, Call.outcome_checked_eq_ok_iff] at h
    exact iff_of_false (ne_empty_of_corners h) fun hu => hkx hu.1

/-- The bounds from which a product is `[1,0]`, for operands of either signedness. -/
def ProductGivesEmpty (x y : Interval b) (kx ky : Kind) : Prop :=
  match kx.inSignedFamily, ky.inSignedFamily with
  | false, false =>
    (x.lower.val = 1 ∧ y.lower.val = 1 ∨ x.lower.val = -1 ∧ y.lower.val = -1) ∧
      (x.upper.val = 0 ∨ y.upper.val = 0)
  | false, true => x.MixedGivesEmpty y
  | true, false => y.MixedGivesEmpty x
  | true, true => False

theorem mul_eq_empty_iff {kx ky : Kind} (h : x.mul y kx ky = .ok z) :
    z = empty ↔ x.ProductGivesEmpty y kx ky := by
  unfold mul at h
  unfold ProductGivesEmpty
  generalize kx.inSignedFamily = p at h ⊢
  generalize ky.inSignedFamily = q at h ⊢
  cases p <;> cases q
  · exact mulUnsigned_eq_empty_iff h
  · exact mulUnsignedSigned_eq_empty_iff h
  · exact mulSignedUnsigned_eq_empty_iff h
  · exact iff_of_false (ne_empty_of_corners h) not_false

/-! ## Remainders and magnitudes -/

theorem ne_empty_of_modulo {kx : Kind} (h : (x.modulo y kx).outcome = .ok z) : z ≠ empty := by
  rw [Ne, eq_empty_iff]
  cases kx with
  | unsigned =>
    obtain ⟨-, hl, -⟩ := modulo_unsigned_eq_ok_iff.1 h
    omega
  | signed =>
    obtain ⟨-, -, hl, -⟩ := modulo_signed_eq_ok_iff.1 h
    omega
  | signedPositive | signedNegative =>
    exact absurd h (modulo_reject (by decide) (by decide))

theorem ne_empty_of_abs (h : x.abs = .ok z) : z ≠ empty := by
  have hl := (abs_eq_ok_iff.1 h).1
  rw [Ne, eq_empty_iff]
  omega

end Interval

namespace UnaryOp

variable {x z : Interval b} {op : UnaryOp}

/-- The bounds of the operand from which the result is `[1,0]`. -/
def GivesEmpty : UnaryOp → Interval b → Prop
  | neg, x => x.lower.val = 0 ∧ x.upper.val = -1
  | power n, x => n ≠ 0 ∧ x.lower.val = 1 ∧ x.upper.val = 0
  | sqrt, x => 1 ≤ x.lower.val ∧ x.lower.val ≤ 3 ∧ x.upper.val = 0
  | abs, _ => False

theorem eq_empty_iff_givesEmpty (h : (op.apply x).outcome = .ok z) :
    z = .empty ↔ op.GivesEmpty x := by
  cases op with
  | neg =>
    have h := Interval.neg_eq_ok_iff.1 (Call.outcome_checked_eq_ok_iff.1 h)
    rw [Interval.eq_empty_iff, GivesEmpty]
    omega
  | power n => exact Interval.power_eq_empty_iff h
  | sqrt => exact Interval.sqrt_eq_empty_iff h
  | abs =>
    exact iff_of_false (Interval.ne_empty_of_abs (Call.outcome_checked_eq_ok_iff.1 h)) not_false

theorem isEmpty_of_eq_empty (h : (op.apply x).outcome = .ok z) (hz : z = .empty) :
    x.isEmpty = true := by
  by_contra hx
  rw [Bool.not_eq_true] at hx
  exact Interval.ne_empty_of_nonempty (apply_encloses hx h).nonempty hz

end UnaryOp

namespace BinaryOp

variable {x y z : Interval b} {op : BinaryOp}

/-- The bounds of the operands from which the result is `[1,0]`. -/
def GivesEmpty : BinaryOp → Interval b → Interval b → Prop
  | add, x, y => x.lower.val + y.lower.val = 1 ∧ x.upper.val + y.upper.val = 0
  | sub, x, y => x.lower.val - y.upper.val = 1 ∧ x.upper.val - y.lower.val = 0
  | mul kx ky, x, y => x.ProductGivesEmpty y kx ky
  | div kx _, x, y =>
    kx = .unsigned ∧ x.lower.val.tdiv y.upper.val = 1 ∧ x.upper.val.tdiv y.lower.val = 0
  | modulo _, _, _ => False
  | max, x, y => Max.max x.lower.val y.lower.val = 1 ∧ Max.max x.upper.val y.upper.val = 0
  | min, x, y => Min.min x.lower.val y.lower.val = 1 ∧ Min.min x.upper.val y.upper.val = 0
  | hull, x, y | union, x, y | mux, x, y =>
    Min.min x.lower.val y.lower.val = 1 ∧ Max.max x.upper.val y.upper.val = 0

theorem eq_empty_iff_givesEmpty (h : (op.apply x y).outcome = .ok z) :
    z = .empty ↔ op.GivesEmpty x y := by
  cases op with
  | add =>
    have h := Interval.add_eq_ok_iff.1 (Call.outcome_checked_eq_ok_iff.1 h)
    rw [Interval.eq_empty_iff, h.1, h.2, GivesEmpty]
  | sub =>
    have h := Interval.sub_eq_ok_iff.1 (Call.outcome_checked_eq_ok_iff.1 h)
    rw [Interval.eq_empty_iff, h.1, h.2, GivesEmpty]
  | mul kx ky => exact Interval.mul_eq_empty_iff (Call.outcome_checked_eq_ok_iff.1 h)
  | div kx ky => exact Interval.div_eq_empty_iff h
  | modulo kx => exact iff_of_false (Interval.ne_empty_of_modulo h) not_false
  | max | min | hull | union | mux =>
    cases h
    rw [Interval.eq_empty_iff]
    simp [GivesEmpty, Interval.union, Interval.mux]

theorem isEmpty_of_eq_empty (hop : op.Suits x y) (h : (op.apply x y).outcome = .ok z)
    (hz : z = .empty) : x.isEmpty = true ∨ y.isEmpty = true := by
  by_contra hxy
  rw [not_or, Bool.not_eq_true, Bool.not_eq_true] at hxy
  exact Interval.ne_empty_of_nonempty (apply_encloses hxy.1 hxy.2 hop h).nonempty hz

end BinaryOp

namespace Interval

/-- A result is `[1,0]` exactly for the listed bounds, which few inverted operands have and no
others that suit their kinds. The intersection is `[1,0]` for every operand that is empty. -/
theorem canonical_empty_iff (x y z : Interval b) (f : UnaryOp) (g : BinaryOp) :
    ((f.apply x).outcome = .ok z →
      (z = empty ↔ f.GivesEmpty x) ∧ (z = empty → x.isEmpty = true)) ∧
    ((g.apply x y).outcome = .ok z →
      (z = empty ↔ g.GivesEmpty x y) ∧
        (g.Suits x y → z = empty → x.isEmpty = true ∨ y.isEmpty = true)) ∧
    (x.isEmpty = true ∨ y.isEmpty = true → x.intersection y = empty) := by
  refine ⟨?_, ?_, intersection_of_empty⟩
  · intro h
    exact ⟨UnaryOp.eq_empty_iff_givesEmpty h, UnaryOp.isEmpty_of_eq_empty h⟩
  · intro h
    exact ⟨BinaryOp.eq_empty_iff_givesEmpty h, fun hop => BinaryOp.isEmpty_of_eq_empty hop h⟩

theorem canonical_empty_iff_mixed_signs :
    (between 0 (-1) : Interval .int8).neg = .ok (between 1 0) ∧
    (between 1 0 : Interval .int8) = empty ∧
    (between 0 (-1) : Interval .int8).add (between (-2) 9) = .ok (between (-2) 8) ∧
    (between (-2) 8 : Interval .int8) ≠ empty ∧
    (between 0 (-1) : Interval .int8).intersection (between (-2) 9) = empty := by
  have hneg : (between 0 (-1) : Interval .int8).neg = .ok (between 1 0) := rfl
  have hadd : (between 0 (-1) : Interval .int8).add (between (-2) 9) = .ok (between (-2) 8) := rfl
  obtain ⟨negated, -, met⟩ := canonical_empty_iff (between 0 (-1) : Interval .int8)
    (between (-2) 9) (between 1 0) .neg .add
  obtain ⟨-, added, -⟩ := canonical_empty_iff (between 0 (-1) : Interval .int8)
    (between (-2) 9) (between (-2) 8) .neg .add
  have hempty := (negated (Call.outcome_checked_eq_ok_iff.2 hneg)).1.2 ⟨rfl, rfl⟩
  have hlost := mt (added (Call.outcome_checked_eq_ok_iff.2 hadd)).1.1 fun h =>
    absurd h.1 (by decide)
  exact ⟨hneg, hempty, hadd, hlost, met (.inl rfl)⟩

/-- An empty operand may give an inverted result of another form, and a result with members. -/
theorem empty_operand_lost :
    (empty : Interval .int8).neg = .ok (between 0 (-1)) ∧
    (empty : Interval .int8).add (between 0 5) = .ok (between 1 5) ∧
    ¬ ∀ x y z : Interval .int8, x.isEmpty = true ∨ y.isEmpty = true → x.add y = .ok z →
      z = empty := by
  have hadd : (empty : Interval .int8).add (between 0 5) = .ok (between 1 5) := rfl
  refine ⟨rfl, hadd, fun h => ?_⟩
  have hz := h empty (between 0 5) _ (.inl rfl) hadd
  rw [eq_empty_iff] at hz
  exact absurd hz (by decide)

end Interval

end Bitspan
