import Bitspan.Proofs.Comparison
import Bitspan.Proofs.Operators
import Bitspan.Proofs.Widths

set_option autoImplicit false

/-!
# Inclusion monotonicity

Parts of the operands give a part of the result: an operator that succeeds on the wide operands
succeeds on the narrow ones, within the wide result. Widths do not grow on the way, and a definite
answer of a comparison is kept.
-/

namespace Bitspan

variable {b : BoundType} {x y w v : Interval b}

namespace UnaryOp

theorem apply_mono (op : UnaryOp) (hx : x.isEmpty = false) (hxw : x ⊆ w) :
    Interval.Narrows (op.apply x) (op.apply w) := by
  have hw := Interval.isEmpty_eq_false_of_subset hx hxw
  cases op with
  | neg =>
    exact (Interval.tightImage_neg hx).narrows (Interval.tightImage_neg hw) (Set.image_mono hxw)
  | power n => exact Interval.power_mono hx hxw
  | sqrt => exact Interval.sqrt_mono hx hxw
  | abs => exact Interval.abs_mono hx hxw

end UnaryOp

namespace BinaryOp

theorem apply_mono (op : BinaryOp) (hx : x.isEmpty = false) (hy : y.isEmpty = false)
    (hxw : x ⊆ w) (hyv : y ⊆ v) (hop : op.Suits w v) :
    Interval.Narrows (op.apply x y) (op.apply w v) := by
  have hw := Interval.isEmpty_eq_false_of_subset hx hxw
  have hv := Interval.isEmpty_eq_false_of_subset hy hyv
  cases op with
  | add =>
    exact (Interval.tightImage_add hx hy).narrows (Interval.tightImage_add hw hv)
      (Set.image2_subset hxw hyv)
  | sub =>
    exact (Interval.tightImage_sub hx hy).narrows (Interval.tightImage_sub hw hv)
      (Set.image2_subset hxw hyv)
  | mul kx ky =>
    have narrow := Interval.tightImage_mul hx hy (hop.1.mono hx hxw) (hop.2.mono hy hyv)
    exact narrow.narrows (Interval.tightImage_mul hw hv hop.1 hop.2) (Set.image2_subset hxw hyv)
  | div kx ky => exact Interval.div_mono hx hy hxw hyv hop.1 hop.2
  | modulo kx => exact Interval.modulo_mono hx hy hxw hyv
  | max => exact Interval.narrows_pure (Interval.max_mono hx hy hxw hyv)
  | min => exact Interval.narrows_pure (Interval.min_mono hx hy hxw hyv)
  | hull | union | mux => exact Interval.narrows_pure (Interval.hull_mono hx hy hxw hyv)

end BinaryOp

namespace Interval

/-- Every operator narrows with its operands, failures included. -/
theorem results_narrow_with_operands (hx : x.isEmpty = false) (hy : y.isEmpty = false)
    (hxw : x ⊆ w) (hyv : y ⊆ v) :
    (∀ op : UnaryOp, Narrows (op.apply x) (op.apply w)) ∧
    (∀ op : BinaryOp, op.Suits w v → Narrows (op.apply x y) (op.apply w v)) ∧
    x.intersection y ⊆ w.intersection v ∧
    (∀ k : Kind, k = .unsigned ∨ k = .signed → ∃ m n, (x.bitWidth k).outcome = .ok m ∧
      (w.bitWidth k).outcome = .ok n ∧ m ≤ n) ∧
    ∀ (c : Comparison) (t : Truth), (w.compare v c).outcome = .ok t → t ≠ .mixed →
      (x.compare y c).outcome = .ok t := by
  refine ⟨fun op => op.apply_mono hx hxw, fun op => op.apply_mono hx hy hxw hyv,
    intersection_mono hxw hyv, fun k => exists_bitWidth_le hx hxw, ?_⟩
  intro c t
  exact compare_mono hx hy hxw hyv

theorem results_narrow_with_operands_mixed_signs :
    (between (-3) 4 : Interval .int8) ⊆ between (-5) 6 ∧
    (between 8 9 : Interval .int8) ⊆ between 7 13 ∧
    (∃ z : Interval .int8, (between (-3) 4).mul (between 8 9) .signed .unsigned = .ok z ∧
      z ⊆ between (-65) 78) ∧
    ((between (-3) 4 : Interval .int8).compare (between 8 9) .lt).outcome = .ok .always := by
  have hxw : (between (-3) 4 : Interval .int8) ⊆ between (-5) 6 :=
    (subset_iff rfl).2 ⟨by decide, by decide⟩
  have hyv : (between 8 9 : Interval .int8) ⊆ between 7 13 :=
    (subset_iff rfl).2 ⟨by decide, by decide⟩
  have suits : (BinaryOp.mul .signed .unsigned).Suits (between (-5) 6 : Interval .int8)
      (between 7 13) := ⟨by decide, by decide⟩
  obtain ⟨_, binary, _, _, comparison⟩ := results_narrow_with_operands rfl rfl hxw hyv
  obtain ⟨z, hz, hsub⟩ := binary (.mul .signed .unsigned) suits (between (-65) 78) rfl
  exact ⟨hxw, hyv, ⟨z, Call.outcome_checked_eq_ok_iff.1 hz, hsub⟩,
    comparison .lt .always rfl (by decide)⟩

end Interval

end Bitspan
