import Bitspan.Interval.BitWidth
import Bitspan.Proofs.CeilingLog
import Bitspan.Proofs.Image

set_option autoImplicit false

/-!
# Widths as ceiling logarithms

The width of an interval is the ceiling logarithm of its size. A part of an interval has no greater
size, hence no greater width.
-/

namespace Bitspan

variable {b : BoundType}

namespace Interval

variable {x y : Interval b} {k : Kind}

theorem size_pos (hx : x.isEmpty = false) : 0 < x.size := by
  rw [isEmpty_eq_false_iff] at hx
  unfold size
  omega

theorem exists_wideSize_eq_size (hx : x.isEmpty = false) :
    ∃ s, x.wideSize = .ok s ∧ s.val = x.size := by
  obtain ⟨s, hs, hsize⟩ := x.size_eq_ite
  have hpos := size_pos hx
  have hupright : ¬ x.upper < x.lower := Int.not_lt.2 (isEmpty_eq_false_iff.1 hx)
  rw [if_neg hupright] at hsize
  exact ⟨s, hs, by omega⟩

theorem isEmpty_eq_false_of_size_pos (h : 0 < x.size) : x.isEmpty = false := by
  rw [isEmpty, beq_eq_false_iff_ne]
  exact h.ne'

theorem size_mono (hx : x.isEmpty = false) (h : x ⊆ y) : x.size ≤ y.size := by
  rw [subset_iff hx] at h
  unfold size
  omega

theorem bitWidth_of_nonempty (hx : x.isEmpty = false) (hk : k = .unsigned ∨ k = .signed) :
    (x.bitWidth k).outcome = .ok (Nat.clog 2 x.size) := by
  obtain ⟨s, hs, hsize⟩ := exists_wideSize_eq_size hx
  have hpos := size_pos hx
  have hlog := FixedInt.ceilLog_of_pos (x := s) (by omega)
  rw [hsize, Int.toNat_natCast] at hlog
  rcases hk with rfl | rfl
  all_goals
    rw [bitWidth, hx]
    exact Call.outcome_bind_eq_ok_iff.2
      ⟨s, Call.outcome_checked_eq_ok_iff.2 hs, Call.outcome_bind_eq_ok_iff.2 ⟨_, hlog, rfl⟩⟩

theorem bitWidth_of_empty (hx : x.isEmpty = true) :
    (x.bitWidth k).outcome = .error (.rejected .emptyInterval) := by
  unfold bitWidth
  rw [if_pos hx]
  rfl

theorem bitWidth_of_unsupported (hx : x.isEmpty = false) (hk : k ≠ .unsigned ∧ k ≠ .signed) :
    (x.bitWidth k).outcome = .error (.rejected (.unsupportedKinds .bitWidth [k])) := by
  cases k with
  | unsigned => exact absurd rfl hk.1
  | signed => exact absurd rfl hk.2
  | signedPositive | signedNegative =>
    rw [bitWidth, hx]
    rfl

theorem bitWidth_eq_error_iff (x : Interval b) (k : Kind) (e : Failure) :
    (x.bitWidth k).outcome = .error e ↔
      e = .rejected .emptyInterval ∧ x.isEmpty = true ∨
      e = .rejected (.unsupportedKinds .bitWidth [k]) ∧ ¬ x.isEmpty = true ∧
        (k ≠ .unsigned ∧ k ≠ .signed) := by
  apply Call.outcome_eq_error_iff_of_guards bitWidth_of_empty
  · intro hx
    exact bitWidth_of_unsupported (Bool.not_eq_true _ ▸ hx)
  · intro hx hk
    rw [← not_or, not_not] at hk
    exact ⟨_, bitWidth_of_nonempty (Bool.not_eq_true _ ▸ hx) hk⟩

theorem exists_bitWidth_le (hx : x.isEmpty = false) (h : x ⊆ y) (hk : k = .unsigned ∨ k = .signed) :
    ∃ m n, (x.bitWidth k).outcome = .ok m ∧ (y.bitWidth k).outcome = .ok n ∧ m ≤ n := by
  have hy := isEmpty_eq_false_of_subset hx h
  exact ⟨_, _, bitWidth_of_nonempty hx hk, bitWidth_of_nonempty hy hk,
    Nat.clog_mono_right 2 (size_mono hx h)⟩

end Interval

end Bitspan
