import Bitspan.Proofs.Balance
import Bitspan.Proofs.Comparison
import Bitspan.Proofs.Powers
import Bitspan.Proofs.Quotient
import Bitspan.Proofs.Remainder
import Bitspan.Proofs.Roots

set_option autoImplicit false

/-!
# Requests and their faults

A request is a call of an operator that can decline its arguments. It is answered by a result or a
rejection, except where a quotient, a negation or a power of the bounds overflows, and `Overflows`
says exactly where that is. Nothing is asked of the operands, which may be inverted.
-/

namespace Bitspan

variable {b : BoundType}

namespace Interval

variable {x y : Interval b} {kx ky : Kind} {n : ℕ}

/-! ## Quotients -/

/-- Past the guards, a quotient that is computed is that of the least value by minus one. -/
def QuotientOverflows (x y : Interval b) (kx ky : Kind) : Prop :=
  y.isEmpty = false ∧ (0 : ℤ) ∉ y ∧
    (kx = .unsigned ∧ ky = .unsigned ∧
        (x.lower.val = b.intType.least ∧ y.upper.val = -1 ∨
          x.upper.val = b.intType.least ∧ y.lower.val = -1) ∨
      kx ≠ .unsigned ∧ ky ≠ .unsigned ∧
        (x.lower.val = b.intType.least ∨ x.upper.val = b.intType.least) ∧
        (y.lower.val = -1 ∨ y.upper.val = -1))

theorem faultsBy_divUnsigned (hl : y.lower.val ≠ 0) (hu : y.upper.val ≠ 0) :
    (Call.checked (x.divUnsigned y)).FaultsBy .divide
      (x.lower.val = b.intType.least ∧ y.upper.val = -1 ∨
        x.upper.val = b.intType.least ∧ y.lower.val = -1) := by
  rw [divUnsigned, FixedInt.quot_of_ne_zero hl, FixedInt.quot_of_ne_zero hu]
  simp only [Call.checked_bind]
  refine Call.FaultsBy.congr (.fit_bind fun p _ => .fit_bind fun q _ =>
    (Call.faultless_pure _).faultsBy not_false) ?_
  rw [not_fits_tdiv_iff x.lower.fits hu, not_fits_tdiv_iff x.upper.fits hl, or_false]

theorem faultsBy_divSigned (hl : y.lower.val ≠ 0) (hu : y.upper.val ≠ 0) :
    (Call.checked (x.divSigned y)).FaultsBy .divide
      ((x.lower.val = b.intType.least ∨ x.upper.val = b.intType.least) ∧
        (y.lower.val = -1 ∨ y.upper.val = -1)) := by
  simp only [divSigned, Corners.of, FixedInt.quot_of_ne_zero hl, FixedInt.quot_of_ne_zero hu,
    Call.checked_bind, bind_assoc]
  refine Call.FaultsBy.congr (.fit_bind fun _ _ => .fit_bind fun _ _ => .fit_bind fun _ _ =>
    .fit_bind fun _ _ => (Call.faultless_pure _).faultsBy not_false) ?_
  rw [not_fits_tdiv_iff x.lower.fits hl, not_fits_tdiv_iff x.lower.fits hu,
    not_fits_tdiv_iff x.upper.fits hl, not_fits_tdiv_iff x.upper.fits hu]
  tauto

theorem faultsBy_div (x y : Interval b) (kx ky : Kind) :
    (x.div y kx ky).FaultsBy .divide (x.QuotientOverflows y kx ky) := by
  by_cases hy : y.isEmpty = true
  · rw [div, if_pos hy]
    refine (Call.faultless_reject _ _).faultsBy ?_
    rintro ⟨hy', -⟩
    rw [hy] at hy'
    cases hy'
  rw [Bool.not_eq_true] at hy
  by_cases h0 : (0 : ℤ) ∈ y
  · rw [div, hy, if_neg Bool.false_ne_true, if_pos (contains_iff.2 h0)]
    exact (Call.faultless_reject _ _).faultsBy fun h => h.2.1 h0
  have hl : y.lower.val ≠ 0 := fun h => h0 (h ▸ lower_mem hy)
  have hu : y.upper.val ≠ 0 := fun h => h0 (h ▸ upper_mem hy)
  by_cases hk : kx.isUnsigned = ky.isUnsigned
  · rcases Kind.unsigned_or_signed_of_alike hk with ⟨rfl, rfl⟩ | ⟨hkx, hky⟩
    · rw [div_of_unsigned hy h0]
      refine (faultsBy_divUnsigned hl hu).congr ?_
      simp [QuotientOverflows, hy, h0]
    · rw [div_of_signed hy h0 hkx hky]
      refine (faultsBy_divSigned hl hu).congr ?_
      simp [QuotientOverflows, hy, h0, hkx, hky]
  · rw [div_of_mixed hy h0 hk]
    refine (Call.faultless_reject _ _).faultsBy ?_
    rintro ⟨-, -, ⟨rfl, rfl, -⟩ | ⟨hkx, hky, -⟩⟩
    · exact hk rfl
    · exact hk ((Bool.eq_false_iff.2 (Kind.not_isUnsigned hkx)).trans
        (Bool.eq_false_iff.2 (Kind.not_isUnsigned hky)).symm)

/-! ## Powers -/

def PowerOverflows (x : Interval b) (n : ℕ) : Prop :=
  ¬ x.Folds n ∧ ¬ (b.intType.Fits (x.lower.val ^ n) ∧ b.intType.Fits (x.upper.val ^ n))

theorem faultsBy_powerBetween (p q : Bound b) (n : ℕ) :
    (Call.checked (powerBetween p q n)).FaultsBy .multiply
      (¬ (b.intType.Fits (p.val ^ n) ∧ b.intType.Fits (q.val ^ n))) := by
  rw [powerBetween, FixedInt.pow_eq_fit, FixedInt.pow_eq_fit]
  simp only [Call.checked_bind]
  refine Call.FaultsBy.congr (.fit_bind fun _ _ => .fit_bind fun _ _ =>
    (Call.faultless_pure _).faultsBy not_false) ?_
  rw [or_false, not_and_or]

theorem faultsBy_power (x : Interval b) (n : ℕ) :
    (x.power n).FaultsBy .multiply (x.PowerOverflows n) := by
  by_cases hfolds : x.Folds n
  · exact (Call.faultless_of_rejected (power_of_folds hfolds)).faultsBy fun h => h.1 hfolds
  rcases x.power_cases n with hf | ⟨-, h⟩ | ⟨-, h⟩
  · exact absurd hf hfolds
  · rw [h]
    refine (faultsBy_powerBetween _ _ n).congr ?_
    rw [PowerOverflows, and_iff_right hfolds]
  · rw [h]
    refine (faultsBy_powerBetween _ _ n).congr ?_
    rw [PowerOverflows, and_iff_right hfolds, and_comm]

/-! ## The operators without arithmetic that can overflow -/

theorem sqrt_faultless (x : Interval b) : x.sqrt.Faultless :=
  Call.faultless_of_rejection fun _ => sqrt_eq_error_iff

theorem relationalSet_faultless (x y : Interval b) : (x.relationalSet y).Faultless :=
  Call.faultless_of_rejection
    (outcome_eq_error_iff_some_empty relationalSet_of_empty relationalSet_of_nonempty)

theorem compare_faultless (x y : Interval b) (c : Comparison) : (x.compare y c).Faultless :=
  Call.faultless_of_rejection (outcome_eq_error_iff_some_empty compare_of_empty compare_of_nonempty)

end Interval

/-! ## Requests -/

/-- A call of an operator that can decline its arguments. -/
inductive Request (b : BoundType) where
  | div (x y : Interval b) (kx ky : Kind)
  | modulo (x y : Interval b) (kx : Kind)
  | power (x : Interval b) (n : ℕ)
  | sqrt (x : Interval b)
  | complement (x : Interval b)
  | relationalSet (x y : Interval b)
  | compare (x y : Interval b) (c : Comparison)
  | univ (n : ℕ) (k : Kind)
  | ofBitWidth (n : ℕ) (k : Kind)
  | bitWidth (x : Interval b) (k : Kind)
  | balance (x : Interval b) (k : Kind)
  | isBalanced (x : Interval b) (k : Kind)
  | ceilLog {t : IntType} (v : FixedInt t)

namespace Request

abbrev Answer : Request b → Type
  | compare _ _ _ => Truth
  | bitWidth _ _ | ceilLog _ => ℕ
  | isBalanced _ _ => Bool
  | _ => Interval b

def run : (q : Request b) → Call q.Answer
  | div x y kx ky => x.div y kx ky
  | modulo x y kx => x.modulo y kx
  | power x n => x.power n
  | sqrt x => x.sqrt
  | complement x => x.complement
  | relationalSet x y => x.relationalSet y
  | compare x y c => x.compare y c
  | univ n k => Interval.univ n k
  | ofBitWidth n k => Interval.ofBitWidth n k
  | bitWidth x k => x.bitWidth k
  | balance x k => x.balance k
  | isBalanced x k => x.isBalanced k
  | ceilLog v => v.ceilLog

/-- The arithmetic step under the request that overflows, if one does. -/
def Overflows : Request b → ArithmeticStep → Prop
  | div x y kx ky, step => step = .divide ∧ x.QuotientOverflows y kx ky
  | modulo x y kx, step => step = .negate ∧ x.RemainderOverflows y kx
  | power x n, step => step = .multiply ∧ x.PowerOverflows n
  | _, _ => False

variable {q : Request b} {step : ArithmeticStep} {p : Prop}

theorem faults_iff (q : Request b) (f : Fault) :
    q.run.outcome = .error (.fault f) ↔ ∃ step, f = .overflow step ∧ q.Overflows step := by
  cases q with
  | div x y kx ky => exact (Interval.faultsBy_div x y kx ky).exists_step f
  | modulo x y kx => exact (Interval.faultsBy_modulo x y kx).exists_step f
  | power x n => exact (Interval.faultsBy_power x n).exists_step f
  | sqrt x => exact iff_of_false (x.sqrt_faultless f) nofun
  | complement x => exact iff_of_false nofun nofun
  | relationalSet x y => exact iff_of_false (x.relationalSet_faultless y f) nofun
  | compare x y c => exact iff_of_false (x.compare_faultless y c f) nofun
  | univ n k | ofBitWidth n k =>
    exact iff_of_false (Call.faultless_of_rejections (Interval.ofBitWidth_eq_error_iff b n k) f)
      nofun
  | bitWidth x k =>
    exact iff_of_false (Call.faultless_of_rejections (Interval.bitWidth_eq_error_iff x k) f) nofun
  | balance x k =>
    exact iff_of_false (Call.faultless_of_rejections (Interval.balance_eq_error_iff x k) f) nofun
  | isBalanced x k =>
    exact iff_of_false (Call.faultless_of_rejections (Interval.isBalanced_eq_error_iff x k) f) nofun
  | ceilLog v => exact iff_of_false (v.ceilLog_faultless f) nofun

/-- A request is answered by a result or a rejection, unless a step of arithmetic overflows under
it; then it faults by that overflow and by nothing else. -/
theorem answered_unless_overflow (q : Request b) :
    ((∃ a, q.run.outcome = .ok a) ∨ (∃ r, q.run.outcome = .error (.rejected r)) ↔
      ∀ step, ¬ q.Overflows step) ∧
    ∀ f, q.run.outcome = .error (.fault f) ↔ ∃ step, f = .overflow step ∧ q.Overflows step := by
  refine ⟨?_, q.faults_iff⟩
  constructor
  · rintro h step hover
    have hfault := (q.faults_iff _).2 ⟨step, rfl, hover⟩
    rcases h with ⟨a, ha⟩ | ⟨r, hr⟩
    · rw [ha] at hfault
      cases hfault
    · rw [hr] at hfault
      cases hfault
  · intro hsafe
    cases h : q.run.outcome with
    | ok a => exact .inl ⟨a, rfl⟩
    | error e =>
      cases e with
      | rejected r => exact .inr ⟨r, rfl⟩
      | fault f =>
        obtain ⟨step, -, hover⟩ := (q.faults_iff f).1 h
        exact absurd hover (hsafe step)

/-- A quotient overflows behind its guards, and a remainder even under a kind that it has no rule for,
since its bound is found before the kind is looked at. A power is a product without any guard. -/
theorem requests_can_fault :
    (div (.between (-128) 5) (.between (-3) (-1)) .signed .signed : Request .int8).run.outcome =
      .error (.fault (.overflow .divide)) ∧
    (modulo (.between 0 5) (.between (-128) 3) .signedPositive : Request .int8).run.outcome =
      .error (.fault (.overflow .negate)) ∧
    (power (.between 5 100) 2 : Request .int8).run.outcome =
      .error (.fault (.overflow .multiply)) ∧
    ¬ ∀ q : Request .int8, q.run.Faultless := by
  have hmodulo : (modulo (.between 0 5) (.between (-128) 3) .signedPositive :
      Request .int8).run.outcome = .error (.fault (.overflow .negate)) := rfl
  exact ⟨rfl, hmodulo, rfl, fun h => h _ _ hmodulo⟩

end Request

end Bitspan
