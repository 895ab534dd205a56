import Bitspan.FixedInt.Basic

set_option autoImplicit false

/-!
# Checked arithmetic

Each operation computes the exact integer result and then asks whether it fits the type. A result
that does not fit is a fault, never a wrapped or clamped value. A fault is a defect of the
arguments that no caller inspects; it is kept apart from the rejections of `Bitspan.Call`.
-/

namespace Bitspan

inductive ArithmeticStep where
  | add
  | subtract
  | multiply
  | negate
  | divide
  | shiftLeft
deriving DecidableEq

def ArithmeticStep.verb : ArithmeticStep → String
  | add => "add"
  | subtract => "subtract"
  | multiply => "multiply"
  | negate => "negate"
  | divide => "divide"
  | shiftLeft => "shift left"

inductive Fault where
  | overflow (step : ArithmeticStep)
  | zeroDivisor
  | negativeRoot
deriving DecidableEq

def Fault.message : Fault → String
  | overflow step => "attempt to " ++ step.verb ++ " with overflow"
  | zeroDivisor => "attempt to divide by zero"
  | negativeRoot => "the square root of a negative is imaginary"

abbrev Checked := Except Fault

namespace Checked

variable {α β : Type} {c : Checked α} {f : α → Checked β}

theorem bind_eq_ok_iff {r : β} : c >>= f = .ok r ↔ ∃ a, c = .ok a ∧ f a = .ok r := by
  cases c with
  | ok a =>
    change f a = .ok r ↔ _
    simp
  | error d =>
    change (Except.error d : Checked β) = .ok r ↔ _
    simp

theorem bind_eq_error_iff {e : Fault} :
    c >>= f = .error e ↔ c = .error e ∨ ∃ a, c = .ok a ∧ f a = .error e := by
  cases c with
  | ok a =>
    change f a = .error e ↔ _
    simp
  | error d =>
    change (Except.error d : Checked β) = .error e ↔ _
    simp

end Checked

namespace FixedInt

variable {t : IntType}

/-- The exact result `v` of an arithmetic step, or the overflow of that step. -/
def fit (step : ArithmeticStep) (v : Int) : Checked (FixedInt t) :=
  if h : t.Fits v then .ok ⟨v, h⟩ else .error (.overflow step)

theorem fit_eq_ok_iff {step : ArithmeticStep} {v : Int} {x : FixedInt t} :
    fit step v = .ok x ↔ x.val = v := by
  unfold fit
  split
  · rw [Except.ok.injEq]
    exact ⟨fun e => e ▸ rfl, fun e => ext e.symm⟩
  · rename_i h
    constructor
    · intro e
      cases e
    · intro e
      exact absurd (e ▸ x.fits) h

theorem fit_eq_error_iff {step : ArithmeticStep} {v : Int} {f : Fault} :
    (fit step v : Checked (FixedInt t)) = .error f ↔ f = .overflow step ∧ ¬ t.Fits v := by
  unfold fit
  split
  · rename_i h
    simp [h]
  · rename_i h
    simp [h, eq_comm]

theorem fit_of_fits {step : ArithmeticStep} {v : Int} (h : t.Fits v) :
    fit step v = .ok (⟨v, h⟩ : FixedInt t) :=
  fit_eq_ok_iff.2 rfl

def add (x y : FixedInt t) : Checked (FixedInt t) := fit .add (x.val + y.val)

def sub (x y : FixedInt t) : Checked (FixedInt t) := fit .subtract (x.val - y.val)

def mul (x y : FixedInt t) : Checked (FixedInt t) := fit .multiply (x.val * y.val)

def neg (x : FixedInt t) : Checked (FixedInt t) := fit .negate (-x.val)

/-- The quotient rounded toward zero. -/
def quot (x y : FixedInt t) : Checked (FixedInt t) :=
  if y.val = 0 then .error .zeroDivisor else fit .divide (x.val.tdiv y.val)

/-- The magnitude of the least value of a signed type does not fit the type. -/
def abs (x : FixedInt t) : Checked (FixedInt t) :=
  if x.val < 0 then x.neg else .ok x

/-- The power of two with exponent `e`, as the number one shifted left. -/
def powerOfTwo (e : Nat) : Checked (FixedInt t) := fit .shiftLeft (twoPow e)

theorem add_eq_ok_iff {x y z : FixedInt t} : x.add y = .ok z ↔ z.val = x.val + y.val :=
  fit_eq_ok_iff

theorem sub_eq_ok_iff {x y z : FixedInt t} : x.sub y = .ok z ↔ z.val = x.val - y.val :=
  fit_eq_ok_iff

theorem mul_eq_ok_iff {x y z : FixedInt t} : x.mul y = .ok z ↔ z.val = x.val * y.val :=
  fit_eq_ok_iff

theorem neg_eq_ok_iff {x z : FixedInt t} : x.neg = .ok z ↔ z.val = -x.val :=
  fit_eq_ok_iff

theorem quot_eq_ok_iff {x y z : FixedInt t} :
    x.quot y = .ok z ↔ y.val ≠ 0 ∧ z.val = x.val.tdiv y.val := by
  unfold quot
  split
  · rename_i h
    simp [h]
  · rename_i h
    simp [h, fit_eq_ok_iff]

theorem quot_of_ne_zero {x y : FixedInt t} (h : y.val ≠ 0) :
    x.quot y = fit .divide (x.val.tdiv y.val) := by
  rw [quot, if_neg h]

theorem abs_eq_ok_iff {x z : FixedInt t} : x.abs = .ok z ↔ z.val = x.val.natAbs := by
  unfold abs
  split
  · rw [neg_eq_ok_iff]
    omega
  · rw [Except.ok.injEq, ← val_inj]
    omega

theorem neg_eq_error_iff {x : FixedInt t} {f : Fault} :
    x.neg = .error f ↔ f = .overflow .negate ∧ ¬ t.Fits (-x.val) :=
  fit_eq_error_iff

theorem abs_eq_error_iff {x : FixedInt t} {f : Fault} :
    x.abs = .error f ↔ f = .overflow .negate ∧ ¬ t.Fits x.val.natAbs := by
  unfold abs
  split
  · rename_i h
    have e : (x.val.natAbs : Int) = -x.val := by omega
    rw [neg_eq_error_iff, e]
  · rename_i h
    have e : (x.val.natAbs : Int) = x.val := by omega
    rw [e]
    simp [x.fits]

end FixedInt

end Bitspan
