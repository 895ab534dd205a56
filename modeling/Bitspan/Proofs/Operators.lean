import Bitspan.Proofs.Lattice
import Bitspan.Proofs.Linear
import Bitspan.Proofs.Powers
import Bitspan.Proofs.Quotient
import Bitspan.Proofs.Remainder
import Bitspan.Proofs.Roots

set_option autoImplicit false

/-!
# Operators and their exact results

The operators of one and of two operands, each with its interval form `apply` and with the relation
`Result` to the exact integers that it may give. A successful interval form encloses all results on
members of the operands.
-/

namespace Bitspan

variable {b : BoundType}

inductive UnaryOp where
  | neg
  | power (n : ℕ)
  | sqrt
  | abs

inductive BinaryOp where
  | add
  | sub
  | mul (kx ky : Kind)
  | div (kx ky : Kind)
  | modulo (kx : Kind)
  | max
  | min
  | hull
  | union
  | mux

namespace UnaryOp

def apply : UnaryOp → Interval b → Call (Interval b)
  | neg, x => .checked x.neg
  | power n, x => x.power n
  | sqrt, x => x.sqrt
  | abs, x => .checked x.abs

/-- The exact results on an integer. A root may be rounded either way. -/
def Result : UnaryOp → ℤ → ℤ → Prop
  | neg, a, r => -a = r
  | power n, a, r => a ^ n = r
  | sqrt, a, r => IsFloorRoot a r ∨ IsCeilRoot a r
  | abs, a, r => |a| = r

end UnaryOp

namespace BinaryOp

def apply : BinaryOp → Interval b → Interval b → Call (Interval b)
  | add, x, y => .checked (x.add y)
  | sub, x, y => .checked (x.sub y)
  | mul kx ky, x, y => .checked (x.mul y kx ky)
  | div kx ky, x, y => x.div y kx ky
  | modulo kx, x, y => x.modulo y kx
  | max, x, y => pure (Max.max x y)
  | min, x, y => pure (Min.min x y)
  | hull, x, y => pure (x.hull y)
  | union, x, y => pure (x.union y)
  | mux, x, y => pure (x.mux y)

def Suits : BinaryOp → Interval b → Interval b → Prop
  | mul kx ky, x, y | div kx ky, x, y => kx.Suits x ∧ ky.Suits y
  | modulo kx, x, _ => kx.Suits x
  | _, _, _ => True

/-- The exact results on two integers. Quotient and remainder round toward zero, there is no
remainder by zero, and a join may be either operand. -/
def Result : BinaryOp → ℤ → ℤ → ℤ → Prop
  | add, a, c, r => a + c = r
  | sub, a, c, r => a - c = r
  | mul _ _, a, c, r => a * c = r
  | div _ _, a, c, r => a.tdiv c = r
  | modulo _, a, c, r => c ≠ 0 ∧ a.tmod c = r
  | max, a, c, r => Max.max a c = r
  | min, a, c, r => Min.min a c = r
  | hull, a, c, r | union, a, c, r | mux, a, c, r => r = a ∨ r = c

end BinaryOp

namespace UnaryOp

variable {x z : Interval b} {op : UnaryOp}

theorem apply_encloses (hx : x.isEmpty = false) (h : (op.apply x).outcome = .ok z) :
    z.Encloses {r | ∃ a ∈ x, op.Result a r} := by
  cases op with
  | neg => exact (Interval.tightImage_neg hx).encloses (Call.outcome_checked_eq_ok_iff.1 h)
  | power n => exact Interval.power_encloses hx h
  | sqrt => exact Interval.sqrt_encloses hx h
  | abs => exact Interval.abs_encloses hx (Call.outcome_checked_eq_ok_iff.1 h)

end UnaryOp

namespace BinaryOp

variable {x y z : Interval b} {op : BinaryOp}

theorem apply_encloses (hx : x.isEmpty = false) (hy : y.isEmpty = false) (hop : op.Suits x y)
    (h : (op.apply x y).outcome = .ok z) :
    z.Encloses {r | ∃ a ∈ x, ∃ c ∈ y, op.Result a c r} := by
  cases op with
  | add => exact (Interval.tightImage_add hx hy).encloses (Call.outcome_checked_eq_ok_iff.1 h)
  | sub => exact (Interval.tightImage_sub hx hy).encloses (Call.outcome_checked_eq_ok_iff.1 h)
  | mul kx ky =>
    exact (Interval.tightImage_mul hx hy hop.1 hop.2).encloses (Call.outcome_checked_eq_ok_iff.1 h)
  | div kx ky => exact Interval.div_encloses hx hop.1 hop.2 h
  | modulo kx => exact Interval.modulo_encloses hx hop h
  | max =>
    cases h
    exact Interval.max_encloses hx hy
  | min =>
    cases h
    exact Interval.min_encloses hx hy
  | hull | union | mux =>
    cases h
    exact Interval.hull_encloses hx

end BinaryOp

end Bitspan
