import Bitspan.Call
import Bitspan.Interval.Lattice

set_option autoImplicit false

/-!
# Comparisons

A comparison of two intervals asks about every value of the one with every value of the other. The
answer is three-valued: it holds for all pairs, for none, or for some and not for others. An empty
operand is declined, because every answer would be vacuous.
-/

namespace Bitspan

inductive Truth where
  | always
  | never
  | mixed
deriving DecidableEq

namespace Truth

/-- The answer when `all` tells that every pair satisfies the question and `none` that no pair does. -/
def ofTests (all none : Bool) : Truth :=
  if all then always else if none then never else mixed

def opposite : Truth → Truth
  | always => never
  | never => always
  | mixed => mixed

end Truth

inductive Comparison where
  | eq
  | ne
  | lt
  | le
  | gt
  | ge
deriving DecidableEq

namespace Comparison

def name : Comparison → String
  | eq => "Eq"
  | ne => "Ne"
  | lt => "Lt"
  | le => "Le"
  | gt => "Gt"
  | ge => "Ge"

instance : ToString Comparison := ⟨name⟩

def Holds : Comparison → Int → Int → Prop
  | eq, v, w => v = w
  | ne, v, w => v ≠ w
  | lt, v, w => v < w
  | le, v, w => v ≤ w
  | gt, v, w => v > w
  | ge, v, w => v ≥ w

def negation : Comparison → Comparison
  | eq => ne
  | ne => eq
  | lt => ge
  | le => gt
  | gt => le
  | ge => lt

def converse : Comparison → Comparison
  | eq => eq
  | ne => ne
  | lt => gt
  | le => ge
  | gt => lt
  | ge => le

theorem holds_negation_iff (c : Comparison) (v w : Int) : c.negation.Holds v w ↔ ¬ c.Holds v w := by
  cases c <;> simp only [negation, Holds] <;> omega

theorem holds_converse_iff (c : Comparison) (v w : Int) : c.converse.Holds v w ↔ c.Holds w v := by
  cases c <;> simp only [converse, Holds] <;> omega

end Comparison

namespace Interval

variable {b : BoundType}

/-- The integers that stand for the outcomes of a comparison, zero and one. -/
def relationalSet (x y : Interval b) : Call (Interval b) :=
  if x.isEmpty || y.isEmpty then
    .reject (.emptyOperand .relationalSet) s!"relational set of {x} and {y} with an empty operand"
  else
    return ⟨0, 1⟩

def sameValue (x y : Interval b) : Bool := x.isSingleton && x = y

def relation (x y : Interval b) : Comparison → Truth
  | .lt => .ofTests (x.upper < y.lower) (y.upper ≤ x.lower)
  | .le => .ofTests (x.upper ≤ y.lower) (y.upper < x.lower)
  | .gt => .ofTests (y.upper < x.lower) (x.upper ≤ y.lower)
  | .ge => .ofTests (y.upper ≤ x.lower) (x.upper < y.lower)
  | .eq => .ofTests (x.sameValue y) (x.intersection y).isEmpty
  | .ne => .ofTests (x.intersection y).isEmpty (x.sameValue y)

def compare (x y : Interval b) (c : Comparison) : Call Truth :=
  if x.isEmpty || y.isEmpty then
    .reject (.emptyOperand .compare) s!"compare {x} {c} {y} with an empty operand"
  else
    return x.relation y c

end Interval

end Bitspan
