import Bitspan.FixedInt.Elementary
import Bitspan.Interval.Basic

set_option autoImplicit false

/-!
# Arithmetic on intervals

The bounds of a result come from the bounds of the operands. Every bound listed is computed, and one
that does not fit the type is a fault of the whole operation, even where another one would have been
chosen. Quotients, remainders, powers and roots decline some of their arguments, most of them before
any arithmetic.
-/

namespace Bitspan

variable {b : BoundType}

/-! ## Sums, differences, negation and magnitude -/

namespace Interval

def add (x y : Interval b) : Checked (Interval b) := do
  let lower ← x.lower.add y.lower
  let upper ← x.upper.add y.upper
  return ⟨lower, upper⟩

def sub (x y : Interval b) : Checked (Interval b) := do
  let lower ← x.lower.sub y.upper
  let upper ← x.upper.sub y.lower
  return ⟨lower, upper⟩

def neg (x : Interval b) : Checked (Interval b) := do
  let lower ← x.upper.neg
  let upper ← x.lower.neg
  return ⟨lower, upper⟩

/-- From zero to the greater magnitude of the two bounds. -/
def abs (x : Interval b) : Checked (Interval b) := do
  let upper ← x.upper.abs
  let lower ← x.lower.abs
  return ⟨0, max upper lower⟩

def isSymmetric (x : Interval b) : Checked Bool := do
  let reflected ← x.upper.neg
  return x.lower = reflected

end Interval

/-! ## Products

The extreme products are among the four products of a bound of each operand. An operand tagged as
unsigned is taken to have no negative value, which leaves fewer products to compare.
-/

structure Corners (b : BoundType) where
  lowerLower : Bound b
  lowerUpper : Bound b
  upperLower : Bound b
  upperUpper : Bound b

namespace Corners

def least (c : Corners b) : Bound b :=
  min (min c.lowerLower c.lowerUpper) (min c.upperLower c.upperUpper)

def greatest (c : Corners b) : Bound b :=
  max (max c.lowerLower c.lowerUpper) (max c.upperLower c.upperUpper)

/-- The operation at the four corners, in the order of the fields. -/
def of (op : Bound b → Bound b → Checked (Bound b)) (x y : Interval b) : Checked (Corners b) := do
  let lowerLower ← op x.lower y.lower
  let lowerUpper ← op x.lower y.upper
  let upperLower ← op x.upper y.lower
  let upperUpper ← op x.upper y.upper
  return ⟨lowerLower, lowerUpper, upperLower, upperUpper⟩

def span (c : Corners b) : Interval b := ⟨c.least, c.greatest⟩

end Corners

namespace Interval

def mulUnsigned (x y : Interval b) : Checked (Interval b) := do
  let lower ← x.lower.mul y.lower
  let upper ← x.upper.mul y.upper
  return ⟨lower, upper⟩

/-- Each bound of the right operand, which alone may be negative, is tried with both of the left. -/
def mulUnsignedSigned (x y : Interval b) : Checked (Interval b) := do
  let upperLower ← x.upper.mul y.lower
  let lowerLower ← x.lower.mul y.lower
  let upperUpper ← x.upper.mul y.upper
  let lowerUpper ← x.lower.mul y.upper
  return ⟨min upperLower lowerLower, max upperUpper lowerUpper⟩

def mulSignedUnsigned (x y : Interval b) : Checked (Interval b) := do
  let lowerUpper ← x.lower.mul y.upper
  let lowerLower ← x.lower.mul y.lower
  let upperUpper ← x.upper.mul y.upper
  let upperLower ← x.upper.mul y.lower
  return ⟨min lowerUpper lowerLower, max upperUpper upperLower⟩

def mulSigned (x y : Interval b) : Checked (Interval b) := do
  let corners ← Corners.of FixedInt.mul x y
  return corners.span

def mul (x y : Interval b) (kx ky : Kind) : Checked (Interval b) :=
  match kx.inSignedFamily, ky.inSignedFamily with
  | false, false => x.mulUnsigned y
  | false, true => x.mulUnsignedSigned y
  | true, false => x.mulSignedUnsigned y
  | true, true => x.mulSigned y

/-! ## Quotients and remainders

A divisor that is empty or holds zero is declined before any division. The quotient rounds toward
zero. The remainder is bounded by the greatest magnitude of the divisor less one, and that bound is
found before the kind is looked at.
-/

/-- The record for kinds that an operator has no rule for; their names stand in quotes. -/
def rejectKinds {α : Type} (op : Operator) (kinds : List Kind) : Call α :=
  let quoted := kinds.map fun k => "\"" ++ k.name ++ "\""
  .reject (.unsupportedKinds op kinds)
    (s!"{op} rejects the arithmetic kind(s) [" ++ ", ".intercalate quoted ++ "]")

def divUnsigned (x y : Interval b) : Checked (Interval b) := do
  let lower ← x.lower.quot y.upper
  let upper ← x.upper.quot y.lower
  return ⟨lower, upper⟩

def divSigned (x y : Interval b) : Checked (Interval b) := do
  let corners ← Corners.of FixedInt.quot x y
  return corners.span

def div (x y : Interval b) (kx ky : Kind) : Call (Interval b) :=
  if y.isEmpty then
    .reject (.emptyOperand .div) s!"div by the empty interval {y}"
  else if y.contains 0 then
    .reject .divisorContainsZero s!"div by {y} which contains zero"
  else
    match kx.inSignedFamily, ky.inSignedFamily with
    | false, false => .checked (x.divUnsigned y)
    | true, true => .checked (x.divSigned y)
    | _, _ => rejectKinds .div [kx, ky]

/-- The greatest magnitude of a remainder by a value of `y`. -/
def remainderLimit (y : Interval b) : Checked (Bound b) := do
  let reflected ← y.lower.neg
  (max y.upper reflected).sub 1

def modulo (x y : Interval b) (kx : Kind) : Call (Interval b) := do
  let limit ← .checked y.remainderLimit
  match kx with
  | .unsigned => return ⟨0, max x.upper limit⟩
  | .signed =>
    let reflected ← .checked x.lower.neg
    let magnitude := max (max x.upper reflected) limit
    let lower ← .checked magnitude.neg
    return ⟨lower, magnitude⟩
  | .signedPositive | .signedNegative => rejectKinds .modulo [kx]

/-! ## Powers, roots and the complement

A power whose exponent is odd, or whose base is not negative, grows with the base; an even power of
a base that is not positive falls with it. An even power of an interval with values on both sides
of zero is declined, as is the bitwise complement.
-/

def powerBetween (least greatest : Bound b) (n : Nat) : Checked (Interval b) := do
  let lower ← least.pow n
  let upper ← greatest.pow n
  return ⟨lower, upper⟩

def power (x : Interval b) (n : Nat) : Call (Interval b) :=
  if n % 2 = 1 ∨ 0 ≤ x.lower then
    .checked (powerBetween x.lower x.upper n)
  else if x.upper ≤ 0 then
    .checked (powerBetween x.upper x.lower n)
  else
    .reject (.notImplemented .power) s!"exp_integer of {x} straddling zero with even exponent {n}"

def rootBetween (x : Interval b) : Checked (Interval b) := do
  let lower ← x.lower.floorRoot
  let upper ← x.upper.ceilRoot
  return ⟨lower, upper⟩

def sqrt (x : Interval b) : Call (Interval b) :=
  if 0 ≤ x.lower ∧ 0 ≤ x.upper then
    .checked x.rootBetween
  else
    .reject (.outsideDomain .sqrt) s!"sqrt of {x} which has a negative bound"

def complement (x : Interval b) : Call (Interval b) :=
  .reject (.notImplemented .complement) s!"bitwise not of {x} requested"

end Interval

end Bitspan
