import Bitspan.FixedInt.Elementary
import Bitspan.Interval.Basic

set_option autoImplicit false

/-!
# Bit widths and balanced intervals

The values of `n` bits range from `0` to `2 ^ n - 1` without a sign, and from `-2 ^ (n - 1)` to
`2 ^ (n - 1) - 1` with one. In the other direction, the width of an interval is the least number of
bits that counts its values, for both kinds alike; a signed interval gets no further bit for the
sign.

A balanced interval runs up to a power of two less one, from zero or from the negation of that
power. An interval is widened to a balanced one by the logarithms of its bounds, so a bound of zero
that has to be read is declined.
-/

namespace Bitspan.Interval

variable {b : BoundType}

/-- The value `2 ^ n - 1`. One that does not fit is reported for `width`. -/
def allOnes (width : Nat) : Nat → Call (Bound b)
  | 0 => return 0
  | n + 1 =>
    -- Starting from `2 ^ n`, no greater value than the result is needed on the way.
    match FixedInt.ofInt? (twoPow n) with
    | none => .rejectSilently (.widthOverflow width)
    | some (half : Bound b) => do
      let rest ← .checked (half.sub 1)
      match FixedInt.ofInt? (rest.val + half.val) with
      | none => .rejectSilently (.widthOverflow width)
      | some ones => return ones

def widthBounds (n : Nat) (kind : Kind) : Call (Interval b) :=
  if kind.isUnsigned then do
    let upper ← allOnes n n
    return ⟨0, upper⟩
  else do
    let upper ← allOnes n (n - 1)
    let reflected ← .checked upper.neg
    let lower ← .checked (reflected.sub 1)
    return ⟨lower, upper⟩

def ofBitWidth (n : Nat) (kind : Kind) : Call (Interval b) :=
  if n = 0 ∨ maxBitWidth < n then
    .reject (.widthOutOfRange n) s!"bit-width {n} out of range"
  else do
    let x ← widthBounds n kind
    .log .trace s!"{n} bits ({kind}) -> {x}"
    return x

def univ (n : Nat) (kind : Kind) : Call (Interval b) := ofBitWidth n kind

def bitWidth (x : Interval b) (kind : Kind) : Call Nat :=
  if x.isEmpty then
    .reject .emptyInterval s!"bit-width of the empty interval {x}"
  else
    match kind with
    | .unsigned | .signed => do
      let count ← .checked x.wideSize
      let n ← count.ceilLog
      .log .trace s!"{x} ({kind}) -> {n} bits"
      return n
    | .signedPositive | .signedNegative =>
      .reject (.unsupportedKinds .bitWidth [kind])
        s!"{Operator.bitWidth} requires an unsigned or signed kind, got {kind}"

/-! ## Balanced intervals -/

/-- The bound equal to `v`; a value that does not fit is reported for `width`. -/
def narrow (v : FixedInt .wide) (width : Nat) : Call (Bound b) :=
  match FixedInt.ofInt? v.val with
  | none => .rejectSilently (.widthOverflow width)
  | some bound => return bound

def balanceUnsigned (x : Interval b) : Call (Interval b) := do
  let e ← x.upper.ceilLog
  let power ← .checked (FixedInt.powerOfTwo e : Checked (FixedInt .wide))
  let top ← .checked (power.sub 1)
  let upper ← narrow top e
  return ⟨0, upper⟩

def balanceSigned (x : Interval b) : Call (Interval b) := do
  let upperMagnitude ← .checked x.upper.widen.abs
  let upperExponent ← upperMagnitude.ceilLog
  let lowerMagnitude ← .checked x.lower.widen.abs
  let lowerExponent ← lowerMagnitude.ceilLog
  let e := max upperExponent lowerExponent
  let power ← .checked (FixedInt.powerOfTwo e : Checked (FixedInt .wide))
  let bottom ← .checked power.neg
  let lower ← narrow bottom (e + 1)
  let top ← .checked (power.sub 1)
  let upper ← narrow top (e + 1)
  return ⟨lower, upper⟩

def balance (x : Interval b) (kind : Kind) : Call (Interval b) :=
  if kind = .unsigned ∧ x.isPositive then x.balanceUnsigned
  else if kind = .signed then x.balanceSigned
  else
    .reject (.unsupportedKinds .balance [kind]) s!"cannot balance {x} as {kind}"

def isBalanced (x : Interval b) (kind : Kind) : Call Bool := do
  let n ← x.bitWidth kind
  let power ← .checked (FixedInt.powerOfTwo n : Checked (FixedInt .wide))
  let top ← .checked (power.sub 1)
  if kind.isUnsigned then
    return x.lower.val = 0 ∧ x.upper.val = top.val
  else do
    let bottom ← .checked power.neg
    return x.lower.val = bottom.val ∧ x.upper.val = top.val

end Bitspan.Interval
