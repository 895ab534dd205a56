import Bitspan.Interval.Arithmetic
import Bitspan.Interval.BitWidth
import Bitspan.Interval.Lattice

set_option autoImplicit false

/-!
# Demonstration

A fixed list of trials applies the operators to sample intervals. A successful trial prints a line;
a failed one is logged as an error, after the records of its own call.
-/

namespace Bitspan.Demo

inductive Event where
  | printed (line : String)
  | logged (record : Record)
deriving DecidableEq

/-- An operator at given arguments, with its title and the text of the expression. -/
structure Trial where
  title : String
  expression : String
  result : Call String

namespace Trial

def arithmetic {α : Type} [ToString α] (title expression : String) (result : Checked α) : Trial :=
  ⟨title, expression, toString <$> Call.checked result⟩

def operator {α : Type} [ToString α] (title expression : String) (result : Call α) : Trial :=
  ⟨title, expression, toString <$> result⟩

def events (t : Trial) : List Event :=
  let last := match t.result.outcome with
    | .ok value => Event.printed s!"Testing {t.title}: {t.expression} = {value}"
    | .error e => Event.logged ⟨.error, s!"{t.title}: {t.expression} failed: {e.message}"⟩
  t.result.records.map Event.logged ++ [last]

end Trial

def sample (lower upper : Int) (hl : BoundType.int32.intType.Fits lower := by decide)
    (hu : BoundType.int32.intType.Fits upper := by decide) : Interval .int32 :=
  ⟨⟨lower, hl⟩, ⟨upper, hu⟩⟩

def trials : List Trial :=
  let a := sample 0 1
  let b := sample 2 5
  let c := sample 7 7
  let d := sample (-8) 7
  let f := sample 25 178
  let g := sample 15 244
  let h := sample (-32) 63
  let i := sample 0 1023
  let j := sample (-64) 7
  let k := sample 5 38
  let l := sample (-65) 121
  [ .arithmetic "IntervalAdd" s!"{a} + {b}" (a.add b),
    .arithmetic "IntervalAdd" s!"{a} + {c}" (a.add c),
    .arithmetic "IntervalSub" s!"{a} - {a}" (a.sub a),
    .arithmetic "IntervalNeg" s!"neg {a}" a.neg,
    .arithmetic "IntervalMul" s!"{b} * {d}" (b.mul d .signed .signed),
    .operator "IntervalDiv for UNSIGNEDs" s!"{f} / {b}" (f.div b .unsigned .unsigned),
    .operator "IntervalDiv for SIGNEDs" s!"{f} / {b}" (f.div b .signed .signed),
    .operator "IntervalMod for UNSIGNEDs" s!"{f} % {b}" (f.modulo b .unsigned),
    .operator "IntervalMod for SIGNEDs" s!"{f} % {b}" (f.modulo b .signed),
    .operator "IntervalSqrt" s!"sqrt {g}" g.sqrt,
    .arithmetic "IntervalAbs" s!"abs {h}" h.abs,
    .arithmetic "IntervalMax" s!"max {a} , {b}" (.ok (max a b)),
    .arithmetic "IntervalMin" s!"min {a} , {b}" (.ok (min a b)),
    .operator "IntegerBitwidthToInterval for UNSIGNEDs" "BW2IA 11"
      (Interval.ofBitWidth 11 .unsigned : Call (Interval .int32)),
    .operator "IntegerBitwidthToInterval for SIGNEDs" "BW2IA 24"
      (Interval.ofBitWidth 24 .signed : Call (Interval .int32)),
    .operator "IntervalToIntegerBitwidth for UNSIGNEDs" s!"IA2BW {i}" (i.bitWidth .unsigned),
    .operator "IntervalToIntegerBitwidth for SIGNEDs" s!"IA2BW {j}" (j.bitWidth .signed),
    .operator "IntervalBalanced for UNSIGNEDs" s!"BALANCE {k}" (k.balance .unsigned),
    .operator "IntervalBalanced for SIGNEDs" s!"BALANCE {l}" (l.balance .signed),
    .operator "IntervalDiv by zero" s!"{f} / {d}" (f.div d .signed .signed),
    .operator "IntervalNot" s!"not {a}" a.complement]

/-- The threshold with the name, and otherwise the one that lets errors through to information. -/
def threshold (name : Option String) : Threshold :=
  (name.bind Threshold.parse?).getD (.upTo .info)

def run (threshold : Threshold) : List Event :=
  (trials.flatMap Trial.events).filter fun
    | .printed _ => true
    | .logged record => threshold.admits record

end Bitspan.Demo
