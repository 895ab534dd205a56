set_option autoImplicit false

/-!
# Kinds and rejections

An operand is unsigned, signed, or signed with a known sign. The last three form the signed family.
A rejection is the reason for which an operator declines its arguments, a cause with its data; the
text shown for it is the single function `Rejection.message`.
-/

namespace Bitspan

/-! ## Arithmetic kinds -/

inductive Kind where
  | unsigned
  | signed
  | signedPositive
  | signedNegative
deriving DecidableEq

/-- A text that names no arithmetic kind. -/
structure UnknownKind where
  text : String
deriving DecidableEq

namespace Kind

def isUnsigned (k : Kind) : Bool := k = unsigned

def inSignedFamily (k : Kind) : Bool := !k.isUnsigned

def name : Kind → String
  | unsigned => "unsigned"
  | signed => "signed"
  | signedPositive => "signed positive"
  | signedNegative => "signed negative"

instance : ToString Kind := ⟨name⟩

def all : List Kind := [unsigned, signed, signedPositive, signedNegative]

def parse (text : String) : Except UnknownKind Kind :=
  match all.find? (·.name = text) with
  | some k => .ok k
  | none => .error ⟨text⟩

theorem mem_all (k : Kind) : k ∈ all := by
  cases k <;> decide

theorem name_injective {j k : Kind} (h : j.name = k.name) : j = k := by
  revert h
  cases j <;> cases k <;> decide

theorem parse_eq_ok_iff {text : String} {k : Kind} : parse text = .ok k ↔ text = k.name := by
  unfold parse
  constructor
  · intro h
    split at h
    · rename_i j hj
      cases h
      have hname := List.find?_some hj
      exact (of_decide_eq_true hname).symm
    · cases h
  · rintro rfl
    cases k <;> rfl

end Kind

namespace UnknownKind

def message (_ : UnknownKind) : String := "unknown arithmetic kind"

/-- The text with the names that would have been accepted, each between backticks. -/
def details (e : UnknownKind) : String :=
  let names := Kind.all.map fun k => "`" ++ k.name ++ "`"
  "unknown variant `" ++ e.text ++ "`, expected one of " ++ ", ".intercalate names

end UnknownKind

/-! ## Rejections -/

/-- The operators that can decline their arguments. -/
inductive Operator where
  | div
  | modulo
  | power
  | sqrt
  | complement
  | relationalSet
  | compare
  | bitWidth
  | balance
  | ceilLog
deriving DecidableEq

def Operator.name : Operator → String
  | div => "div"
  | modulo => "modulo"
  | power => "exp_integer"
  | sqrt => "sqrt"
  | complement => "not"
  | relationalSet => "relational_set"
  | compare => "compare"
  | bitWidth => "interval_to_bitwidth"
  | balance => "to_balanced"
  | ceilLog => "ceil_log2"

instance : ToString Operator := ⟨Operator.name⟩

/-- The greatest number of bits that an interval is built from. -/
def maxBitWidth : Nat := 32

inductive Rejection where
  | widthOutOfRange (width : Nat)
  | widthOverflow (width : Nat)
  | divisorContainsZero
  | outsideDomain (op : Operator)
  | unsupportedKinds (op : Operator) (kinds : List Kind)
  | emptyOperand (op : Operator)
  | emptyInterval
  | notImplemented (op : Operator)
deriving DecidableEq

def Rejection.message : Rejection → String
  | widthOutOfRange n => s!"bit-width {n} is outside the supported range 1..={maxBitWidth}"
  | widthOverflow n => s!"bit-width {n} does not fit the bound type"
  | divisorContainsZero => "division by an interval containing zero"
  | outsideDomain op => s!"input is outside the domain of {op}"
  | unsupportedKinds op kinds =>
    s!"{op} does not support the arithmetic kind(s) " ++ ", ".intercalate (kinds.map Kind.name)
  | emptyOperand op => s!"{op} received an empty operand"
  | emptyInterval => "unable to compute the bit-width of an empty interval"
  | notImplemented op => s!"{op} is not implemented"

end Bitspan
