import Bitspan.Interval.Basic
import Bitspan.Json.Reader
import Bitspan.Rejection

set_option autoImplicit false

/-!
# Intervals and kinds as JSON

An interval is handed to the format as the pair of its bounds, and a kind as the string of its name.
What the format makes of a pair, of an integer of a type and of a text is not decided here: it is
assumed, and `FormatLaws` is all that is assumed of it. Nothing is asked about the order of the two
bounds.
-/

namespace Bitspan

/-! ## What is assumed of the format -/

namespace Json

def ofPair (first second : Json) : Json := .array [first, second]

def pair? : Json → Option (Json × Json)
  | .array [first, second] => some (first, second)
  | _ => none

end Json

namespace FixedInt

variable {t : IntType}

def toJson (x : FixedInt t) : Json := .integer x.val

def ofJson? : Json → Option (FixedInt t)
  | .integer v => ofInt? v
  | _ => none

end FixedInt

/-- The laws of the format that intervals rely on. Of tuples: a pair is an array of exactly two items.
Of integers: one of a type is an integer numeral in its range. Of texts: a pair of integers is
written without blanks and read back. -/
structure FormatLaws : Prop where
  pair_iff : ∀ {j first second : Json}, j.pair? = some (first, second) ↔ j = .ofPair first second
  integer_iff : ∀ {t : IntType} {j : Json} {x : FixedInt t},
    FixedInt.ofJson? j = some x ↔ j = x.toJson
  integer_text : ∀ n : Int, (Json.integer n).compact = toString n
  pair_text : ∀ first second : Json,
    (Json.ofPair first second).compact = "[" ++ first.compact ++ "," ++ second.compact ++ "]"
  pair_read : ∀ m n : Int, Json.parse? (Json.ofPair (.integer m) (.integer n)).compact =
    some (.ofPair (.integer m) (.integer n))

/-! ## Intervals and kinds -/

inductive DecodeError where
  | malformed
  | unknownKind (e : UnknownKind)
deriving DecidableEq

/-- Only a string that names no kind is described further. -/
def DecodeError.message? : DecodeError → Option String
  | malformed => none
  | unknownKind e => some e.details

namespace Interval

variable {b : BoundType}

def toJson (x : Interval b) : Json := .ofPair x.lower.toJson x.upper.toJson

def ofJson (j : Json) : Except DecodeError (Interval b) :=
  match j.pair? with
  | none => .error .malformed
  | some (lower, upper) =>
    match FixedInt.ofJson? lower, FixedInt.ofJson? upper with
    | some lower, some upper => .ok ⟨lower, upper⟩
    | _, _ => .error .malformed

def ofText (b : BoundType) (text : String) : Except DecodeError (Interval b) :=
  match Json.parse? text with
  | some j => ofJson j
  | none => .error .malformed

end Interval

namespace Kind

def toJson (k : Kind) : Json := .string k.name

def ofJson : Json → Except DecodeError Kind
  | .string text => (parse text).mapError .unknownKind
  | _ => .error .malformed

end Kind

end Bitspan
