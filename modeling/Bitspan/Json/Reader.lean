import Bitspan.Json.Basic

set_option autoImplicit false

/-!
# Reading JSON text

The reader takes one value off the front of a list of characters and gives the rest. Fuel bounds its
recursion, and what `parse?` gives, twice the length of the text and two more, is always enough
(`Bitspan.Proofs.ReaderFuel`).
-/

namespace Bitspan.Json

def isBlank (c : Char) : Bool := c = ' ' || c = '\t' || c = '\n' || c = '\r'

def skipBlanks (cs : List Char) : List Char := cs.dropWhile isBlank

/-! ## Numbers -/

def isNumberChar (c : Char) : Bool :=
  c.isDigit || c = '-' || c = '+' || c = '.' || c = 'e' || c = 'E'

def isDigits (cs : List Char) : Bool := cs ≠ [] && cs.all Char.isDigit

def isExponent : List Char → Bool
  | [] => true
  | mark :: '+' :: ds => (mark = 'e' || mark = 'E') && isDigits ds
  | mark :: '-' :: ds => (mark = 'e' || mark = 'E') && isDigits ds
  | mark :: ds => (mark = 'e' || mark = 'E') && isDigits ds

def isFraction : List Char → Bool
  | '.' :: cs => isDigits (cs.takeWhile Char.isDigit) && isExponent (cs.dropWhile Char.isDigit)
  | cs => isExponent cs

def isNumeral (cs : List Char) : Bool :=
  let body := if cs.head? = some '-' then cs.tail else cs
  (Decimal.natural? (body.takeWhile Char.isDigit)).isSome &&
    isFraction (body.dropWhile Char.isDigit)

def number? (cs : List Char) : Option Json :=
  match Decimal.integer? cs with
  | some n => some (integer n)
  | none => if isNumeral cs then some (real (String.ofList cs)) else none

/-! ## Strings -/

def hexValue? (c : Char) : Option Nat :=
  if c.isDigit then some (c.toNat - '0'.toNat)
  else if 'a' ≤ c ∧ c ≤ 'f' then some (c.toNat - 'a'.toNat + 10)
  else if 'A' ≤ c ∧ c ≤ 'F' then some (c.toNat - 'A'.toNat + 10)
  else none

def codeUnit? (cs : List Char) : Option Nat :=
  cs.foldl (fun unit c => do return 16 * (← unit) + (← hexValue? c)) (some 0)

def isHighSurrogate (unit : Nat) : Bool := 0xD800 ≤ unit ∧ unit < 0xDC00

def isLowSurrogate (unit : Nat) : Bool := 0xDC00 ≤ unit ∧ unit < 0xE000

def escaped? : Char → Option Char
  | '"' => some '"'
  | '\\' => some '\\'
  | '/' => some '/'
  | 'b' => some (Char.ofNat 8)
  | 'f' => some (Char.ofNat 12)
  | 'n' => some '\n'
  | 'r' => some '\r'
  | 't' => some '\t'
  | _ => none

/-- The text up to the closing quote, after the characters `acc` in reverse. `high` is the first
half of a surrogate pair whose second half has to follow. -/
def readText (acc : List Char) (high : Option Nat) : List Char → Option (String × List Char)
  | [] => none
  | '"' :: rest => if high.isNone then some (String.ofList acc.reverse, rest) else none
  | '\\' :: 'u' :: c₁ :: c₂ :: c₃ :: c₄ :: rest =>
    match codeUnit? [c₁, c₂, c₃, c₄], high with
    | none, _ => none
    | some unit, none =>
      if isHighSurrogate unit then readText acc (some unit) rest
      else if isLowSurrogate unit then none
      else readText (Char.ofNat unit :: acc) none rest
    | some unit, some first =>
      if isLowSurrogate unit then
        readText (Char.ofNat (0x10000 + (first - 0xD800) * 0x400 + (unit - 0xDC00)) :: acc) none rest
      else none
  | '\\' :: letter :: rest =>
    match escaped? letter, high with
    | some c, none => readText (c :: acc) none rest
    | _, _ => none
  | c :: rest => if high.isNone ∧ ' ' ≤ c then readText (c :: acc) none rest else none

/-- The name of a field, with the colon after it. -/
def readName (cs : List Char) : Option (String × List Char) :=
  match skipBlanks cs with
  | '"' :: rest =>
    match readText [] none rest with
    | none => none
    | some (name, rest) =>
      match skipBlanks rest with
      | ':' :: rest => some (name, rest)
      | _ => none
  | _ => none

/-! ## Values -/

mutual

def readValue : Nat → List Char → Option (Json × List Char)
  | 0, _ => none
  | fuel + 1, cs =>
    match skipBlanks cs with
    | 'n' :: 'u' :: 'l' :: 'l' :: rest => some (null, rest)
    | 't' :: 'r' :: 'u' :: 'e' :: rest => some (bool true, rest)
    | 'f' :: 'a' :: 'l' :: 's' :: 'e' :: rest => some (bool false, rest)
    | '"' :: rest => (readText [] none rest).map fun (text, rest) => (string text, rest)
    | '[' :: rest =>
      match skipBlanks rest with
      | ']' :: rest => some (array [], rest)
      | rest => (readItems fuel rest).map fun (items, rest) => (array items, rest)
    | '{' :: rest =>
      match skipBlanks rest with
      | '}' :: rest => some (object [], rest)
      | rest => (readFields fuel rest).map fun (fields, rest) => (object fields, rest)
    | cs => (number? (cs.takeWhile isNumberChar)).map fun n => (n, cs.dropWhile isNumberChar)

/-- One item or more, up to the closing bracket. -/
def readItems : Nat → List Char → Option (List Json × List Char)
  | 0, _ => none
  | fuel + 1, cs =>
    match readValue fuel cs with
    | none => none
    | some (item, rest) =>
      match skipBlanks rest with
      | ',' :: rest => (readItems fuel rest).map fun (items, rest) => (item :: items, rest)
      | ']' :: rest => some ([item], rest)
      | _ => none

def readFields : Nat → List Char → Option (List (String × Json) × List Char)
  | 0, _ => none
  | fuel + 1, cs =>
    match readName cs with
    | none => none
    | some (name, rest) =>
      match readValue fuel rest with
      | none => none
      | some (value, rest) =>
        match skipBlanks rest with
        | ',' :: rest =>
          (readFields fuel rest).map fun (fields, rest) => ((name, value) :: fields, rest)
        | '}' :: rest => some ([(name, value)], rest)
        | _ => none

end

/-- The value that the whole text, blanks aside, is the JSON text of. -/
def parse? (text : String) : Option Json :=
  let cs := text.toList
  match readValue (2 * cs.length + 2) cs with
  | some (value, rest) => if skipBlanks rest = [] then some value else none
  | none => none

end Bitspan.Json
