set_option autoImplicit false

/-!
# JSON values and their text

The numeral of a natural number has no leading zero, and the numeral of a negative integer is a
minus sign before that of its magnitude. `integer?_toString` says that the reader takes back the
numeral that is written for an integer.

A number is an integer when its numeral has neither a fraction nor an exponent and is not minus
zero; any other number keeps its numeral, since no value here is made of one. A value is written
without blanks. In a string, quotes, backslashes and control characters are escaped; the control
characters with a letter of their own are written with it, the others by their code.
-/

namespace Bitspan

/-! ## Decimal numerals -/

namespace Decimal

/-- The natural number that the digits amount to. Leading zeros count for nothing. -/
def ofDigits? (cs : List Char) : Option Nat :=
  if cs = [] ∨ cs.all Char.isDigit = false then none else some (Nat.ofDigitChars 10 cs 0)

def natural? (cs : List Char) : Option Nat :=
  if cs.head? = some '0' ∧ cs ≠ ['0'] then none else ofDigits? cs

/-- The integer that the characters are the numeral of. Zero has no numeral with a sign. -/
def integer? (cs : List Char) : Option Int :=
  match cs with
  | '-' :: ds =>
    match natural? ds with
    | some (n + 1) => some (-(n + 1))
    | _ => none
  | ds => (natural? ds).map Int.ofNat

theorem head_toDigits {n : Nat} (h : (Nat.toDigits 10 n).head? = some '0') : n = 0 := by
  induction n using Nat.strongRecOn with
  | _ n ih =>
    rcases Nat.lt_or_ge n 10 with hn | hn
    · rw [Nat.toDigits_of_lt_base hn] at h
      simpa using h
    · rw [Nat.toDigits_of_base_le (by decide) hn] at h
      cases hd : Nat.toDigits 10 (n / 10) with
      | nil => exact absurd hd Nat.toDigits_ne_nil
      | cons d ds =>
        rw [hd] at h
        have := ih (n / 10) (by omega) (by rw [hd]; exact h)
        omega

theorem ofDigits?_toDigits (n : Nat) : ofDigits? (Nat.toDigits 10 n) = some n := by
  unfold ofDigits?
  rw [if_neg, Nat.ofDigitChars_ten_toDigits]
  rintro (h | h)
  · exact Nat.toDigits_ne_nil h
  · rw [List.all_eq_false] at h
    obtain ⟨c, hc, hd⟩ := h
    exact hd (Nat.isDigit_of_mem_toDigits (by decide) (by decide) hc)

theorem natural?_toDigits (n : Nat) : natural? (Nat.toDigits 10 n) = some n := by
  unfold natural?
  rw [if_neg, ofDigits?_toDigits]
  rintro ⟨h, hne⟩
  rw [head_toDigits h] at hne
  exact hne rfl

theorem toList_toString_ofNat (n : Nat) : (toString (Int.ofNat n)).toList = Nat.toDigits 10 n :=
  Nat.toList_repr

theorem toList_toString_negSucc (n : Nat) :
    (toString (Int.negSucc n)).toList = '-' :: Nat.toDigits 10 (n + 1) := by
  change ("-" ++ Nat.repr (n + 1)).toList = _
  rw [String.toList_append, Nat.toList_repr]
  rfl

theorem integer?_toString (n : Int) : integer? (toString n).toList = some n := by
  rcases n with n | n
  · rw [toList_toString_ofNat]
    unfold integer?
    split
    · rename_i ds h
      have := Nat.isDigit_of_mem_toDigits (by decide) (by decide)
        (h ▸ List.mem_cons_self : '-' ∈ Nat.toDigits 10 n)
      exact absurd this (by decide)
    · rw [natural?_toDigits]
      rfl
  · rw [toList_toString_negSucc]
    simp only [integer?, natural?_toDigits]
    rfl

end Decimal

/-! ## Values -/

inductive Json where
  | null
  | bool (value : Bool)
  | integer (value : Int)
  | real (numeral : String)
  | string (text : String)
  | array (items : List Json)
  | object (fields : List (String × Json))

/-! ## Compact text -/

namespace Json

def hexDigit (n : Nat) : Char := (Nat.toDigits 16 n).headD '0'

def escapeChar (c : Char) : List Char :=
  if c = '"' then ['\\', '"']
  else if c = '\\' then ['\\', '\\']
  else if c = '\n' then ['\\', 'n']
  else if c = '\r' then ['\\', 'r']
  else if c = '\t' then ['\\', 't']
  else if c.toNat = 8 then ['\\', 'b']
  else if c.toNat = 12 then ['\\', 'f']
  else if c.toNat < 32 then
    ['\\', 'u', '0', '0', hexDigit (c.toNat / 16), hexDigit (c.toNat % 16)]
  else [c]

def quoted (text : String) : String :=
  "\"" ++ String.ofList (text.toList.flatMap escapeChar) ++ "\""

mutual

def compact : Json → String
  | null => "null"
  | bool true => "true"
  | bool false => "false"
  | integer n => toString n
  | real numeral => numeral
  | string text => quoted text
  | array [] => "[]"
  | array (item :: rest) => "[" ++ compact item ++ compactItems rest
  | object [] => "\x7b\x7d"
  | object ((name, value) :: rest) =>
    "\x7b" ++ quoted name ++ ":" ++ compact value ++ compactFields rest

/-- The items after the first one, with the closing bracket. -/
def compactItems : List Json → String
  | [] => "]"
  | item :: rest => "," ++ compact item ++ compactItems rest

def compactFields : List (String × Json) → String
  | [] => "\x7d"
  | (name, value) :: rest => "," ++ quoted name ++ ":" ++ compact value ++ compactFields rest

end

end Json

end Bitspan
