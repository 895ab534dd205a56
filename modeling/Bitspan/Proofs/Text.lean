import Bitspan.Json.Codec
import Bitspan.Proofs.ReaderFuel

set_option autoImplicit false

/-!
# The text of an interval

The text shown for an interval is its compact JSON, and reading that text gives the interval back.
The JSON of this library obeys `FormatLaws`: the numeral of an integer is read up to the first
character that no numeral has, and from it a list of integers is read up to its closing bracket.
What is said of intervals rests on these laws alone. Nothing is said here of strings and objects, or
of texts that no value is written as.
-/

namespace Bitspan

namespace Json

/-! ## Numerals -/

theorem isNumberChar_of_mem_toDigits {n : Nat} {c : Char} (h : c ∈ Nat.toDigits 10 n) :
    isNumberChar c = true := by
  simp [isNumberChar, Nat.isDigit_of_mem_toDigits (by decide) (by decide) h]

theorem isNumberChar_of_mem_toString {n : Int} {c : Char} (h : c ∈ (toString n).toList) :
    isNumberChar c = true := by
  rcases n with m | m
  · rw [Decimal.toList_toString_ofNat] at h
    exact isNumberChar_of_mem_toDigits h
  · rw [Decimal.toList_toString_negSucc] at h
    rcases List.mem_cons.1 h with rfl | h
    · decide
    · exact isNumberChar_of_mem_toDigits h

theorem exists_toList_toString (n : Int) : ∃ c cs, (toString n).toList = c :: cs := by
  rcases n with m | m
  · rw [Decimal.toList_toString_ofNat]
    exact List.exists_cons_of_ne_nil Nat.toDigits_ne_nil
  · exact ⟨'-', _, Decimal.toList_toString_negSucc m⟩

/-- A text that does not go on with a character of a numeral. -/
def EndsNumeral (rest : List Char) : Prop := ∀ c ∈ rest.head?, isNumberChar c = false

theorem endsNumeral_cons {c : Char} (h : isNumberChar c = false) (cs : List Char) :
    EndsNumeral (c :: cs) := by
  rintro d ⟨⟩
  exact h

theorem takeWhile_toString_append (n : Int) {rest : List Char} (h : EndsNumeral rest) :
    ((toString n).toList ++ rest).takeWhile isNumberChar = (toString n).toList := by
  rw [List.takeWhile_append_of_pos fun c => isNumberChar_of_mem_toString]
  cases rest with
  | nil => exact List.append_nil _
  | cons c cs => rw [List.takeWhile_cons_of_neg (by simp [h c rfl]), List.append_nil]

theorem dropWhile_toString_append (n : Int) {rest : List Char} (h : EndsNumeral rest) :
    ((toString n).toList ++ rest).dropWhile isNumberChar = rest := by
  rw [List.dropWhile_append_of_pos fun c => isNumberChar_of_mem_toString]
  cases rest with
  | nil => rfl
  | cons c cs => exact List.dropWhile_cons_of_neg (by simp [h c rfl])

theorem ne_of_isNumberChar {c d : Char} (hc : isNumberChar c = true)
    (hd : isNumberChar d = false := by decide) : c ≠ d := by
  rintro rfl
  rw [hc] at hd
  cases hd

theorem skipBlanks_cons {c : Char} (h : isBlank c = false) (cs : List Char) :
    skipBlanks (c :: cs) = c :: cs :=
  List.dropWhile_cons_of_neg (by simp [h])

theorem isBlank_of_isNumberChar {c : Char} (h : isNumberChar c = true) : isBlank c = false := by
  have space : c ≠ ' ' := ne_of_isNumberChar h
  have tab : c ≠ '\t' := ne_of_isNumberChar h
  have newline : c ≠ '\n' := ne_of_isNumberChar h
  have carriageReturn : c ≠ '\r' := ne_of_isNumberChar h
  simp [isBlank, space, tab, newline, carriageReturn]

/-- No other kind of value starts with a character of a numeral. -/
theorem readValue_of_isNumberChar {c : Char} (hc : isNumberChar c = true) (fuel : Nat)
    (cs : List Char) :
    readValue (fuel + 1) (c :: cs) =
      (number? ((c :: cs).takeWhile isNumberChar)).map fun n =>
        (n, (c :: cs).dropWhile isNumberChar) := by
  have starts {d : Char} {ds : List Char} (hd : isNumberChar d = false := by decide) :
      c :: cs ≠ d :: ds := fun h => ne_of_isNumberChar hc hd (List.cons.inj h).1
  rw [readValue, skipBlanks_cons (isBlank_of_isNumberChar hc)]
  split
  case h_7 => rfl
  all_goals
    rename_i h
    exact absurd h starts

theorem readValue_integer (n : Int) (fuel : Nat) {rest : List Char} (h : EndsNumeral rest) :
    readValue (fuel + 1) ((toString n).toList ++ rest) = some (integer n, rest) := by
  obtain ⟨c, cs, hn⟩ := exists_toList_toString n
  have hc : isNumberChar c = true := isNumberChar_of_mem_toString (hn ▸ List.mem_cons_self)
  have htake := takeWhile_toString_append n h
  have hdrop := dropWhile_toString_append n h
  rw [hn, List.cons_append] at htake hdrop ⊢
  rw [readValue_of_isNumberChar hc, htake, hdrop, ← hn, number?, Decimal.integer?_toString]
  rfl

/-! ## Lists of integers -/

def integers (ns : List Int) : Json := array (ns.map integer)

theorem toList_compactItems_nil : (compactItems []).toList = [']'] := rfl

theorem toList_compactItems_cons (j : Json) (js : List Json) :
    (compactItems (j :: js)).toList = ',' :: (j.compact.toList ++ (compactItems js).toList) := by
  rw [compactItems, String.toList_append, String.toList_append]
  rfl

theorem toList_compact_array (j : Json) (js : List Json) :
    (array (j :: js)).compact.toList = '[' :: (j.compact.toList ++ (compactItems js).toList) := by
  rw [compact, String.toList_append, String.toList_append]
  rfl

theorem compact_integer (n : Int) : (integer n).compact = toString n := by
  rw [compact]

/-- Every item takes one unit of fuel, and the value in it another one. -/
theorem readItems_integers (n : Int) (ns : List Int) {fuel : Nat} (h : ns.length + 2 ≤ fuel)
    (rest : List Char) :
    readItems fuel
        ((integer n).compact.toList ++ ((compactItems (ns.map integer)).toList ++ rest)) =
      some (integer n :: ns.map integer, rest) := by
  -- What follows an item is a comma or the closing bracket, and neither belongs to a numeral.
  induction ns generalizing n fuel with
  | nil =>
    obtain ⟨spare, rfl⟩ := Nat.exists_eq_add_of_le' h
    rw [compact_integer, List.map_nil, toList_compactItems_nil, List.singleton_append]
    change readItems (spare + 1 + 1) _ = _
    rw [readItems, readValue_integer n _ (endsNumeral_cons (by decide) rest)]
    rfl
  | cons m ns ih =>
    obtain ⟨spare, rfl⟩ := Nat.exists_eq_add_of_le' h
    have hnext := ih m (Nat.le_add_left (ns.length + 2) spare)
    rw [compact_integer, List.map_cons, toList_compactItems_cons, List.cons_append,
      List.append_assoc]
    generalize (integer m).compact.toList ++ ((compactItems (ns.map integer)).toList ++ rest) = text
      at hnext ⊢
    change readItems (spare + (ns.length + 1) + 1 + 1) _ = _
    rw [readItems, readValue_integer n _ (endsNumeral_cons (by decide) text)]
    change (readItems (spare + (ns.length + 2)) text).map _ = _
    rw [hnext]
    rfl

theorem readValue_array {c : Char} (hc : isNumberChar c = true) (fuel : Nat) (cs : List Char) :
    readValue (fuel + 1) ('[' :: c :: cs) =
      (readItems fuel (c :: cs)).map fun (items, rest) => (array items, rest) := by
  rw [readValue, skipBlanks_cons (by decide)]
  simp only [↓Char.isValue, skipBlanks_cons (isBlank_of_isNumberChar hc)]
  split
  · rename_i h
    exact absurd (List.cons.inj h).1 (ne_of_isNumberChar hc)
  · rfl

/-- The compact text of a list of integers is read back. -/
theorem parse?_integers (n : Int) (ns : List Int) :
    parse? (integers (n :: ns)).compact = some (integers (n :: ns)) := by
  obtain ⟨c, cs, hn⟩ := exists_toList_toString n
  have hc : isNumberChar c = true := isNumberChar_of_mem_toString (hn ▸ List.mem_cons_self)
  -- Any fuel that covers the text serves, so one is taken that also has a unit for every item.
  have hfuel : 2 * (integers (n :: ns)).compact.toList.length + 2 ≤
      2 * (integers (n :: ns)).compact.toList.length + (ns.length + 2) + 1 := by omega
  refine (parse?_eq_some_iff hfuel).2 ⟨[], ?_, rfl⟩
  have hitems := readItems_integers n ns (Nat.le_add_left (ns.length + 2)
    (2 * (integers (n :: ns)).compact.toList.length)) []
  generalize 2 * (integers (n :: ns)).compact.toList.length + (ns.length + 2) = fuel at hitems ⊢
  rw [List.append_nil, compact_integer, hn, List.cons_append] at hitems
  rw [integers, List.map_cons, toList_compact_array, compact_integer, hn, List.cons_append,
    readValue_array hc, hitems]
  rfl

/-! ## The laws of the format -/

theorem pair?_eq_some_iff {j first second : Json} :
    j.pair? = some (first, second) ↔ j = ofPair first second := by
  unfold pair?
  split
  · simp [ofPair]
  · rename_i h
    constructor
    · intro e
      cases e
    · intro e
      exact (h _ _ e).elim

theorem compact_ofPair (first second : Json) :
    (ofPair first second).compact = "[" ++ first.compact ++ "," ++ second.compact ++ "]" := by
  rw [ofPair, compact, compactItems, compactItems]
  simp only [String.append_assoc]

end Json

theorem FixedInt.ofJson?_eq_some_iff {t : IntType} {j : Json} {x : FixedInt t} :
    ofJson? j = some x ↔ j = x.toJson := by
  unfold ofJson?
  split
  · rw [ofInt?_eq_some_iff, toJson, Json.integer.injEq, eq_comm]
  · rename_i h
    constructor
    · intro e
      cases e
    · intro e
      exact (h _ e).elim

theorem formatLaws : FormatLaws where
  pair_iff := Json.pair?_eq_some_iff
  integer_iff := FixedInt.ofJson?_eq_some_iff
  integer_text := Json.compact_integer
  pair_text := Json.compact_ofPair
  pair_read m n := Json.parse?_integers m [n]

/-! ## Intervals -/

namespace Interval

variable {b : BoundType}

theorem ofJson_eq_ok_iff_exists {j : Json} {x : Interval b} :
    ofJson j = .ok x ↔ ∃ lower upper, j.pair? = some (lower, upper) ∧
      FixedInt.ofJson? lower = some x.lower ∧ FixedInt.ofJson? upper = some x.upper := by
  unfold ofJson
  split
  · rename_i h
    simp [h]
  · rename_i lower upper h
    rw [h]
    split
    · rename_i l u hl hu
      constructor
      · rintro ⟨⟩
        exact ⟨lower, upper, rfl, hl, hu⟩
      · rintro ⟨_, _, ⟨⟩, hxl, hxu⟩
        rw [hl] at hxl
        rw [hu] at hxu
        cases hxl
        cases hxu
        rfl
    · rename_i h
      constructor
      · intro e
        cases e
      · rintro ⟨_, _, ⟨⟩, hxl, hxu⟩
        exact (h _ _ hxl hxu).elim

theorem ofJson_eq_ok_iff (laws : FormatLaws) {j : Json} {x : Interval b} :
    ofJson j = .ok x ↔ j = x.toJson := by
  rw [ofJson_eq_ok_iff_exists]
  simp only [laws.pair_iff, laws.integer_iff]
  constructor
  · rintro ⟨_, _, rfl, rfl, rfl⟩
    rfl
  · rintro rfl
    exact ⟨_, _, rfl, rfl, rfl⟩

theorem toString_eq (x : Interval b) :
    toString x = "[" ++ toString x.lower.val ++ "," ++ toString x.upper.val ++ "]" := rfl

theorem compact_toJson (laws : FormatLaws) (x : Interval b) : x.toJson.compact = toString x := by
  rw [toJson, laws.pair_text, FixedInt.toJson, FixedInt.toJson, laws.integer_text,
    laws.integer_text, toString_eq]

theorem parse?_toString (laws : FormatLaws) (x : Interval b) :
    Json.parse? (toString x) = some x.toJson := by
  rw [← compact_toJson laws]
  exact laws.pair_read x.lower.val x.upper.val

/-- At any bound type, the text of an interval stands for the same two integers. -/
theorem ofText_toString_eq_ok_iff (laws : FormatLaws) {t : BoundType} {x : Interval b}
    {y : Interval t} :
    ofText t (toString x) = .ok y ↔ y.lower.val = x.lower.val ∧ y.upper.val = x.upper.val := by
  rw [ofText, parse?_toString laws]
  change ofJson x.toJson = .ok y ↔ _
  rw [ofJson_eq_ok_iff laws]
  simp only [toJson, Json.ofPair, FixedInt.toJson, Json.array.injEq, List.cons.injEq,
    Json.integer.injEq, and_true]
  rw [eq_comm, @eq_comm _ x.upper.val]

theorem ofText_toString (laws : FormatLaws) (x : Interval b) : ofText b (toString x) = .ok x :=
  (ofText_toString_eq_ok_iff laws).2 ⟨rfl, rfl⟩

theorem toString_inj (laws : FormatLaws) {x y : Interval b} : toString x = toString y ↔ x = y := by
  constructor
  · intro h
    have hx := ofText_toString laws x
    rw [h, ofText_toString laws y] at hx
    cases hx
    rfl
  · rintro rfl
    rfl

theorem exists_ofText_toString_iff (laws : FormatLaws) {t : BoundType} {x : Interval b} :
    (∃ y, ofText t (toString x) = .ok y) ↔
      t.intType.Fits x.lower.val ∧ t.intType.Fits x.upper.val := by
  simp only [ofText_toString_eq_ok_iff laws]
  constructor
  · rintro ⟨y, hl, hu⟩
    rw [← hl, ← hu]
    exact ⟨y.lower.fits, y.upper.fits⟩
  · rintro ⟨hl, hu⟩
    exact ⟨⟨⟨_, hl⟩, ⟨_, hu⟩⟩, rfl, rfl⟩

theorem exists_ofJson_iff (laws : FormatLaws) {t : BoundType} {j : Json} :
    (∃ y : Interval t, ofJson j = .ok y) ↔
      ∃ l u : Int, j = .array [.integer l, .integer u] ∧ t.intType.Fits l ∧ t.intType.Fits u := by
  simp only [ofJson_eq_ok_iff laws]
  constructor
  · rintro ⟨y, rfl⟩
    exact ⟨_, _, rfl, y.lower.fits, y.upper.fits⟩
  · rintro ⟨l, u, rfl, hl, hu⟩
    exact ⟨⟨⟨l, hl⟩, ⟨u, hu⟩⟩, rfl⟩

/-- The text of an interval is its JSON and tells it from every other one. It is read back verbatim
at its own bound type, and at another one exactly when both bounds fit; no JSON value but such a
pair of integers is an interval. -/
theorem text_is_codec (x : Interval b) (t : BoundType) (j : Json) :
    x.toJson.compact = toString x ∧
    ofText b (toString x) = .ok x ∧
    (∀ y : Interval b, toString x = toString y ↔ x = y) ∧
    ((∃ y, ofText t (toString x) = .ok y) ↔
      t.intType.Fits x.lower.val ∧ t.intType.Fits x.upper.val) ∧
    (∀ y, ofText t (toString x) = .ok y ↔
      y.lower.val = x.lower.val ∧ y.upper.val = x.upper.val) ∧
    ((∃ y : Interval t, ofJson j = .ok y) ↔
      ∃ l u : Int, j = .array [.integer l, .integer u] ∧ t.intType.Fits l ∧ t.intType.Fits u) :=
  ⟨compact_toJson formatLaws x, ofText_toString formatLaws x, fun _ => toString_inj formatLaws,
    exists_ofText_toString_iff formatLaws, fun _ => ofText_toString_eq_ok_iff formatLaws,
    exists_ofJson_iff formatLaws⟩

end Interval

end Bitspan
