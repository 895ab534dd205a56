import Bitspan.Json.Reader

set_option autoImplicit false

/-!
# The fuel of the JSON reader

Whatever is read leaves less text than there was. Two amounts of fuel that cover the text therefore
read the same from it, so with the fuel that `parse?` gives, no answer is due to a lack of it.
-/

namespace Bitspan.Json

variable {fuel m n : Nat} {cs rest : List Char}

theorem length_skipBlanks_le (cs : List Char) : (skipBlanks cs).length ≤ cs.length :=
  (List.dropWhile_suffix isBlank).length_le

theorem length_lt_of_skipBlanks {c : Char} (h : skipBlanks cs = c :: rest) :
    rest.length < cs.length := by
  have hle := length_skipBlanks_le cs
  rw [h] at hle
  exact hle

theorem length_number?_lt {j : Json} (h : number? (cs.takeWhile isNumberChar) = some j) :
    (cs.dropWhile isNumberChar).length < cs.length := by
  cases cs with
  | nil => cases h
  | cons c cs =>
    rw [List.takeWhile_cons] at h
    split at h
    · rename_i hc
      rw [List.dropWhile_cons_of_pos hc]
      exact Nat.lt_succ_of_le (List.dropWhile_suffix isNumberChar).length_le
    · cases h

theorem length_readText_lt {acc : List Char} {high : Option Nat} {text : String}
    (h : readText acc high cs = some (text, rest)) : rest.length < cs.length := by
  -- Along the recursion of the reader: the closing quote ends it, five cases read on, and in every
  -- other case nothing is read.
  fun_induction readText acc high cs
  case case2 =>
    cases h
    exact Nat.lt_succ_self _
  case case5 ih | case7 ih | case8 ih | case10 ih | case12 ih =>
    have := ih h
    simp only [List.length_cons]
    omega
  all_goals cases h

theorem length_readName_lt {name : String} (h : readName cs = some (name, rest)) :
    rest.length < cs.length := by
  unfold readName at h
  split at h
  · rename_i hquote
    have hquote := length_lt_of_skipBlanks hquote
    split at h
    · cases h
    · rename_i htext
      have htext := length_readText_lt htext
      split at h
      · rename_i hcolon
        cases h
        have hcolon := length_lt_of_skipBlanks hcolon
        omega
      · cases h
  · cases h

/-! ## Progress -/

/-- With this much fuel, whatever is read leaves less text than there was. -/
structure Progresses (fuel : Nat) : Prop where
  value : ∀ {cs rest j}, readValue fuel cs = some (j, rest) → rest.length < cs.length
  items : ∀ {cs rest js}, readItems fuel cs = some (js, rest) → rest.length < cs.length
  fields : ∀ {cs rest fs}, readFields fuel cs = some (fs, rest) → rest.length < cs.length

namespace Progresses

theorem value_succ (p : Progresses fuel) {j : Json}
    (h : readValue (fuel + 1) cs = some (j, rest)) : rest.length < cs.length := by
  rw [readValue] at h
  split at h
  case h_1 hword | h_2 hword | h_3 hword =>
    cases h
    have hword := length_lt_of_skipBlanks hword
    simp only [List.length_cons] at hword
    omega
  case h_4 hquote =>
    obtain ⟨_, htext, ⟨⟩⟩ := Option.map_eq_some_iff.1 h
    exact Nat.lt_trans (length_readText_lt htext) (length_lt_of_skipBlanks hquote)
  case h_5 inner hopen =>
    have hopen := length_lt_of_skipBlanks hopen
    split at h
    · rename_i hclose
      cases h
      exact Nat.lt_trans (length_lt_of_skipBlanks hclose) hopen
    · obtain ⟨_, hitems, ⟨⟩⟩ := Option.map_eq_some_iff.1 h
      have hitems := p.items hitems
      have hblanks := length_skipBlanks_le inner
      omega
  case h_6 inner hopen =>
    have hopen := length_lt_of_skipBlanks hopen
    split at h
    · rename_i hclose
      cases h
      exact Nat.lt_trans (length_lt_of_skipBlanks hclose) hopen
    · obtain ⟨_, hfields, ⟨⟩⟩ := Option.map_eq_some_iff.1 h
      have hfields := p.fields hfields
      have hblanks := length_skipBlanks_le inner
      omega
  case h_7 =>
    obtain ⟨_, hnumber, ⟨⟩⟩ := Option.map_eq_some_iff.1 h
    exact Nat.lt_of_lt_of_le (length_number?_lt hnumber) (length_skipBlanks_le cs)

theorem items_succ (p : Progresses fuel) {js : List Json}
    (h : readItems (fuel + 1) cs = some (js, rest)) : rest.length < cs.length := by
  rw [readItems] at h
  split at h
  · cases h
  · rename_i hitem
    have hitem := p.value hitem
    split at h
    · rename_i hcomma
      have hcomma := length_lt_of_skipBlanks hcomma
      obtain ⟨_, hitems, ⟨⟩⟩ := Option.map_eq_some_iff.1 h
      have hitems := p.items hitems
      omega
    · rename_i hclose
      cases h
      exact Nat.lt_trans (length_lt_of_skipBlanks hclose) hitem
    · cases h

theorem fields_succ (p : Progresses fuel) {fs : List (String × Json)}
    (h : readFields (fuel + 1) cs = some (fs, rest)) : rest.length < cs.length := by
  rw [readFields] at h
  split at h
  · cases h
  · rename_i hname
    have hname := length_readName_lt hname
    split at h
    · cases h
    · rename_i hvalue
      have hvalue := p.value hvalue
      split at h
      · rename_i hcomma
        have hcomma := length_lt_of_skipBlanks hcomma
        obtain ⟨_, hfields, ⟨⟩⟩ := Option.map_eq_some_iff.1 h
        have hfields := p.fields hfields
        omega
      · rename_i hclose
        cases h
        have hclose := length_lt_of_skipBlanks hclose
        omega
      · cases h

end Progresses

theorem progresses (fuel : Nat) : Progresses fuel := by
  induction fuel with
  | zero => exact ⟨nofun, nofun, nofun⟩
  | succ fuel ih => exact ⟨ih.value_succ, ih.items_succ, ih.fields_succ⟩

/-! ## Amounts of fuel -/

theorem readValue_congr (hitems : ∀ ds, ds.length < cs.length → readItems m ds = readItems n ds)
    (hfields : ∀ ds, ds.length < cs.length → readFields m ds = readFields n ds) :
    readValue (m + 1) cs = readValue (n + 1) cs := by
  rw [readValue, readValue]
  split
  case h_5 inner hopen =>
    have hopen := length_lt_of_skipBlanks hopen
    split
    · rfl
    · rw [hitems _ (Nat.lt_of_le_of_lt (length_skipBlanks_le inner) hopen)]
  case h_6 inner hopen =>
    have hopen := length_lt_of_skipBlanks hopen
    split
    · rfl
    · rw [hfields _ (Nat.lt_of_le_of_lt (length_skipBlanks_le inner) hopen)]
  all_goals rfl

theorem readItems_congr (hvalue : readValue m cs = readValue n cs)
    (hitems : ∀ ds, ds.length < cs.length → readItems m ds = readItems n ds) :
    readItems (m + 1) cs = readItems (n + 1) cs := by
  rw [readItems, readItems, ← hvalue]
  split
  · rfl
  · rename_i hitem
    have hitem := (progresses m).value hitem
    split
    · rename_i hcomma
      rw [hitems _ (Nat.lt_trans (length_lt_of_skipBlanks hcomma) hitem)]
    · rfl
    · rfl

theorem readFields_congr (hvalue : ∀ ds, ds.length < cs.length → readValue m ds = readValue n ds)
    (hfields : ∀ ds, ds.length < cs.length → readFields m ds = readFields n ds) :
    readFields (m + 1) cs = readFields (n + 1) cs := by
  rw [readFields, readFields]
  split
  · rfl
  · rename_i hname
    have hname := length_readName_lt hname
    rw [← hvalue _ hname]
    split
    · rfl
    · rename_i hitem
      have hitem := (progresses m).value hitem
      split
      · rename_i hcomma
        have hcomma := length_lt_of_skipBlanks hcomma
        rw [hfields _ (by omega)]
      · rfl
      · rfl

/-- Two amounts of fuel that cover the text read the same. A list of items takes one unit more than
a value, because its first item starts where it starts. -/
theorem read_congr (m n : Nat) (cs : List Char) :
    (2 * cs.length < m → 2 * cs.length < n → readValue m cs = readValue n cs) ∧
    (2 * cs.length + 1 < m → 2 * cs.length + 1 < n → readItems m cs = readItems n cs) ∧
    (2 * cs.length + 1 < m → 2 * cs.length + 1 < n → readFields m cs = readFields n cs) := by
  induction m generalizing n cs with
  | zero => exact ⟨nofun, nofun, nofun⟩
  | succ m ih =>
    cases n with
    | zero => exact ⟨nofun, nofun, nofun⟩
    | succ n =>
      refine ⟨fun hm hn => ?_, fun hm hn => ?_, fun hm hn => ?_⟩
      · apply readValue_congr
        · intro ds hds
          exact (ih n ds).2.1 (by omega) (by omega)
        · intro ds hds
          exact (ih n ds).2.2 (by omega) (by omega)
      · apply readItems_congr
        · exact (ih n cs).1 (by omega) (by omega)
        · intro ds hds
          exact (ih n ds).2.1 (by omega) (by omega)
      · apply readFields_congr
        · intro ds hds
          exact (ih n ds).1 (by omega) (by omega)
        · intro ds hds
          exact (ih n ds).2.2 (by omega) (by omega)

/-- No further fuel changes what is read. -/
theorem readValue_of_le (h : 2 * cs.length + 2 ≤ fuel) :
    readValue (2 * cs.length + 2) cs = readValue fuel cs :=
  (read_congr _ _ cs).1 (by omega) (by omega)

/-- A text has a value exactly when it is read, by any fuel that covers it, and blanks are left. -/
theorem parse?_eq_some_iff {text : String} {j : Json} (h : 2 * text.toList.length + 2 ≤ fuel) :
    parse? text = some j ↔
      ∃ rest, readValue fuel text.toList = some (j, rest) ∧ skipBlanks rest = [] := by
  unfold parse?
  rw [← readValue_of_le h]
  dsimp only
  split
  · rename_i value rest hread
    rw [hread]
    constructor
    · intro hj
      split at hj
      · rename_i hblank
        cases hj
        exact ⟨rest, rfl, hblank⟩
      · cases hj
    · rintro ⟨_, ⟨⟩, hblank⟩
      rw [if_pos hblank]
  · rename_i hread
    rw [hread]
    constructor
    · intro hj
      cases hj
    · rintro ⟨_, ⟨⟩, _⟩

end Bitspan.Json
