import Bitspan.Proofs.Balance
import Bitspan.Proofs.Comparison
import Bitspan.Proofs.Intersection
import Bitspan.Proofs.Quotient

set_option autoImplicit false

/-!
# Intervals up to their values

A region forgets how an empty interval was written, so going there and back picks one canonical
interval for each set of values. An operation that looks for an empty operand before it reads a
bound has one result on all empty intervals, and then it cannot tell an interval from its
representative. Clamping does not look; it is the intersection up to the representative.
-/

namespace Bitspan.Interval

variable {b : BoundType} {x y : Interval b}

/-! ## Representatives -/

theorem normalize_of_empty (hx : x.isEmpty = true) : x.normalize = empty := by
  rw [normalize, Region.ofInterval_of_empty hx]
  rfl

theorem normalize_of_nonempty (hx : x.isEmpty = false) : x.normalize = x := by
  rw [normalize, Region.ofInterval_of_nonempty hx]
  rfl

theorem canonical_normalize (x : Interval b) : x.normalize.Canonical := by
  cases hx : x.isEmpty with
  | true => exact .inr (normalize_of_empty hx)
  | false =>
    rw [normalize_of_nonempty hx]
    exact canonical_of_nonempty hx

theorem mem_normalize_iff {v : ℤ} : v ∈ x.normalize ↔ v ∈ x := by
  cases hx : x.isEmpty with
  | true =>
    rw [normalize_of_empty hx]
    exact iff_of_false (not_mem_empty v) (not_mem_of_isEmpty hx v)
  | false => rw [normalize_of_nonempty hx]

theorem Canonical.normalize_eq (hx : x.Canonical) : x.normalize = x :=
  (canonical_normalize x).eq_of_mem_iff hx fun _ => mem_normalize_iff

theorem normalize_normalize (x : Interval b) : x.normalize.normalize = x.normalize :=
  (canonical_normalize x).normalize_eq

theorem mem_iff_iff_contains :
    (∀ v, v ∈ x ↔ v ∈ y) ↔ ∀ v, x.contains v = y.contains v := by
  constructor
  · intro h v
    rw [Bool.eq_iff_iff, contains_iff, contains_iff, h]
  · intro h v
    simp only [mem_iff_exists_contains, h]

theorem normalize_eq_iff : x.normalize = y.normalize ↔ ∀ v, v ∈ x ↔ v ∈ y := by
  constructor
  · intro h v
    rw [← mem_normalize_iff, h, mem_normalize_iff]
  · intro h
    apply (canonical_normalize x).eq_of_mem_iff (canonical_normalize y)
    intro v
    rw [mem_normalize_iff, mem_normalize_iff, h]

theorem ofInterval_toInterval (x : Interval b) :
    Region.ofInterval (Region.ofInterval x).toInterval = Region.ofInterval x := by
  cases hx : x.isEmpty with
  | true =>
    rw [Region.ofInterval_of_empty hx]
    rfl
  | false =>
    rw [Region.ofInterval_of_nonempty hx]
    exact Region.ofInterval_of_nonempty hx

theorem isEmpty_toInterval (x : Interval b) :
    (Region.ofInterval x).toInterval.isEmpty = (Region.ofInterval x).isEmpty := by
  cases hx : x.isEmpty with
  | true =>
    rw [Region.ofInterval_of_empty hx]
    rfl
  | false =>
    rw [Region.ofInterval_of_nonempty hx]
    exact hx

/-! ## Operations that ignore the form -/

/-- The result on an interval is the one on its representative. -/
def IgnoresForm {α : Type} (f : Interval b → α) : Prop := ∀ x, f x.normalize = f x

variable {α : Type} {a : α} {k kx ky : Kind} {c : Comparison}

theorem ignoresForm_of_empty {f : Interval b → α} (h : ∀ x, x.isEmpty = true → f x = a) :
    IgnoresForm f := by
  intro x
  cases hx : x.isEmpty with
  | true => rw [normalize_of_empty hx, h x hx, h empty rfl]
  | false => rw [normalize_of_nonempty hx]

/-- One result for all operands of which some is empty. -/
theorem ignoresForm_of_some_empty {f : Interval b → Interval b → α}
    (h : ∀ x y, x.isEmpty = true ∨ y.isEmpty = true → f x y = a) (y : Interval b) :
    IgnoresForm (fun x => f x y) ∧ IgnoresForm (f y) :=
  ⟨ignoresForm_of_empty fun x hx => h x y (.inl hx),
    ignoresForm_of_empty fun x hx => h y x (.inr hx)⟩

theorem contains_of_empty (hx : x.isEmpty = true) (v : Bound b) : x.contains v = false := by
  rw [← Bool.not_eq_true, contains_iff]
  exact not_mem_of_isEmpty hx v.val

theorem size_of_empty (hx : x.isEmpty = true) : x.size = 0 := beq_iff_eq.1 hx

/-- A representative is determined by the values, and regions are read back from it. An operation
that looks for an empty operand first gives the same result or failure on it. -/
theorem representative_stands_for_values (x y : Interval b) (c : Comparison) (k kx ky : Kind) :
    x.normalize.normalize = x.normalize ∧
    (∀ v, v ∈ x.normalize ↔ v ∈ x) ∧
    (x.normalize = y.normalize ↔ ∀ v, x.contains v = y.contains v) ∧
    Region.ofInterval (Region.ofInterval x).toInterval = Region.ofInterval x ∧
    (Region.ofInterval x).toInterval.isEmpty = (Region.ofInterval x).isEmpty ∧
    (∀ v, IgnoresForm fun z : Interval b => z.contains v) ∧
    (IgnoresForm fun z : Interval b => z.size) ∧
    ((IgnoresForm fun z => z.intersection y) ∧ IgnoresForm fun z => y.intersection z) ∧
    ((IgnoresForm fun z => (z.compare y c).outcome) ∧
      IgnoresForm fun z => (y.compare z c).outcome) ∧
    ((IgnoresForm fun z => (z.relationalSet y).outcome) ∧
      IgnoresForm fun z => (y.relationalSet z).outcome) ∧
    (IgnoresForm fun z : Interval b => (z.bitWidth k).outcome) ∧
    (IgnoresForm fun z : Interval b => (z.isBalanced k).outcome) ∧
    IgnoresForm fun z => (y.div z kx ky).outcome := by
  refine ⟨normalize_normalize x, fun _ => mem_normalize_iff, ?_, ofInterval_toInterval x,
    isEmpty_toInterval x, ?_, ?_, ?_, ?_, ?_, ?_, ?_, ?_⟩
  · rw [normalize_eq_iff, mem_iff_iff_contains]
  · exact fun v => ignoresForm_of_empty fun _ hz => contains_of_empty hz v
  · exact ignoresForm_of_empty fun _ => size_of_empty
  · exact ignoresForm_of_some_empty (fun _ _ => intersection_of_empty) y
  · exact ignoresForm_of_some_empty (fun _ _ => compare_of_empty) y
  · exact ignoresForm_of_some_empty (fun _ _ => relationalSet_of_empty) y
  · exact ignoresForm_of_empty fun _ => bitWidth_of_empty
  · exact ignoresForm_of_empty fun _ => isBalanced_of_empty
  · exact ignoresForm_of_empty fun _ => div_of_empty

/-! ## Clamping -/

theorem normalize_clamp (x : Interval b) (lo hi : Bound b) :
    (x.clamp lo hi).normalize = x.intersection ⟨lo, hi⟩ := by
  apply (canonical_normalize _).eq_of_mem_iff (canonical_intersection _ _)
  intro v
  rw [mem_normalize_iff, mem_clamp_iff, mem_intersection_iff, mem_def (x := ⟨lo, hi⟩)]

theorem clamp_clamp (x : Interval b) (lo hi lo' hi' : Bound b) :
    (x.clamp lo hi).clamp lo' hi' = x.clamp (max lo lo') (min hi hi') := by
  apply ext
  · simp only [clamp, FixedInt.val_max, max_assoc]
  · simp only [clamp, FixedInt.val_min, min_assoc]

theorem clamp_self (x : Interval b) (lo hi : Bound b) :
    (x.clamp lo hi).clamp lo hi = x.clamp lo hi := by
  rw [clamp_clamp]
  apply ext
  · simp only [clamp, FixedInt.val_max, max_self]
  · simp only [clamp, FixedInt.val_min, min_self]

theorem clamp_comm (x : Interval b) (lo hi lo' hi' : Bound b) :
    (x.clamp lo hi).clamp lo' hi' = (x.clamp lo' hi').clamp lo hi := by
  rw [clamp_clamp, clamp_clamp]
  apply ext
  · simp only [clamp, FixedInt.val_max, max_comm]
  · simp only [clamp, FixedInt.val_min, min_comm]

/-- The bounds cut to several ranges, one after the other. -/
def clampAll (x : Interval b) (ranges : List (Interval b)) : Interval b :=
  ranges.foldl (fun z range => z.clamp range.lower range.upper) x

/-- One step at a time, clamping stays the intersection; so an inverted result stays empty. -/
theorem normalize_clampAll (x : Interval b) (ranges : List (Interval b)) :
    (x.clampAll ranges).normalize = ranges.foldl intersection x.normalize := by
  induction ranges generalizing x with
  | nil => rfl
  | cons range ranges ih =>
    have hstep : (x.clamp range.lower range.upper).normalize = x.normalize.intersection range := by
      rw [normalize_clamp]
      exact ((ignoresForm_of_some_empty (fun _ _ => intersection_of_empty) range).1 x).symm
    change ((x.clamp range.lower range.upper).clampAll ranges).normalize = _
    rw [ih, hstep, List.foldl_cons]

/-- Up to the representative clamping is the intersection with the range, and also in the bounds
themselves two ranges have the effect of one, whatever is inverted. -/
theorem clamp_intersects_and_composes (x : Interval b) (lo hi lo' hi' : Bound b)
    (ranges : List (Interval b)) :
    (x.clamp lo hi).normalize = x.intersection ⟨lo, hi⟩ ∧
    (x.clamp lo hi).clamp lo' hi' = x.clamp (max lo lo') (min hi hi') ∧
    (x.clamp lo hi).clamp lo hi = x.clamp lo hi ∧
    (x.clamp lo hi).clamp lo' hi' = (x.clamp lo' hi').clamp lo hi ∧
    (x.clampAll ranges).normalize = ranges.foldl intersection x.normalize :=
  ⟨normalize_clamp x lo hi, clamp_clamp x lo hi lo' hi', clamp_self x lo hi,
    clamp_comm x lo hi lo' hi', normalize_clampAll x ranges⟩

/-- Only the representative of an inverted result is `[1,0]`. -/
example : (between 20 30 : Interval .int8).clamp 0 1 = between 20 1 ∧
    ((between 20 30 : Interval .int8).clamp 0 1).normalize = ⟨1, 0⟩ := by decide

end Bitspan.Interval
