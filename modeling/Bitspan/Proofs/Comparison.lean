import Bitspan.Interval.Compare
import Bitspan.Proofs.Lattice

set_option autoImplicit false

/-!
# Comparisons over every pair

Each comparison comes with one test of the bounds that tells, for operands that are not empty,
whether it holds of every pair of members. The answer of `relation` is read off the test of the
comparison and the test of its negation, so it `Tells` exactly of how many pairs the comparison
holds, and a definite answer is kept by every part of the operands.
-/

namespace Bitspan

variable {b : BoundType}

namespace Truth

variable {all none : Bool}

theorem ofTests_eq_always_iff : ofTests all none = always ↔ all = true := by
  cases all <;> cases none <;> decide

theorem ofTests_eq_never_iff : ofTests all none = never ↔ all = false ∧ none = true := by
  cases all <;> cases none <;> decide

theorem eq_mixed_iff {t : Truth} : t = mixed ↔ t ≠ always ∧ t ≠ never := by
  cases t <;> decide

/-- What an answer says of the comparison of each member of `x` with each member of `y`. -/
def Tells (t : Truth) (c : Comparison) (x y : Interval b) : Prop :=
  match t with
  | always => ∀ a ∈ x, ∀ d ∈ y, c.Holds a d
  | never => ∀ a ∈ x, ∀ d ∈ y, ¬ c.Holds a d
  | mixed => (∃ a ∈ x, ∃ d ∈ y, c.Holds a d) ∧ ∃ a ∈ x, ∃ d ∈ y, ¬ c.Holds a d

variable {t : Truth} {c : Comparison} {x y : Interval b}

theorem Tells.negation (h : t.Tells c x y) : t.opposite.Tells c.negation x y := by
  cases t with
  | always | never => simpa only [opposite, Tells, Comparison.holds_negation_iff, not_not] using h
  | mixed =>
    simpa only [opposite, Tells, Comparison.holds_negation_iff, not_not] using And.symm h

theorem Tells.converse (h : t.Tells c x y) : t.Tells c.converse y x := by
  cases t with
  | always | never =>
    intro a ha d hd
    rw [Comparison.holds_converse_iff]
    exact h d hd a ha
  | mixed =>
    obtain ⟨⟨a, ha, d, hd, hyes⟩, v, hv, w, hw, hno⟩ := h
    simp only [Tells, Comparison.holds_converse_iff]
    exact ⟨⟨d, hd, a, ha, hyes⟩, w, hw, v, hv, hno⟩

end Truth

namespace Interval

variable {x y w v : Interval b} {c : Comparison} {t : Truth}

/-- The comparison holds of every pair, as the bounds tell it. -/
def everyPair (x y : Interval b) : Comparison → Bool
  | .eq => x.sameValue y
  | .ne => (x.intersection y).isEmpty
  | .lt => x.upper < y.lower
  | .le => x.upper ≤ y.lower
  | .gt => y.upper < x.lower
  | .ge => y.upper ≤ x.lower

theorem relation_eq_ofTests (x y : Interval b) (c : Comparison) :
    x.relation y c = .ofTests (x.everyPair y c) (x.everyPair y c.negation) := by
  cases c <;> rfl

theorem sameValue_iff (hx : x.isEmpty = false) (hy : y.isEmpty = false) :
    x.sameValue y = true ↔ ∀ a ∈ x, ∀ d ∈ y, a = d := by
  unfold sameValue
  rw [Bool.and_eq_true, isSingleton_iff, decide_eq_true_iff]
  constructor
  · rintro ⟨hsingle, rfl⟩ a ha d hd
    have hval := FixedInt.val_inj.2 hsingle
    rw [mem_def] at ha hd
    omega
  · intro h
    have hll := h _ (lower_mem hx) _ (lower_mem hy)
    have hul := h _ (upper_mem hx) _ (lower_mem hy)
    have huu := h _ (upper_mem hx) _ (upper_mem hy)
    exact ⟨FixedInt.ext (hll.trans hul.symm), ext hll huu⟩

theorem intersection_isEmpty_iff :
    (x.intersection y).isEmpty = true ↔ ∀ a ∈ x, ∀ d ∈ y, a ≠ d := by
  rw [← not_iff_not, Bool.not_eq_true, isEmpty_eq_false_iff_mem]
  constructor
  · rintro ⟨a, ha⟩ h
    obtain ⟨hax, hay⟩ := mem_intersection_iff.1 ha
    exact h a hax a hay rfl
  · intro h
    push Not at h
    obtain ⟨a, hax, _, hay, rfl⟩ := h
    exact ⟨a, mem_intersection_iff.2 ⟨hax, hay⟩⟩

theorem everyPair_iff (hx : x.isEmpty = false) (hy : y.isEmpty = false) :
    x.everyPair y c = true ↔ ∀ a ∈ x, ∀ d ∈ y, c.Holds a d := by
  -- An order holds of every pair as soon as it holds of the two bounds that face each other.
  cases c with
  | eq => exact sameValue_iff hx hy
  | ne => exact intersection_isEmpty_iff
  | lt | le =>
    simp only [everyPair, decide_eq_true_iff, FixedInt.lt_def, FixedInt.le_def, Comparison.Holds]
    constructor
    · intro h a ha d hd
      rw [mem_def] at ha hd
      omega
    · intro h
      exact h _ (upper_mem hx) _ (lower_mem hy)
  | gt | ge =>
    simp only [everyPair, decide_eq_true_iff, FixedInt.lt_def, FixedInt.le_def, Comparison.Holds]
    constructor
    · intro h a ha d hd
      rw [mem_def] at ha hd
      omega
    · intro h
      exact h _ (lower_mem hx) _ (upper_mem hy)

theorem relation_eq_always_iff (hx : x.isEmpty = false) (hy : y.isEmpty = false) :
    x.relation y c = .always ↔ ∀ a ∈ x, ∀ d ∈ y, c.Holds a d := by
  rw [relation_eq_ofTests, Truth.ofTests_eq_always_iff, everyPair_iff hx hy]

theorem relation_eq_never_iff (hx : x.isEmpty = false) (hy : y.isEmpty = false) :
    x.relation y c = .never ↔ ∀ a ∈ x, ∀ d ∈ y, ¬ c.Holds a d := by
  simp only [← Comparison.holds_negation_iff]
  rw [relation_eq_ofTests, Truth.ofTests_eq_never_iff, ← everyPair_iff hx hy, and_iff_right_iff_imp]
  intro h
  rw [← Bool.not_eq_true, everyPair_iff hx hy]
  intro hall
  have hnone := (everyPair_iff hx hy).1 h _ (lower_mem hx) _ (lower_mem hy)
  rw [Comparison.holds_negation_iff] at hnone
  exact hnone (hall _ (lower_mem hx) _ (lower_mem hy))

theorem relation_eq_iff (hx : x.isEmpty = false) (hy : y.isEmpty = false) :
    x.relation y c = t ↔ t.Tells c x y := by
  cases t with
  | always => exact relation_eq_always_iff hx hy
  | never => exact relation_eq_never_iff hx hy
  | mixed =>
    rw [Truth.eq_mixed_iff, Ne, Ne, relation_eq_always_iff hx hy, relation_eq_never_iff hx hy,
      Truth.Tells]
    push Not
    exact and_comm

theorem relation_negation (hx : x.isEmpty = false) (hy : y.isEmpty = false) :
    x.relation y c.negation = (x.relation y c).opposite :=
  (relation_eq_iff hx hy).2 ((relation_eq_iff hx hy).1 rfl).negation

theorem relation_converse (hx : x.isEmpty = false) (hy : y.isEmpty = false) :
    y.relation x c.converse = x.relation y c :=
  (relation_eq_iff hy hx).2 ((relation_eq_iff hx hy).1 rfl).converse

theorem relation_mono (hx : x.isEmpty = false) (hy : y.isEmpty = false) (hxw : x ⊆ w)
    (hyv : y ⊆ v) (h : w.relation v c = t) (ht : t ≠ .mixed) : x.relation y c = t := by
  have hw := isEmpty_eq_false_of_subset hx hxw
  have hv := isEmpty_eq_false_of_subset hy hyv
  cases t with
  | always =>
    rw [relation_eq_always_iff hw hv] at h
    exact (relation_eq_always_iff hx hy).2 fun a ha d hd => h a (hxw a ha) d (hyv d hd)
  | never =>
    rw [relation_eq_never_iff hw hv] at h
    exact (relation_eq_never_iff hx hy).2 fun a ha d hd => h a (hxw a ha) d (hyv d hd)
  | mixed => exact absurd rfl ht

theorem compare_of_nonempty (hx : x.isEmpty = false) (hy : y.isEmpty = false) :
    x.compare y c = pure (x.relation y c) := by
  simp [compare, hx, hy]

theorem compare_of_empty (h : x.isEmpty = true ∨ y.isEmpty = true) :
    (x.compare y c).outcome = .error (.rejected (.emptyOperand .compare)) := by
  rw [compare, if_pos (Bool.or_eq_true _ _ ▸ h)]
  rfl

theorem compare_mono (hx : x.isEmpty = false) (hy : y.isEmpty = false) (hxw : x ⊆ w)
    (hyv : y ⊆ v) (h : (w.compare v c).outcome = .ok t) (ht : t ≠ .mixed) :
    (x.compare y c).outcome = .ok t := by
  rw [compare_of_nonempty (isEmpty_eq_false_of_subset hx hxw) (isEmpty_eq_false_of_subset hy hyv),
    Call.outcome_pure, Except.ok.injEq] at h
  rw [compare_of_nonempty hx hy, Call.outcome_pure, relation_mono hx hy hxw hyv h ht]

theorem relationalSet_of_nonempty (hx : x.isEmpty = false) (hy : y.isEmpty = false) :
    x.relationalSet y = pure ⟨0, 1⟩ := by
  simp [relationalSet, hx, hy]

theorem relationalSet_of_empty (h : x.isEmpty = true ∨ y.isEmpty = true) :
    (x.relationalSet y).outcome = .error (.rejected (.emptyOperand .relationalSet)) := by
  rw [relationalSet, if_pos (Bool.or_eq_true _ _ ▸ h)]
  rfl

theorem some_empty_or_nonempty (x y : Interval b) :
    (x.isEmpty = true ∨ y.isEmpty = true) ∨ x.isEmpty = false ∧ y.isEmpty = false := by
  cases x.isEmpty <;> cases y.isEmpty <;> decide

theorem outcome_eq_error_iff_some_empty {α : Type} {call : Call α} {reason : Rejection} {a : α}
    (hreject : x.isEmpty = true ∨ y.isEmpty = true → call.outcome = .error (.rejected reason))
    (hok : x.isEmpty = false → y.isEmpty = false → call = pure a) (e : Failure) :
    call.outcome = .error e ↔ e = .rejected reason ∧ (x.isEmpty = true ∨ y.isEmpty = true) := by
  refine Call.outcome_eq_error_iff_of_guard hreject (fun h => ?_) e
  obtain ⟨hx, hy⟩ := (some_empty_or_nonempty x y).resolve_left h
  exact ⟨a, congrArg Call.outcome (hok hx hy)⟩

theorem compare_eq_ok_iff :
    (x.compare y c).outcome = .ok t ↔ x.isEmpty = false ∧ y.isEmpty = false ∧ t.Tells c x y := by
  rcases some_empty_or_nonempty x y with h | ⟨hx, hy⟩
  · rw [compare_of_empty h]
    rcases h with h | h
    · simp [h]
    · simp [h]
  · rw [compare_of_nonempty hx hy, Call.outcome_pure, Except.ok.injEq, relation_eq_iff hx hy]
    simp [hx, hy]

theorem compare_negation :
    (x.compare y c.negation).outcome = (x.compare y c).outcome.map Truth.opposite := by
  rcases some_empty_or_nonempty x y with h | ⟨hx, hy⟩
  · rw [compare_of_empty h, compare_of_empty h]
    rfl
  · rw [compare_of_nonempty hx hy, compare_of_nonempty hx hy, relation_negation hx hy]
    rfl

theorem compare_converse : (y.compare x c.converse).outcome = (x.compare y c).outcome := by
  rcases some_empty_or_nonempty x y with h | ⟨hx, hy⟩
  · rw [compare_of_empty h, compare_of_empty h.symm]
  · rw [compare_of_nonempty hx hy, compare_of_nonempty hy hx, relation_converse hx hy]

/-- Only an empty operand is rejected, as by `relationalSet`; every other answer is the one that
tells of all pairs. So the negated comparison has the opposite answer, and the exchanged operands
under the converse comparison have the same one. -/
theorem compare_tells_every_pair (x y : Interval b) (c : Comparison) :
    (∀ e, (x.compare y c).outcome = .error e ↔
      e = .rejected (.emptyOperand .compare) ∧ (x.isEmpty = true ∨ y.isEmpty = true)) ∧
    (∀ e, (x.relationalSet y).outcome = .error e ↔
      e = .rejected (.emptyOperand .relationalSet) ∧ (x.isEmpty = true ∨ y.isEmpty = true)) ∧
    (∀ t, (x.compare y c).outcome = .ok t ↔
      x.isEmpty = false ∧ y.isEmpty = false ∧ t.Tells c x y) ∧
    (x.compare y c.negation).outcome = (x.compare y c).outcome.map Truth.opposite ∧
    (y.compare x c.converse).outcome = (x.compare y c).outcome := by
  refine ⟨?_, ?_, fun t => compare_eq_ok_iff, compare_negation, compare_converse⟩
  · exact outcome_eq_error_iff_some_empty compare_of_empty compare_of_nonempty
  · exact outcome_eq_error_iff_some_empty relationalSet_of_empty relationalSet_of_nonempty

/-- Touching bounds leave a strict order open. -/
example : ((⟨0, 1⟩ : Interval .int8).compare ⟨1, 1⟩ .lt).outcome = .ok .mixed ∧
    ((⟨0, 1⟩ : Interval .int8).compare ⟨1, 1⟩ .le).outcome = .ok .always := by decide

end Interval

end Bitspan
