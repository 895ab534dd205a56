import Mathlib.Algebra.Order.Ring.Int
import Mathlib.Data.Set.NAry
import Mathlib.Order.Bounds.Basic
import Mathlib.Order.Interval.Set.UnorderedInterval
import Bitspan.Call
import Bitspan.Interval.Basic

set_option autoImplicit false

/-!
# Tight images

The exact values of an operation on the members of its operands form a set of integers. `Spans`
says that an interval runs from the least to the greatest of them. `TightImage` says that a checked
result is that interval when every value fits, and the overflow of one step when some value does
not; such a result is determined by the set, and shrinks with it.
-/

namespace Bitspan

variable {b : BoundType}

namespace Interval

def between (lower upper : ℤ) (hl : b.intType.Fits lower := by decide)
    (hu : b.intType.Fits upper := by decide) : Interval b :=
  ⟨⟨lower, hl⟩, ⟨upper, hu⟩⟩

def values (x : Interval b) : Set ℤ := {v | v ∈ x}

instance : HasSubset (Interval b) := ⟨fun x y => ∀ v, v ∈ x → v ∈ y⟩

theorem subset_iff {x y : Interval b} (hx : x.isEmpty = false) :
    x ⊆ y ↔ y.lower.val ≤ x.lower.val ∧ x.upper.val ≤ y.upper.val := by
  rw [isEmpty_eq_false_iff] at hx
  constructor
  · intro h
    exact ⟨(h x.lower.val ⟨le_rfl, hx⟩).1, (h x.upper.val ⟨hx, le_rfl⟩).2⟩
  · intro h v hv
    exact ⟨h.1.trans hv.1, hv.2.trans h.2⟩

theorem isEmpty_eq_false_of_mem {x : Interval b} {v : ℤ} (h : v ∈ x) : x.isEmpty = false :=
  isEmpty_eq_false_iff_mem.2 ⟨v, h⟩

theorem not_mem_of_isEmpty {x : Interval b} (hx : x.isEmpty = true) (v : ℤ) : v ∉ x := by
  intro hv
  rw [isEmpty_eq_false_of_mem hv] at hx
  cases hx

theorem lower_mem {x : Interval b} (hx : x.isEmpty = false) : x.lower.val ∈ x :=
  ⟨le_rfl, isEmpty_eq_false_iff.1 hx⟩

theorem isEmpty_eq_false_of_subset {x y : Interval b} (hx : x.isEmpty = false) (h : x ⊆ y) :
    y.isEmpty = false :=
  isEmpty_eq_false_of_mem (h _ (lower_mem hx))

theorem upper_mem {x : Interval b} (hx : x.isEmpty = false) : x.upper.val ∈ x :=
  ⟨isEmpty_eq_false_iff.1 hx, le_rfl⟩

theorem isLeast_lower {x : Interval b} (hx : x.isEmpty = false) : IsLeast x.values x.lower.val :=
  ⟨lower_mem hx, fun _ ha => ha.1⟩

theorem isGreatest_upper {x : Interval b} (hx : x.isEmpty = false) :
    IsGreatest x.values x.upper.val :=
  ⟨upper_mem hx, fun _ ha => ha.2⟩

theorem mem_image2 {g : ℤ → ℤ → ℤ} {x y : Interval b} {a c : ℤ} (ha : a ∈ x) (hc : c ∈ y) :
    g a c ∈ Set.image2 g x.values y.values :=
  Set.mem_image2_of_mem ha hc

/-- Whenever `d` gives an interval, `c` gives one within it. -/
def Narrows (c d : Call (Interval b)) : Prop :=
  ∀ w, d.outcome = .ok w → ∃ z, c.outcome = .ok z ∧ z ⊆ w

theorem narrows_pure {z w : Interval b} (h : z ⊆ w) : Narrows (pure z) (pure w) := by
  intro v hv
  cases hv
  exact ⟨z, rfl, h⟩

theorem bounds_eq_ok_iff {p q : Checked (Bound b)} {z : Interval b} :
    (do let lower ← p; let upper ← q; return (⟨lower, upper⟩ : Interval b)) = .ok z ↔
      p = .ok z.lower ∧ q = .ok z.upper := by
  simp only [Checked.bind_eq_ok_iff]
  constructor
  · rintro ⟨l, hl, u, hu, hz⟩
    cases hz
    exact ⟨hl, hu⟩
  · rintro ⟨hl, hu⟩
    exact ⟨_, hl, _, hu, rfl⟩

/-- The interval is not empty and holds every element of `s`. -/
structure Encloses (z : Interval b) (s : Set ℤ) : Prop where
  nonempty : z.isEmpty = false
  mem : ∀ v ∈ s, v ∈ z

/-- The bounds are the least and the greatest element of `s`. -/
structure Spans (z : Interval b) (s : Set ℤ) : Prop where
  least : IsLeast s z.lower.val
  greatest : IsGreatest s z.upper.val

/-- A part of `t` that has an element below and an element above each element of `t`. -/
structure Frames (s t : Set ℤ) : Prop where
  subset : s ⊆ t
  below : IsCoinitialFor t s
  above : IsCofinalFor t s

namespace Spans

variable {w z : Interval b} {s t : Set ℤ} {v : ℤ}

theorem mem (h : z.Spans s) (hv : v ∈ s) : v ∈ z :=
  ⟨h.least.2 hv, h.greatest.2 hv⟩

theorem isEmpty_eq_false (h : z.Spans s) : z.isEmpty = false :=
  isEmpty_eq_false_of_mem (h.mem h.least.1)

theorem encloses (h : z.Spans s) : z.Encloses s :=
  ⟨h.isEmpty_eq_false, fun _ hv => h.mem hv⟩

theorem unique (hz : z.Spans s) (hw : w.Spans s) : z = w :=
  ext (hz.least.unique hw.least) (hz.greatest.unique hw.greatest)

theorem subset (hz : z.Spans s) (hw : w.Spans t) (hst : s ⊆ t) : z ⊆ w := by
  rw [subset_iff hz.isEmpty_eq_false]
  exact ⟨hw.least.2 (hst hz.least.1), hw.greatest.2 (hst hz.greatest.1)⟩

theorem subset_of_mem (hz : z.Spans s) (h : ∀ v ∈ s, v ∈ w) : z ⊆ w := by
  rw [subset_iff hz.isEmpty_eq_false]
  exact ⟨(h _ hz.least.1).1, (h _ hz.greatest.1).2⟩

/-- The least and the greatest element of a set belong to every part that frames it. -/
theorem of_frames (hz : z.Spans t) (h : Frames s t) : z.Spans s := by
  obtain ⟨l, hl, hle⟩ := h.below hz.least.1
  obtain ⟨g, hg, hge⟩ := h.above hz.greatest.1
  rw [le_antisymm hle (hz.least.2 (h.subset hl))] at hl
  rw [le_antisymm (hz.greatest.2 (h.subset hg)) hge] at hg
  exact ⟨⟨hl, fun v hv => hz.least.2 (h.subset hv)⟩, ⟨hg, fun v hv => hz.greatest.2 (h.subset hv)⟩⟩

/-- What spans the integers between two bounds holds no others. -/
theorem mem_iff_of_between {l u : ℤ} (hz : z.Spans s) (hs : s = {v | l ≤ v ∧ v ≤ u}) (v : ℤ) :
    v ∈ z ↔ v ∈ s := by
  constructor
  · intro hv
    have hl := hz.least.1
    have hu := hz.greatest.1
    rw [hs] at hl hu ⊢
    exact ⟨hl.1.trans hv.1, hv.2.trans hu.2⟩
  · exact hz.mem

end Spans

/-- The interval that spans `s`, or the overflow of `step` if an element of `s` does not fit. -/
structure TightImage (step : ArithmeticStep) (s : Set ℤ) (r : Checked (Interval b)) : Prop where
  spans : ∀ {z}, r = .ok z → z.Spans s
  overflow : ∀ {f}, r = .error f → f = .overflow step ∧ ∃ v ∈ s, ¬ b.intType.Fits v

namespace TightImage

variable {step : ArithmeticStep} {s t : Set ℤ} {r q : Checked (Interval b)}

theorem pure {z : Interval b} (h : z.Spans s) : TightImage step s (pure z) where
  spans := by
    intro w hw
    cases hw
    exact h
  overflow := by
    intro f hf
    cases hf

/-- A step whose exact value belongs to the set may come first. -/
theorem fit_bind {v : ℤ} {f : Bound b → Checked (Interval b)} (hv : v ∈ s)
    (h : ∀ p, p.val = v → TightImage step s (f p)) :
    TightImage step s (FixedInt.fit step v >>= f) where
  spans := by
    intro z hz
    obtain ⟨p, hp, hfp⟩ := Checked.bind_eq_ok_iff.1 hz
    exact (h p (FixedInt.fit_eq_ok_iff.1 hp)).spans hfp
  overflow := by
    intro e he
    rcases Checked.bind_eq_error_iff.1 he with hp | ⟨p, hp, hfp⟩
    · obtain ⟨rfl, hfit⟩ := FixedInt.fit_eq_error_iff.1 hp
      exact ⟨rfl, v, hv, hfit⟩
    · exact (h p (FixedInt.fit_eq_ok_iff.1 hp)).overflow hfp

theorem of_bounds {l u : ℤ} (hl : IsLeast s l) (hu : IsGreatest s u) :
    TightImage step s (do
      let lower : Bound b ← FixedInt.fit step l
      let upper ← FixedInt.fit step u
      return ⟨lower, upper⟩) := by
  refine .fit_bind hl.1 fun p hp => .fit_bind hu.1 fun q hq => .pure ⟨?_, ?_⟩
  · change IsLeast s p.val
    rwa [hp]
  · change IsGreatest s q.val
    rwa [hq]

/-- An operation on a tight image may follow, if an element that does not fit before it leaves one
that does not fit after it. -/
theorem bind {f : Interval b → Checked (Interval b)} (hr : TightImage step s r)
    (hf : ∀ p, p.Spans s → TightImage step t (f p))
    (hst : (∃ v ∈ s, ¬ b.intType.Fits v) → ∃ v ∈ t, ¬ b.intType.Fits v) :
    TightImage step t (r >>= f) where
  spans := by
    intro z hz
    obtain ⟨p, hp, hfp⟩ := Checked.bind_eq_ok_iff.1 hz
    exact (hf p (hr.spans hp)).spans hfp
  overflow := by
    intro e he
    rcases Checked.bind_eq_error_iff.1 he with hover | ⟨p, hp, hfp⟩
    · obtain ⟨rfl, hv⟩ := hr.overflow hover
      exact ⟨rfl, hst hv⟩
    · exact (hf p (hr.spans hp)).overflow hfp

theorem exists_of_fits (h : TightImage step s r) (hs : ∀ v ∈ s, b.intType.Fits v) :
    ∃ z, r = .ok z ∧ z.Spans s := by
  cases hr : r with
  | ok z => exact ⟨z, rfl, h.spans hr⟩
  | error f =>
    obtain ⟨_, v, hv, hfit⟩ := h.overflow hr
    exact absurd (hs v hv) hfit

theorem fits_of_ok (h : TightImage step s r) {z : Interval b} (hz : r = .ok z) {v : ℤ}
    (hv : v ∈ s) : b.intType.Fits v :=
  fits_of_mem ((h.spans hz).mem hv)

theorem encloses (h : TightImage step s r) {z : Interval b} (hz : r = .ok z) : z.Encloses s :=
  (h.spans hz).encloses

theorem eq_error_iff (h : TightImage step s r) {f : Fault} :
    r = .error f ↔ f = .overflow step ∧ ∃ v ∈ s, ¬ b.intType.Fits v := by
  constructor
  · exact h.overflow
  · rintro ⟨rfl, v, hv, hfit⟩
    cases hr : r with
    | ok z => exact absurd (h.fits_of_ok hr hv) hfit
    | error g => rw [(h.overflow hr).1]

theorem outcome_eq_error_iff (h : TightImage step s r) {e : Failure} :
    (Call.checked r).outcome = .error e ↔
      e = .fault (.overflow step) ∧ ∃ v ∈ s, ¬ b.intType.Fits v := by
  rw [Call.outcome_checked_eq_error_iff]
  constructor
  · rintro ⟨f, rfl, hf⟩
    obtain ⟨rfl, hv⟩ := h.overflow hf
    exact ⟨rfl, hv⟩
  · rintro ⟨rfl, hv⟩
    exact ⟨_, rfl, h.eq_error_iff.2 ⟨rfl, hv⟩⟩

theorem eq_ok_of_eq_ok {u : ArithmeticStep} {z : Interval b} (hr : TightImage step s r)
    (hq : TightImage u s q) (hz : r = .ok z) : q = .ok z := by
  obtain ⟨w, hw, hspan⟩ := hq.exists_of_fits fun v hv => hr.fits_of_ok hz hv
  rw [hw, (hr.spans hz).unique hspan]

/-- Two tight images of one set are the same interval, or both overflow. -/
theorem eq_ok_iff {u : ArithmeticStep} {z : Interval b} (hr : TightImage step s r)
    (hq : TightImage u s q) : r = .ok z ↔ q = .ok z :=
  ⟨hr.eq_ok_of_eq_ok hq, hq.eq_ok_of_eq_ok hr⟩

theorem unique (hr : TightImage step s r) (hq : TightImage step s q) : r = q := by
  cases hz : r with
  | ok z => exact (hr.eq_ok_of_eq_ok hq hz).symm
  | error f => exact (hq.eq_error_iff.2 (hr.overflow hz)).symm

/-- A value that does not fit lies between two values of the framing part, so one of those does
not fit either. -/
theorem of_frames (h : TightImage step t r) (hst : Frames s t) : TightImage step s r where
  spans := fun hz => (h.spans hz).of_frames hst
  overflow := by
    intro f hf
    obtain ⟨rfl, v, hv, hfit⟩ := h.overflow hf
    obtain ⟨l, hl, hlv⟩ := hst.below hv
    obtain ⟨g, hg, hvg⟩ := hst.above hv
    refine ⟨rfl, ?_⟩
    by_contra hall
    push Not at hall
    exact hfit ((hall l hl).of_between (hall g hg) hlv hvg)

theorem narrows {u : ArithmeticStep} (hr : TightImage step s r) (hq : TightImage u t q)
    (hst : s ⊆ t) : Narrows (.checked r) (.checked q) := by
  intro w hw
  have hw := Call.outcome_checked_eq_ok_iff.1 hw
  obtain ⟨z, hz, hspan⟩ := hr.exists_of_fits fun v hv => hq.fits_of_ok hw (hst hv)
  exact ⟨z, Call.outcome_checked_eq_ok_iff.2 hz, hspan.subset (hq.spans hw) hst⟩

end TightImage

/-- The interval of the elements of `s` and no other integers, or the overflow of `step` exactly if
an element of `s` does not fit. -/
structure ExactImage (step : ArithmeticStep) (s : Set ℤ) (r : Checked (Interval b)) : Prop where
  eq_error_iff : ∀ f, r = .error f ↔ f = .overflow step ∧ ∃ v ∈ s, ¬ b.intType.Fits v
  exists_of_fits : (∀ v ∈ s, b.intType.Fits v) → ∃ z, r = .ok z ∧ ∀ v, v ∈ z ↔ v ∈ s

theorem ExactImage.mem_iff {step : ArithmeticStep} {s : Set ℤ} {r : Checked (Interval b)}
    {z : Interval b} (h : ExactImage step s r) (hz : r = .ok z) (v : ℤ) : v ∈ z ↔ v ∈ s := by
  have hfits : ∀ v ∈ s, b.intType.Fits v := by
    intro v hv
    by_contra hfit
    have herror := (h.eq_error_iff _).2 ⟨rfl, v, hv, hfit⟩
    rw [hz] at herror
    cases herror
  obtain ⟨w, hw, hmem⟩ := h.exists_of_fits hfits
  rw [hz] at hw
  cases hw
  exact hmem v

theorem TightImage.exact {step : ArithmeticStep} {s : Set ℤ} {r : Checked (Interval b)} {l u : ℤ}
    (h : TightImage step s r) (hs : s = {v | l ≤ v ∧ v ≤ u}) : ExactImage step s r where
  eq_error_iff := fun _ => h.eq_error_iff
  exists_of_fits := by
    intro hfits
    obtain ⟨z, hz, hspan⟩ := h.exists_of_fits hfits
    exact ⟨z, hz, hspan.mem_iff_of_between hs⟩

end Interval

end Bitspan
