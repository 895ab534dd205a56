import Bitspan.Interval.Arithmetic
import Bitspan.Proofs.Image

set_option autoImplicit false

/-!
# Extreme values at the corners

A function of two integers that runs between its end values in each argument takes its extreme
values on a rectangle at the corners. So the bounds of an operand may be replaced by any set that
they are the extreme elements of, which is what nested operations need.
-/

namespace Bitspan.Interval

variable {b : BoundType}

/-- Between the ends of either operand, the other one held fixed, `g` stays between its end values. -/
structure RunsBetween (g : ℤ → ℤ → ℤ) (x y : Interval b) : Prop where
  left : ∀ a ∈ x, ∀ c ∈ y, g a c ∈ Set.uIcc (g x.lower.val c) (g x.upper.val c)
  right : ∀ a ∈ x, ∀ c ∈ y, g a c ∈ Set.uIcc (g a y.lower.val) (g a y.upper.val)

namespace RunsBetween

variable {g : ℤ → ℤ → ℤ} {x y z : Interval b}

theorem corners (h : RunsBetween g x y) {a c : ℤ} (ha : a ∈ x) (hc : c ∈ y) :
    min (min (g x.lower.val y.lower.val) (g x.lower.val y.upper.val))
        (min (g x.upper.val y.lower.val) (g x.upper.val y.upper.val)) ≤ g a c ∧
      g a c ≤ max (max (g x.lower.val y.lower.val) (g x.lower.val y.upper.val))
        (max (g x.upper.val y.lower.val) (g x.upper.val y.upper.val)) := by
  have hx := isEmpty_eq_false_of_mem ha
  have side := Set.mem_uIcc.1 (h.left a ha c hc)
  have low := Set.mem_uIcc.1 (h.right _ (lower_mem hx) c hc)
  have high := Set.mem_uIcc.1 (h.right _ (upper_mem hx) c hc)
  omega

theorem spans (h : RunsBetween g x y) (hx : x.isEmpty = false) (hy : y.isEmpty = false)
    (hl : z.lower.val = min (min (g x.lower.val y.lower.val) (g x.lower.val y.upper.val))
      (min (g x.upper.val y.lower.val) (g x.upper.val y.upper.val)))
    (hu : z.upper.val = max (max (g x.lower.val y.lower.val) (g x.lower.val y.upper.val))
      (max (g x.upper.val y.lower.val) (g x.upper.val y.upper.val))) :
    z.Spans (Set.image2 g x.values y.values) := by
  have ll : g x.lower.val y.lower.val ∈ Set.image2 g x.values y.values :=
    mem_image2 (lower_mem hx) (lower_mem hy)
  have lu : g x.lower.val y.upper.val ∈ Set.image2 g x.values y.values :=
    mem_image2 (lower_mem hx) (upper_mem hy)
  have ul : g x.upper.val y.lower.val ∈ Set.image2 g x.values y.values :=
    mem_image2 (upper_mem hx) (lower_mem hy)
  have uu : g x.upper.val y.upper.val ∈ Set.image2 g x.values y.values :=
    mem_image2 (upper_mem hx) (upper_mem hy)
  constructor
  · rw [hl]
    refine ⟨min_rec' _ (min_rec' _ ll lu) (min_rec' _ ul uu), ?_⟩
    rintro _ ⟨a, ha, c, hc, rfl⟩
    exact (h.corners ha hc).1
  · rw [hu]
    refine ⟨max_rec' _ (max_rec' _ ll lu) (max_rec' _ ul uu), ?_⟩
    rintro _ ⟨a, ha, c, hc, rfl⟩
    exact (h.corners ha hc).2

theorem tightImage_corners {step : ArithmeticStep} {op : Bound b → Bound b → Checked (Bound b)}
    (h : RunsBetween g x y) (hx : x.isEmpty = false) (hy : y.isEmpty = false)
    (hop : ∀ p q : Bound b, q.val ∈ y → op p q = FixedInt.fit step (g p.val q.val)) :
    TightImage step (Set.image2 g x.values y.values)
      (do let c ← Corners.of op x y; return c.span) := by
  simp only [Corners.of, bind_assoc, pure_bind, hop _ _ (lower_mem hy), hop _ _ (upper_mem hy)]
  refine .fit_bind (mem_image2 (lower_mem hx) (lower_mem hy)) fun ll hll =>
    .fit_bind (mem_image2 (lower_mem hx) (upper_mem hy)) fun lu hlu =>
    .fit_bind (mem_image2 (upper_mem hx) (lower_mem hy)) fun ul hul =>
    .fit_bind (mem_image2 (upper_mem hx) (upper_mem hy)) fun uu huu =>
    .pure (h.spans hx hy ?_ ?_)
  · simp only [Corners.span, Corners.least, FixedInt.val_min, hll, hlu, hul, huu]
  · simp only [Corners.span, Corners.greatest, FixedInt.val_max, hll, hlu, hul, huu]

theorem swap (h : RunsBetween g x y) : RunsBetween (fun a c => g c a) y x where
  left := fun c hc a ha => h.right a ha c hc
  right := fun c hc a ha => h.left a ha c hc

variable {s : Set ℤ}

/-- The values on a set reach as far as those on the interval that spans it. -/
theorem frames_left (h : RunsBetween g x y) (hx : x.Spans s) :
    Frames (Set.image2 g s y.values) (Set.image2 g x.values y.values) where
  subset := Set.image2_subset_right fun _ => hx.mem
  below := by
    rintro _ ⟨a, ha, c, hc, rfl⟩
    rcases Set.mem_uIcc.1 (h.left a ha c hc) with ⟨hle, -⟩ | ⟨hle, -⟩
    · exact ⟨_, Set.mem_image2_of_mem hx.least.1 hc, hle⟩
    · exact ⟨_, Set.mem_image2_of_mem hx.greatest.1 hc, hle⟩
  above := by
    rintro _ ⟨a, ha, c, hc, rfl⟩
    rcases Set.mem_uIcc.1 (h.left a ha c hc) with ⟨-, hle⟩ | ⟨-, hle⟩
    · exact ⟨_, Set.mem_image2_of_mem hx.greatest.1 hc, hle⟩
    · exact ⟨_, Set.mem_image2_of_mem hx.least.1 hc, hle⟩

theorem frames_right (h : RunsBetween g x y) (hy : y.Spans s) :
    Frames (Set.image2 g x.values s) (Set.image2 g x.values y.values) := by
  rw [Set.image2_swap g, Set.image2_swap g]
  exact h.swap.frames_left hy

end RunsBetween

end Bitspan.Interval
