import Mathlib.Algebra.Order.Group.Abs
import Mathlib.Algebra.Order.Group.Int
import Mathlib.Order.Bounds.Image
import Bitspan.Proofs.Corners

set_option autoImplicit false

/-!
# Exact sums, differences and negations

Addition and subtraction run one way in each argument and negation reverses the order, so the
bounds computed for them are the extreme values. The magnitude is bounded from zero, which need
not be attained.
-/

namespace Bitspan.Interval

variable {b : BoundType} {x y z : Interval b}

theorem add_eq_ok_iff :
    x.add y = .ok z ↔
      z.lower.val = x.lower.val + y.lower.val ∧ z.upper.val = x.upper.val + y.upper.val := by
  rw [add, bounds_eq_ok_iff, FixedInt.add_eq_ok_iff, FixedInt.add_eq_ok_iff]

theorem sub_eq_ok_iff :
    x.sub y = .ok z ↔
      z.lower.val = x.lower.val - y.upper.val ∧ z.upper.val = x.upper.val - y.lower.val := by
  rw [sub, bounds_eq_ok_iff, FixedInt.sub_eq_ok_iff, FixedInt.sub_eq_ok_iff]

theorem neg_eq_ok_iff :
    x.neg = .ok z ↔ z.lower.val = -x.upper.val ∧ z.upper.val = -x.lower.val := by
  rw [neg, bounds_eq_ok_iff, FixedInt.neg_eq_ok_iff, FixedInt.neg_eq_ok_iff]

theorem runsBetween_add (x y : Interval b) : RunsBetween (· + ·) x y where
  left := fun _ ha c _ =>
    Set.mem_uIcc_of_le (Int.add_le_add_right ha.1 c) (Int.add_le_add_right ha.2 c)
  right := fun a _ _ hc =>
    Set.mem_uIcc_of_le (Int.add_le_add_left hc.1 a) (Int.add_le_add_left hc.2 a)

theorem runsBetween_sub (x y : Interval b) : RunsBetween (· - ·) x y where
  left := fun _ ha c _ =>
    Set.mem_uIcc_of_le (Int.sub_le_sub_right ha.1 c) (Int.sub_le_sub_right ha.2 c)
  right := fun a _ _ hc =>
    Set.mem_uIcc_of_ge (Int.sub_le_sub_left hc.2 a) (Int.sub_le_sub_left hc.1 a)

theorem tightImage_add (hx : x.isEmpty = false) (hy : y.isEmpty = false) :
    TightImage .add (Set.image2 (· + ·) x.values y.values) (x.add y) := by
  have left : ∀ c : ℤ, Monotone fun a => a + c := fun c _ _ h => Int.add_le_add_right h c
  have right : ∀ a : ℤ, Monotone fun c => a + c := fun a _ _ h => Int.add_le_add_left h a
  apply TightImage.of_bounds
  · exact IsLeast.image2 left right (isLeast_lower hx) (isLeast_lower hy)
  · exact IsGreatest.image2 left right (isGreatest_upper hx) (isGreatest_upper hy)

theorem tightImage_sub (hx : x.isEmpty = false) (hy : y.isEmpty = false) :
    TightImage .subtract (Set.image2 (· - ·) x.values y.values) (x.sub y) := by
  have left : ∀ c : ℤ, Monotone fun a => a - c := fun c _ _ h => Int.sub_le_sub_right h c
  have right : ∀ a : ℤ, Antitone fun c => a - c := fun a _ _ h => Int.sub_le_sub_left h a
  apply TightImage.of_bounds
  · exact IsLeast.isLeast_image2_of_isGreatest left right (isLeast_lower hx) (isGreatest_upper hy)
  · exact IsGreatest.isGreatest_image2_of_isLeast left right (isGreatest_upper hx)
      (isLeast_lower hy)

theorem tightImage_neg (hx : x.isEmpty = false) :
    TightImage .negate ((fun a => -a) '' x.values) x.neg := by
  have reverses : AntitoneOn (fun a : ℤ => -a) x.values := fun _ _ _ _ h => Int.neg_le_neg h
  apply TightImage.of_bounds
  · exact reverses.map_isGreatest (isGreatest_upper hx)
  · exact reverses.map_isLeast (isLeast_lower hx)

theorem abs_eq_ok_iff :
    x.abs = .ok z ↔ z.lower.val = 0 ∧ z.upper.val = max |x.upper.val| |x.lower.val| := by
  unfold abs
  simp only [Checked.bind_eq_ok_iff, FixedInt.abs_eq_ok_iff, Int.natCast_natAbs]
  constructor
  · rintro ⟨p, hp, q, hq, hz⟩
    cases hz
    rw [← hp, ← hq]
    exact ⟨rfl, FixedInt.val_max p q⟩
  · rintro ⟨hl, hu⟩
    have hp : b.intType.Fits |x.upper.val| :=
      b.intType.fits_zero.of_between z.upper.fits (abs_nonneg _) (hu ▸ le_max_left _ _)
    have hq : b.intType.Fits |x.lower.val| :=
      b.intType.fits_zero.of_between z.upper.fits (abs_nonneg _) (hu ▸ le_max_right _ _)
    refine ⟨⟨_, hp⟩, rfl, ⟨_, hq⟩, rfl, ?_⟩
    apply congrArg Except.ok
    apply ext
    · exact hl.symm
    · rw [hu, FixedInt.val_max]

theorem abs_le_of_mem {a : ℤ} (ha : a ∈ x) : |a| ≤ max |x.upper.val| |x.lower.val| := by
  have h := abs_le_max_abs_abs ha.1 ha.2
  rwa [max_comm] at h

/-- Zero is the lower bound of a magnitude, also where no member has it. -/
theorem tightImage_abs (hx : x.isEmpty = false) :
    TightImage .negate (insert 0 ((fun a => |a|) '' x.values)) x.abs where
  spans := by
    intro z hz
    obtain ⟨hl, hu⟩ := abs_eq_ok_iff.1 hz
    constructor
    · rw [hl]
      refine ⟨Set.mem_insert _ _, ?_⟩
      rintro _ (rfl | ⟨a, _, rfl⟩)
      · exact le_rfl
      · exact abs_nonneg a
    · rw [hu]
      constructor
      · rcases max_choice |x.upper.val| |x.lower.val| with h | h
        · exact .inr ⟨_, upper_mem hx, h.symm⟩
        · exact .inr ⟨_, lower_mem hx, h.symm⟩
      · rintro _ (rfl | ⟨a, ha, rfl⟩)
        · exact (abs_nonneg _).trans (le_max_left _ _)
        · exact abs_le_of_mem ha
  overflow := by
    intro f hf
    unfold abs at hf
    simp only [Checked.bind_eq_error_iff, FixedInt.abs_eq_error_iff, Int.natCast_natAbs] at hf
    rcases hf with ⟨rfl, hfit⟩ | ⟨_, _, ⟨rfl, hfit⟩ | ⟨_, _, h⟩⟩
    · exact ⟨rfl, _, .inr ⟨_, upper_mem hx, rfl⟩, hfit⟩
    · exact ⟨rfl, _, .inr ⟨_, lower_mem hx, rfl⟩, hfit⟩
    · cases h

theorem abs_encloses (hx : x.isEmpty = false) (h : x.abs = .ok z) :
    z.Encloses {r | ∃ a ∈ x, |a| = r} := by
  have henc := (tightImage_abs hx).encloses h
  exact ⟨henc.nonempty, fun _ hv => henc.mem _ (.inr hv)⟩

theorem abs_mono {w : Interval b} (hx : x.isEmpty = false) (hxw : x ⊆ w) :
    Narrows (.checked x.abs) (.checked w.abs) :=
  (tightImage_abs hx).narrows (tightImage_abs (isEmpty_eq_false_of_subset hx hxw))
    (Set.insert_subset_insert (Set.image_mono hxw))

end Bitspan.Interval
