import Bitspan.Proofs.Corners

set_option autoImplicit false

/-!
# Optimal products

The product runs between its end values in each factor, so each of the four formulas of `mul` gives
the tight image of the product on the operands it is meant for, and overflows only when some product
does not fit.
-/

namespace Bitspan

variable {b : BoundType}

/-- What the tag of an operand promises: an unsigned operand has no negative lower bound. -/
def Kind.Suits (k : Kind) (x : Interval b) : Prop := k = .unsigned → 0 ≤ x.lower.val

instance (k : Kind) (x : Interval b) : Decidable (k.Suits x) :=
  inferInstanceAs (Decidable (k = .unsigned → 0 ≤ x.lower.val))

theorem Kind.Suits.mono {k : Kind} {x w : Interval b} (h : k.Suits w) (hx : x.isEmpty = false)
    (hxw : x ⊆ w) : k.Suits x := fun hk => (h hk).trans ((Interval.subset_iff hx).1 hxw).1

theorem Kind.inSignedFamily_eq_false_iff {k : Kind} : k.inSignedFamily = false ↔ k = .unsigned := by
  cases k <;> decide

theorem Kind.inSignedFamily_iff {k : Kind} : k.inSignedFamily = true ↔ k ≠ .unsigned := by
  rw [← Bool.not_eq_false, ne_eq, Kind.inSignedFamily_eq_false_iff]

theorem Kind.unsigned_or_signed_of_alike {j k : Kind} (h : j.isUnsigned = k.isUnsigned) :
    j = .unsigned ∧ k = .unsigned ∨ j ≠ .unsigned ∧ k ≠ .unsigned := by
  revert h
  cases j <;> cases k <;> decide

namespace Interval

theorem mul_mem_uIcc {l u a : ℤ} (hl : l ≤ a) (hu : a ≤ u) (c : ℤ) :
    a * c ∈ Set.uIcc (l * c) (u * c) := by
  -- The sign of the factor held fixed says which way the other one runs.
  rcases le_total 0 c with hc | hc
  · exact Set.mem_uIcc_of_le (mul_le_mul_of_nonneg_right hl hc) (mul_le_mul_of_nonneg_right hu hc)
  · exact Set.mem_uIcc_of_ge (mul_le_mul_of_nonpos_right hu hc) (mul_le_mul_of_nonpos_right hl hc)

theorem runsBetween_mul (x y : Interval b) : RunsBetween (· * ·) x y where
  left := fun _ ha c _ => mul_mem_uIcc ha.1 ha.2 c
  right := by
    intro a _ c hc
    simp only [mul_comm a]
    exact mul_mem_uIcc hc.1 hc.2 a

variable {x y : Interval b}

theorem tightImage_mulSigned (hx : x.isEmpty = false) (hy : y.isEmpty = false) :
    TightImage .multiply (Set.image2 (· * ·) x.values y.values) (x.mulSigned y) :=
  (runsBetween_mul x y).tightImage_corners hx hy fun _ _ _ => rfl

theorem mul_bounds_le_of_left (hx : x.isEmpty = false) (hy : y.isEmpty = false)
    (hxl : 0 ≤ x.lower.val) :
    x.lower.val * y.lower.val ≤ x.lower.val * y.upper.val ∧
      x.upper.val * y.lower.val ≤ x.upper.val * y.upper.val := by
  have hxu := isEmpty_eq_false_iff.1 hx
  have hyu := isEmpty_eq_false_iff.1 hy
  exact ⟨mul_le_mul_of_nonneg_left hyu hxl, mul_le_mul_of_nonneg_left hyu (hxl.trans hxu)⟩

theorem mul_bounds_le_of_right (hx : x.isEmpty = false) (hy : y.isEmpty = false)
    (hyl : 0 ≤ y.lower.val) :
    x.lower.val * y.lower.val ≤ x.upper.val * y.lower.val ∧
      x.lower.val * y.upper.val ≤ x.upper.val * y.upper.val := by
  have h := mul_bounds_le_of_left hy hx hyl
  simpa only [mul_comm y.lower.val, mul_comm y.upper.val] using h

theorem mulUnsigned_eq_ok_iff {z : Interval b} :
    x.mulUnsigned y = .ok z ↔
      z.lower.val = x.lower.val * y.lower.val ∧ z.upper.val = x.upper.val * y.upper.val := by
  rw [mulUnsigned, bounds_eq_ok_iff, FixedInt.mul_eq_ok_iff, FixedInt.mul_eq_ok_iff]

theorem tightImage_mulUnsigned (hx : x.isEmpty = false) (hy : y.isEmpty = false)
    (hxl : 0 ≤ x.lower.val) (hyl : 0 ≤ y.lower.val) :
    TightImage .multiply (Set.image2 (· * ·) x.values y.values) (x.mulUnsigned y) := by
  apply TightImage.of_bounds
  · refine ⟨mem_image2 (lower_mem hx) (lower_mem hy), ?_⟩
    rintro _ ⟨a, ha, c, hc, rfl⟩
    exact mul_le_mul ha.1 hc.1 hyl (hxl.trans ha.1)
  · refine ⟨mem_image2 (upper_mem hx) (upper_mem hy), ?_⟩
    rintro _ ⟨a, ha, c, hc, rfl⟩
    have hxu := isEmpty_eq_false_iff.1 hx
    exact mul_le_mul ha.2 hc.2 (hyl.trans hc.1) (hxl.trans hxu)

theorem tightImage_mulUnsignedSigned (hx : x.isEmpty = false) (hy : y.isEmpty = false)
    (hxl : 0 ≤ x.lower.val) :
    TightImage .multiply (Set.image2 (· * ·) x.values y.values) (x.mulUnsignedSigned y) := by
  have left := mul_bounds_le_of_left hx hy hxl
  refine .fit_bind (mem_image2 (upper_mem hx) (lower_mem hy)) fun ul hul =>
    .fit_bind (mem_image2 (lower_mem hx) (lower_mem hy)) fun ll hll =>
    .fit_bind (mem_image2 (upper_mem hx) (upper_mem hy)) fun uu huu =>
    .fit_bind (mem_image2 (lower_mem hx) (upper_mem hy)) fun lu hlu =>
    .pure ((runsBetween_mul x y).spans hx hy ?_ ?_)
  · rw [FixedInt.val_min]
    omega
  · rw [FixedInt.val_max]
    omega

theorem tightImage_mulSignedUnsigned (hx : x.isEmpty = false) (hy : y.isEmpty = false)
    (hyl : 0 ≤ y.lower.val) :
    TightImage .multiply (Set.image2 (· * ·) x.values y.values) (x.mulSignedUnsigned y) := by
  have right := mul_bounds_le_of_right hx hy hyl
  refine .fit_bind (mem_image2 (lower_mem hx) (upper_mem hy)) fun lu hlu =>
    .fit_bind (mem_image2 (lower_mem hx) (lower_mem hy)) fun ll hll =>
    .fit_bind (mem_image2 (upper_mem hx) (upper_mem hy)) fun uu huu =>
    .fit_bind (mem_image2 (upper_mem hx) (lower_mem hy)) fun ul hul =>
    .pure ((runsBetween_mul x y).spans hx hy ?_ ?_)
  · rw [FixedInt.val_min]
    omega
  · rw [FixedInt.val_max]
    omega

theorem tightImage_mul {kx ky : Kind} (hx : x.isEmpty = false) (hy : y.isEmpty = false)
    (hkx : kx.Suits x) (hky : ky.Suits y) :
    TightImage .multiply (Set.image2 (· * ·) x.values y.values) (x.mul y kx ky) := by
  unfold mul
  split
  · rename_i hx' hy'
    exact tightImage_mulUnsigned hx hy (hkx (Kind.inSignedFamily_eq_false_iff.1 hx'))
      (hky (Kind.inSignedFamily_eq_false_iff.1 hy'))
  · rename_i hx' _
    exact tightImage_mulUnsignedSigned hx hy (hkx (Kind.inSignedFamily_eq_false_iff.1 hx'))
  · rename_i _ hy'
    exact tightImage_mulSignedUnsigned hx hy (hky (Kind.inSignedFamily_eq_false_iff.1 hy'))
  · exact tightImage_mulSigned hx hy

/-- Every tagging that suits the operands gives the least and greatest product, and the overflow
exactly when some product does not fit. -/
theorem mul_spans_products (x y : Interval b) (kx ky : Kind) (hx : x.isEmpty = false)
    (hy : y.isEmpty = false) (hkx : kx.Suits x) (hky : ky.Suits y) :
    (∀ f, x.mul y kx ky = .error f ↔
      f = .overflow .multiply ∧ ∃ a ∈ x, ∃ c ∈ y, ¬ b.intType.Fits (a * c)) ∧
    ((∀ a ∈ x, ∀ c ∈ y, b.intType.Fits (a * c)) →
      ∃ z, x.mul y kx ky = .ok z ∧ z.Spans {v | ∃ a ∈ x, ∃ c ∈ y, a * c = v}) ∧
    ∀ jx jy : Kind, jx.Suits x → jy.Suits y → x.mul y jx jy = x.mul y kx ky := by
  have h := tightImage_mul hx hy hkx hky
  refine ⟨?_, ?_, ?_⟩
  · intro f
    rw [h.eq_error_iff, Set.exists_mem_image2]
    rfl
  · intro hfit
    refine h.exists_of_fits ?_
    rintro _ ⟨a, ha, c, hc, rfl⟩
    exact hfit a ha c hc
  · intro jx jy hjx hjy
    exact (tightImage_mul hx hy hjx hjy).unique h

theorem mul_spans_products_mixed_signs :
    (∀ a ∈ (between (-3) 4 : Interval .int8), ∀ c ∈ (between 2 5 : Interval .int8),
      BoundType.int8.intType.Fits (a * c)) ∧
    (between (-15) 20 : Interval .int8).Spans
      {v | ∃ a ∈ (between (-3) 4 : Interval .int8), ∃ c ∈ (between 2 5 : Interval .int8),
        a * c = v} := by
  have hmul : (between (-3) 4 : Interval .int8).mul (between 2 5) .signed .unsigned =
      .ok (between (-15) 20) := rfl
  have spec := mul_spans_products (between (-3) 4 : Interval .int8) (between 2 5) .signed .unsigned
    (by decide) (by decide) (by decide) (by decide)
  have hfit : ∀ a ∈ (between (-3) 4 : Interval .int8), ∀ c ∈ (between 2 5 : Interval .int8),
      BoundType.int8.intType.Fits (a * c) := by
    intro a ha c hc
    by_contra h
    have herror := (spec.1 _).2 ⟨rfl, a, ha, c, hc, h⟩
    rw [hmul] at herror
    cases herror
  obtain ⟨z, hz, hspan⟩ := spec.2.1 hfit
  rw [hmul] at hz
  cases hz
  exact ⟨hfit, hspan⟩

end Interval

end Bitspan
