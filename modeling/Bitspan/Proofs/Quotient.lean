import Mathlib.Algebra.Order.Group.Abs
import Bitspan.Proofs.Product

set_option autoImplicit false

/-!
# Exact quotients

The truncated quotient by a divisor held fixed runs one way, and as a function of the divisor it
runs one way on each side of zero. A divisor that passes the guards of `div` lies on one side, so
the four-corner rule gives the tight image, and the one quotient that can fail to fit is the
negation of the least value.
-/

namespace Bitspan

variable {b : BoundType}

theorem tdiv_le_tdiv_of_le {a m c : ℤ} (ha : 0 ≤ a) (hm : 0 < m) (h : m ≤ c) :
    a.tdiv c ≤ a.tdiv m := by
  have hq : 0 ≤ a.tdiv c := Int.tdiv_nonneg ha (hm.le.trans h)
  apply Int.le_tdiv_of_mul_le hm
  calc
    a.tdiv c * m ≤ a.tdiv c * c := mul_le_mul_of_nonneg_left h hq
    _ = c * a.tdiv c := mul_comm _ _
    _ ≤ a := Int.mul_tdiv_self_le ha

theorem tdiv_mem_uIcc_left {l u a c : ℤ} (hl : l ≤ a) (hu : a ≤ u) (hc : c ≠ 0) :
    a.tdiv c ∈ Set.uIcc (l.tdiv c) (u.tdiv c) := by
  rcases lt_or_gt_of_ne hc with hn | hp
  · have low := Int.tdiv_le_tdiv (neg_pos.2 hn) hl
    have high := Int.tdiv_le_tdiv (neg_pos.2 hn) hu
    rw [Int.tdiv_neg, Int.tdiv_neg, neg_le_neg_iff] at low high
    exact Set.mem_uIcc_of_ge high low
  · exact Set.mem_uIcc_of_le (Int.tdiv_le_tdiv hp hl) (Int.tdiv_le_tdiv hp hu)

theorem tdiv_mem_uIcc_of_pos {m n a c : ℤ} (hm : 0 < m) (hl : m ≤ c) (hu : c ≤ n) :
    a.tdiv c ∈ Set.uIcc (a.tdiv m) (a.tdiv n) := by
  have hc : 0 < c := hm.trans_le hl
  rcases le_total 0 a with ha | ha
  · exact Set.mem_uIcc_of_ge (tdiv_le_tdiv_of_le ha hc hu) (tdiv_le_tdiv_of_le ha hm hl)
  · have low := tdiv_le_tdiv_of_le (neg_nonneg.2 ha) hm hl
    have high := tdiv_le_tdiv_of_le (neg_nonneg.2 ha) hc hu
    rw [Int.neg_tdiv, Int.neg_tdiv, neg_le_neg_iff] at low high
    exact Set.mem_uIcc_of_le low high

theorem tdiv_mem_uIcc_right {m n a c : ℤ} (hside : 0 < m ∨ n < 0) (hl : m ≤ c) (hu : c ≤ n) :
    a.tdiv c ∈ Set.uIcc (a.tdiv m) (a.tdiv n) := by
  rcases hside with hm | hn
  · exact tdiv_mem_uIcc_of_pos hm hl hu
  · have h := tdiv_mem_uIcc_of_pos (a := a) (neg_pos.2 hn) (neg_le_neg hu) (neg_le_neg hl)
    rw [Int.tdiv_neg, Int.tdiv_neg, Int.tdiv_neg, Set.mem_uIcc] at h
    rw [Set.mem_uIcc]
    omega

/-- Only the negation of the least value is a quotient that does not fit. -/
theorem not_fits_tdiv_iff {a c : ℤ} (ha : b.intType.Fits a) (hc : c ≠ 0) :
    ¬ b.intType.Fits (a.tdiv c) ↔ a = b.intType.least ∧ c = -1 := by
  have hl := b.least_eq
  have hg := b.intType.one_le_greatest
  have hq : (a.tdiv c).natAbs = a.natAbs / c.natAbs := Int.natAbs_tdiv a c
  unfold IntType.Fits at *
  constructor
  · intro h
    by_cases hone : c.natAbs = 1
    · rcases Int.natAbs_eq_iff.1 hone with rfl | rfl
      · rw [Int.natCast_one, Int.tdiv_one] at h
        exact absurd ha h
      · rw [Int.natCast_one, Int.tdiv_neg, Int.tdiv_one] at h
        omega
    · have hhalf : a.natAbs / c.natAbs ≤ a.natAbs / 2 := Nat.div_le_div_left (by omega) (by omega)
      omega
  · rintro ⟨rfl, rfl⟩
    rw [Int.tdiv_neg, Int.tdiv_one]
    omega

namespace Interval

theorem side_of_not_mem {y : Interval b} (hy : y.isEmpty = false) (h0 : (0 : ℤ) ∉ y) :
    0 < y.lower.val ∨ y.upper.val < 0 := by
  have hyu := isEmpty_eq_false_iff.1 hy
  rw [mem_def] at h0
  omega

theorem runsBetween_tdiv (x : Interval b) {y : Interval b} (hy : y.isEmpty = false)
    (h0 : (0 : ℤ) ∉ y) : RunsBetween Int.tdiv x y where
  left := by
    intro a ha c hc
    exact tdiv_mem_uIcc_left ha.1 ha.2 fun h => h0 (h ▸ hc)
  right := by
    intro a _ c hc
    exact tdiv_mem_uIcc_right (side_of_not_mem hy h0) hc.1 hc.2

variable {x y : Interval b}

theorem tightImage_divSigned (hx : x.isEmpty = false) (hy : y.isEmpty = false)
    (h0 : (0 : ℤ) ∉ y) :
    TightImage .divide (Set.image2 Int.tdiv x.values y.values) (x.divSigned y) :=
  (runsBetween_tdiv x hy h0).tightImage_corners hx hy fun _ _ hq =>
    FixedInt.quot_of_ne_zero fun h => h0 (h ▸ hq)

theorem tightImage_divUnsigned (hx : x.isEmpty = false) (hy : y.isEmpty = false)
    (hxl : 0 ≤ x.lower.val) (hyl : 0 < y.lower.val) :
    TightImage .divide (Set.image2 Int.tdiv x.values y.values) (x.divUnsigned y) := by
  have hxu := isEmpty_eq_false_iff.1 hx
  have hyu := isEmpty_eq_false_iff.1 hy
  unfold divUnsigned
  rw [FixedInt.quot_of_ne_zero (by omega), FixedInt.quot_of_ne_zero (by omega)]
  apply TightImage.of_bounds
  · refine ⟨mem_image2 (lower_mem hx) (upper_mem hy), ?_⟩
    rintro _ ⟨a, ha, c, hc, rfl⟩
    have hc0 : 0 < c := hyl.trans_le hc.1
    exact (tdiv_le_tdiv_of_le hxl hc0 hc.2).trans (Int.tdiv_le_tdiv hc0 ha.1)
  · refine ⟨mem_image2 (upper_mem hx) (lower_mem hy), ?_⟩
    rintro _ ⟨a, ha, c, hc, rfl⟩
    exact (tdiv_le_tdiv_of_le (hxl.trans ha.1) hyl hc.1).trans (Int.tdiv_le_tdiv hyl ha.2)

theorem exists_of_corners_eq_error {op : Bound b → Bound b → Checked (Bound b)} {f : Fault}
    (h : Corners.of op x y = .error f) :
    ∃ p q, (q = y.lower ∨ q = y.upper) ∧ op p q = .error f := by
  unfold Corners.of at h
  rcases Checked.bind_eq_error_iff.1 h with h | ⟨_, _, h⟩
  · exact ⟨_, _, .inl rfl, h⟩
  rcases Checked.bind_eq_error_iff.1 h with h | ⟨_, _, h⟩
  · exact ⟨_, _, .inr rfl, h⟩
  rcases Checked.bind_eq_error_iff.1 h with h | ⟨_, _, h⟩
  · exact ⟨_, _, .inl rfl, h⟩
  rcases Checked.bind_eq_error_iff.1 h with h | ⟨_, _, h⟩
  · exact ⟨_, _, .inr rfl, h⟩
  · cases h

theorem quot_ne_zeroDivisor {p q : Bound b} (hq : q.val ≠ 0) :
    p.quot q ≠ .error .zeroDivisor := by
  intro h
  rw [FixedInt.quot_of_ne_zero hq, FixedInt.fit_eq_error_iff] at h
  cases h.1

theorem divUnsigned_ne_zeroDivisor (hl : y.lower.val ≠ 0) (hu : y.upper.val ≠ 0) :
    x.divUnsigned y ≠ .error .zeroDivisor := by
  intro h
  rcases Checked.bind_eq_error_iff.1 h with h | ⟨_, _, h⟩
  · exact quot_ne_zeroDivisor hu h
  rcases Checked.bind_eq_error_iff.1 h with h | ⟨_, _, h⟩
  · exact quot_ne_zeroDivisor hl h
  · cases h

theorem divSigned_ne_zeroDivisor (hl : y.lower.val ≠ 0) (hu : y.upper.val ≠ 0) :
    x.divSigned y ≠ .error .zeroDivisor := by
  intro h
  rcases Checked.bind_eq_error_iff.1 h with h | ⟨_, _, h⟩
  · obtain ⟨p, q, rfl | rfl, hq⟩ := exists_of_corners_eq_error h
    · exact quot_ne_zeroDivisor hl hq
    · exact quot_ne_zeroDivisor hu hq
  · cases h

variable {kx ky : Kind}

theorem div_of_empty (hy : y.isEmpty = true) :
    (x.div y kx ky).outcome = .error (.rejected (.emptyOperand .div)) := by
  rw [div, if_pos hy]
  rfl

theorem div_of_zero_mem (h0 : (0 : ℤ) ∈ y) :
    (x.div y kx ky).outcome = .error (.rejected .divisorContainsZero) := by
  have hy := isEmpty_eq_false_of_mem h0
  rw [div, if_neg (by simp [hy]), if_pos (contains_iff.2 h0)]
  rfl

theorem div_of_unsigned (hy : y.isEmpty = false) (h0 : (0 : ℤ) ∉ y) :
    x.div y .unsigned .unsigned = .checked (x.divUnsigned y) := by
  rw [div, if_neg (by simp [hy]), if_neg (mt contains_iff.1 h0)]
  rfl

theorem div_of_signed (hy : y.isEmpty = false) (h0 : (0 : ℤ) ∉ y) (hkx : kx ≠ .unsigned)
    (hky : ky ≠ .unsigned) : x.div y kx ky = .checked (x.divSigned y) := by
  rw [div, if_neg (by simp [hy]), if_neg (mt contains_iff.1 h0),
    Kind.inSignedFamily_iff.2 hkx, Kind.inSignedFamily_iff.2 hky]

theorem div_of_mixed (hy : y.isEmpty = false) (h0 : (0 : ℤ) ∉ y)
    (hk : kx.isUnsigned ≠ ky.isUnsigned) : x.div y kx ky = rejectKinds .div [kx, ky] := by
  rw [div, if_neg (by simp [hy]), if_neg (mt contains_iff.1 h0), Kind.inSignedFamily,
    Kind.inSignedFamily]
  cases hp : kx.isUnsigned <;> cases hq : ky.isUnsigned
  · exact absurd (hp.trans hq.symm) hk
  · rfl
  · rfl
  · exact absurd (hp.trans hq.symm) hk

theorem guards_of_div_eq_ok {z : Interval b} (h : (x.div y kx ky).outcome = .ok z) :
    y.isEmpty = false ∧ (0 : ℤ) ∉ y ∧ kx.isUnsigned = ky.isUnsigned := by
  by_cases hy : y.isEmpty = true
  · rw [div_of_empty hy] at h
    cases h
  rw [Bool.not_eq_true] at hy
  by_cases h0 : (0 : ℤ) ∈ y
  · rw [div_of_zero_mem h0] at h
    cases h
  by_cases hk : kx.isUnsigned = ky.isUnsigned
  · exact ⟨hy, h0, hk⟩
  · rw [div_of_mixed hy h0 hk] at h
    cases h

theorem exists_tightImage_div (hx : x.isEmpty = false) (hy : y.isEmpty = false)
    (h0 : (0 : ℤ) ∉ y) (hk : kx.isUnsigned = ky.isUnsigned) (hkx : kx.Suits x)
    (hky : ky.Suits y) :
    ∃ r, x.div y kx ky = .checked r ∧
      TightImage .divide (Set.image2 Int.tdiv x.values y.values) r := by
  rcases Kind.unsigned_or_signed_of_alike hk with ⟨rfl, rfl⟩ | ⟨hu, hv⟩
  · have hyl : 0 < y.lower.val :=
      lt_of_le_of_ne (hky rfl) fun h => h0 (h ▸ lower_mem hy)
    exact ⟨_, div_of_unsigned hy h0, tightImage_divUnsigned hx hy (hkx rfl) hyl⟩
  · exact ⟨_, div_of_signed hy h0 hu hv, tightImage_divSigned hx hy h0⟩

theorem div_ne_zeroDivisor (hy : y.isEmpty = false) (h0 : (0 : ℤ) ∉ y) :
    y.lower.val ≠ 0 ∧ y.upper.val ≠ 0 ∧
      (x.div y kx ky).outcome ≠ .error (.fault .zeroDivisor) := by
  have hl : y.lower.val ≠ 0 := fun h => h0 (h ▸ lower_mem hy)
  have hu : y.upper.val ≠ 0 := fun h => h0 (h ▸ upper_mem hy)
  refine ⟨hl, hu, ?_⟩
  intro h
  by_cases hk : kx.isUnsigned = ky.isUnsigned
  · rcases Kind.unsigned_or_signed_of_alike hk with ⟨rfl, rfl⟩ | ⟨hkx, hky⟩
    · rw [div_of_unsigned hy h0, Call.outcome_checked_eq_error_iff] at h
      obtain ⟨f, hf, he⟩ := h
      cases hf
      exact divUnsigned_ne_zeroDivisor hl hu he
    · rw [div_of_signed hy h0 hkx hky, Call.outcome_checked_eq_error_iff] at h
      obtain ⟨f, hf, he⟩ := h
      cases hf
      exact divSigned_ne_zeroDivisor hl hu he
  · rw [div_of_mixed hy h0 hk] at h
    cases h

theorem div_encloses {z : Interval b} (hx : x.isEmpty = false) (hkx : kx.Suits x) (hky : ky.Suits y)
    (h : (x.div y kx ky).outcome = .ok z) :
    z.Encloses (Set.image2 Int.tdiv x.values y.values) := by
  obtain ⟨hy, h0, hk⟩ := guards_of_div_eq_ok h
  obtain ⟨r, hr, himage⟩ := exists_tightImage_div hx hy h0 hk hkx hky
  rw [hr] at h
  exact himage.encloses (Call.outcome_checked_eq_ok_iff.1 h)

theorem div_mono {w v : Interval b} (hx : x.isEmpty = false) (hy : y.isEmpty = false)
    (hxw : x ⊆ w) (hyv : y ⊆ v) (hkx : kx.Suits w) (hky : ky.Suits v) :
    Narrows (x.div y kx ky) (w.div v kx ky) := by
  intro z hz
  obtain ⟨hv, h0, hk⟩ := guards_of_div_eq_ok hz
  have hw := isEmpty_eq_false_of_subset hx hxw
  obtain ⟨r, hr, himage⟩ := exists_tightImage_div hx hy (mt (hyv 0) h0) hk (hkx.mono hx hxw)
    (hky.mono hy hyv)
  obtain ⟨q, hq, hwide⟩ := exists_tightImage_div hw hv h0 hk hkx hky
  rw [hq] at hz
  rw [hr]
  exact himage.narrows hwide (Set.image2_subset hxw hyv) z hz

theorem exists_quotient_not_fits_iff (h0 : (0 : ℤ) ∉ y) :
    (∃ v ∈ Set.image2 Int.tdiv x.values y.values, ¬ b.intType.Fits v) ↔
      b.intType.least ∈ x ∧ (-1 : ℤ) ∈ y := by
  constructor
  · rintro ⟨_, ⟨a, ha, c, hc, rfl⟩, hfit⟩
    have hc0 : c ≠ 0 := fun h => h0 (h ▸ hc)
    obtain ⟨rfl, rfl⟩ := (not_fits_tdiv_iff (fits_of_mem ha) hc0).1 hfit
    exact ⟨ha, hc⟩
  · rintro ⟨ha, hc⟩
    exact ⟨_, mem_image2 ha hc, (not_fits_tdiv_iff (fits_of_mem ha) (by decide)).2 ⟨rfl, rfl⟩⟩

/-- The guards come in the order empty divisor, zero in the divisor, kinds; past them no bound is
divided by zero, only the least value over minus one overflows, and the quotients span the result. -/
theorem div_guards_then_spans_quotients (x y : Interval b) (kx ky : Kind) :
    (y.isEmpty = true → (x.div y kx ky).outcome = .error (.rejected (.emptyOperand .div))) ∧
    (y.isEmpty = false → (0 : ℤ) ∈ y →
      (x.div y kx ky).outcome = .error (.rejected .divisorContainsZero)) ∧
    (y.isEmpty = false → (0 : ℤ) ∉ y → kx.isUnsigned ≠ ky.isUnsigned →
      (x.div y kx ky).outcome = .error (.rejected (.unsupportedKinds .div [kx, ky]))) ∧
    (y.isEmpty = false → (0 : ℤ) ∉ y → y.lower.val ≠ 0 ∧ y.upper.val ≠ 0 ∧
      (x.div y kx ky).outcome ≠ .error (.fault .zeroDivisor)) ∧
    (y.isEmpty = false → (0 : ℤ) ∉ y → kx.isUnsigned = ky.isUnsigned → x.isEmpty = false →
      kx.Suits x → ky.Suits y →
      (∀ e, (x.div y kx ky).outcome = .error e ↔
        e = .fault (.overflow .divide) ∧ b.intType.least ∈ x ∧ (-1 : ℤ) ∈ y) ∧
      (¬ (b.intType.least ∈ x ∧ (-1 : ℤ) ∈ y) →
        ∃ z, (x.div y kx ky).outcome = .ok z ∧
          z.Spans {v | ∃ a ∈ x, ∃ c ∈ y, a.tdiv c = v})) := by
  refine ⟨div_of_empty, fun _ h0 => div_of_zero_mem h0, ?_, div_ne_zeroDivisor, ?_⟩
  · intro hy h0 hk
    rw [div_of_mixed hy h0 hk]
    rfl
  · intro hy h0 hk hx hkx hky
    obtain ⟨r, hr, himage⟩ := exists_tightImage_div hx hy h0 hk hkx hky
    rw [hr]
    constructor
    · intro e
      rw [himage.outcome_eq_error_iff, exists_quotient_not_fits_iff h0]
    · intro hsafe
      rw [← exists_quotient_not_fits_iff h0] at hsafe
      obtain ⟨z, hz, hspan⟩ := himage.exists_of_fits fun v hv =>
        by_contra fun hfit => hsafe ⟨v, hv, hfit⟩
      exact ⟨z, Call.outcome_checked_eq_ok_iff.2 hz, hspan⟩

theorem div_guards_then_spans_quotients_negative_divisor :
    ((between (-128) 5 : Interval .int8).div (between (-3) (-1)) .signed .signed).outcome =
      .error (.fault (.overflow .divide)) ∧
    (between (-17) 20 : Interval .int8).Spans
      {v | ∃ a ∈ (between (-40) 35 : Interval .int8), ∃ c ∈ (between (-5) (-2) : Interval .int8),
        a.tdiv c = v} := by
  obtain ⟨_, _, _, _, overflows⟩ := div_guards_then_spans_quotients
    (between (-128) 5 : Interval .int8) (between (-3) (-1)) .signed .signed
  obtain ⟨_, _, _, _, spans⟩ := div_guards_then_spans_quotients
    (between (-40) 35 : Interval .int8) (between (-5) (-2)) .signed .signed
  obtain ⟨herror, _⟩ := overflows rfl (by decide) rfl rfl (by decide) (by decide)
  obtain ⟨_, hspans⟩ := spans rfl (by decide) rfl rfl (by decide) (by decide)
  obtain ⟨z, hz, hspan⟩ := hspans (by decide)
  have hdiv : ((between (-40) 35 : Interval .int8).div (between (-5) (-2)) .signed .signed).outcome =
      .ok (between (-17) 20) := rfl
  rw [hdiv] at hz
  cases hz
  exact ⟨(herror _).2 ⟨rfl, by decide, by decide⟩, hspan⟩

end Interval

end Bitspan
