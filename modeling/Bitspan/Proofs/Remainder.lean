import Mathlib.Algebra.Order.Group.Abs
import Bitspan.Proofs.FaultConditions
import Bitspan.Proofs.Product

set_option autoImplicit false

/-!
# Bounded remainders

A remainder has at most the magnitude of the dividend and less than that of the divisor. The bound
from the divisor is found first, under every kind, so the negation of a least bound is the one way
in which `modulo` can overflow; past it neither the decrement nor the last negation can.
-/

namespace Bitspan.Interval

variable {b : BoundType} {x y : Interval b} {kx : Kind}

/-! ## Bounds that can be negated -/

theorem not_fits_neg_iff (v : Bound b) : ¬ b.intType.Fits (-v.val) ↔ v.val = b.intType.least := by
  have hv := v.fits
  have hb := b.least_eq
  unfold IntType.Fits at *
  omega

theorem fits_neg_of_le {p q : Bound b} (hq : b.intType.Fits (-q.val)) (h : q.val ≤ p.val) :
    b.intType.Fits (-p.val) := by
  have hp := p.fits
  have hb := b.least_eq
  unfold IntType.Fits at *
  omega

/-- Of a lower bound that can be negated no magnitude is too far from zero. -/
theorem fits_neg_magnitude (limit : Bound b) {a : Bound b} (ha : a.val = -x.lower.val) :
    b.intType.Fits (-(max (max x.upper a) limit).val) := by
  refine fits_neg_of_le (q := a) ?_ ?_
  · rw [ha, neg_neg]
    exact x.lower.fits
  · simp only [FixedInt.val_max]
    omega

/-! ## The bound from the divisor -/

/-- The greatest magnitude of a divisor, less one. -/
def remainderBound (y : Interval b) : ℤ := max y.upper.val (-y.lower.val) - 1

/-- Past the negation of the lower bound, the decrement cannot overflow. -/
theorem fits_remainderBound (h : b.intType.Fits (-y.lower.val)) :
    b.intType.Fits y.remainderBound := by
  have hl := y.lower.fits
  have hu := y.upper.fits
  have hb := b.least_eq
  unfold remainderBound
  unfold IntType.Fits at *
  omega

theorem remainderBound_le {v : Interval b} (hy : y.isEmpty = false) (hyv : y ⊆ v) :
    y.remainderBound ≤ v.remainderBound := by
  have h := (subset_iff hy).1 hyv
  unfold remainderBound
  omega

theorem remainderLimit_eq_ok_iff {l : Bound b} :
    y.remainderLimit = .ok l ↔ b.intType.Fits (-y.lower.val) ∧ l.val = y.remainderBound := by
  unfold remainderLimit remainderBound
  simp only [Checked.bind_eq_ok_iff, FixedInt.neg_eq_ok_iff, FixedInt.sub_eq_ok_iff,
    FixedInt.val_max, FixedInt.val_one]
  constructor
  · rintro ⟨p, hp, hl⟩
    rw [← hp]
    exact ⟨p.fits, hl⟩
  · rintro ⟨hfit, hl⟩
    exact ⟨⟨_, hfit⟩, rfl, hl⟩

theorem exists_remainderLimit (h : b.intType.Fits (-y.lower.val)) :
    ∃ l, y.remainderLimit = .ok l ∧ l.val = y.remainderBound :=
  ⟨⟨_, fits_remainderBound h⟩, remainderLimit_eq_ok_iff.2 ⟨h, rfl⟩, rfl⟩

/-! ## Results for each kind -/

theorem modulo_unsigned_eq_ok_iff {z : Interval b} :
    (x.modulo y .unsigned).outcome = .ok z ↔
      b.intType.Fits (-y.lower.val) ∧ z.lower.val = 0 ∧
        z.upper.val = max x.upper.val y.remainderBound := by
  unfold modulo
  simp only [Call.outcome_bind_eq_ok_iff, Call.outcome_checked_eq_ok_iff, remainderLimit_eq_ok_iff,
    Call.outcome_pure, Except.ok.injEq]
  constructor
  · rintro ⟨l, ⟨hfit, hl⟩, rfl⟩
    rw [← hl]
    exact ⟨hfit, rfl, FixedInt.val_max _ _⟩
  · rintro ⟨hfit, hzl, hzu⟩
    refine ⟨⟨_, fits_remainderBound hfit⟩, ⟨hfit, rfl⟩, ext hzl.symm ?_⟩
    rw [hzu, FixedInt.val_max]

theorem modulo_signed_eq_ok_iff {z : Interval b} :
    (x.modulo y .signed).outcome = .ok z ↔
      b.intType.Fits (-y.lower.val) ∧ b.intType.Fits (-x.lower.val) ∧
        z.lower.val = -z.upper.val ∧
        z.upper.val = max (max x.upper.val (-x.lower.val)) y.remainderBound := by
  unfold modulo
  simp only [Call.outcome_bind_eq_ok_iff, Call.outcome_checked_eq_ok_iff, remainderLimit_eq_ok_iff,
    FixedInt.neg_eq_ok_iff, Call.outcome_pure, Except.ok.injEq]
  constructor
  · rintro ⟨l, ⟨hfit, hl⟩, p, hp, m, hm, rfl⟩
    rw [← hl, ← hp]
    refine ⟨hfit, p.fits, hm, ?_⟩
    simp only [FixedInt.val_max]
  · rintro ⟨hfit, hxfit, hzl, hzu⟩
    refine ⟨⟨_, fits_remainderBound hfit⟩, ⟨hfit, rfl⟩, ⟨_, hxfit⟩, rfl, z.lower, ?_, ext rfl ?_⟩
    · rw [hzl, hzu]
      simp only [FixedInt.val_max]
    · rw [hzu]
      simp only [FixedInt.val_max]

theorem exists_modulo_unsigned (h : b.intType.Fits (-y.lower.val)) :
    ∃ z, (x.modulo y .unsigned).outcome = .ok z := by
  obtain ⟨l, -, hl⟩ := exists_remainderLimit h
  refine ⟨⟨0, max x.upper l⟩, modulo_unsigned_eq_ok_iff.2 ⟨h, rfl, ?_⟩⟩
  rw [FixedInt.val_max, hl]

theorem exists_modulo_signed (h : b.intType.Fits (-y.lower.val))
    (hx : b.intType.Fits (-x.lower.val)) : ∃ z, (x.modulo y .signed).outcome = .ok z := by
  obtain ⟨l, -, hl⟩ := exists_remainderLimit h
  have hneg := fits_neg_magnitude (x := x) l (a := ⟨_, hx⟩) rfl
  refine ⟨⟨⟨_, hneg⟩, max (max x.upper ⟨_, hx⟩) l⟩, modulo_signed_eq_ok_iff.2 ⟨h, hx, rfl, ?_⟩⟩
  simp only [FixedInt.val_max, hl]

theorem modulo_of_unsupported (h : b.intType.Fits (-y.lower.val))
    (hk : kx = .signedPositive ∨ kx = .signedNegative) :
    (x.modulo y kx).outcome = .error (.rejected (.unsupportedKinds .modulo [kx])) := by
  obtain ⟨l, hl, -⟩ := exists_remainderLimit h
  rw [modulo, hl]
  rcases hk with rfl | rfl
  · rfl
  · rfl

theorem modulo_reject {z : Interval b} (hu : kx ≠ .unsigned) (hs : kx ≠ .signed) :
    (x.modulo y kx).outcome ≠ .ok z := by
  unfold modulo
  rw [Ne, Call.outcome_bind_eq_ok_iff]
  rintro ⟨l, _, h⟩
  cases kx with
  | unsigned => exact hu rfl
  | signed => exact hs rfl
  | signedPositive | signedNegative => cases h

/-! ## Soundness -/

theorem abs_tmod_le {a c : ℤ} (hc : c ∈ y) (hc0 : c ≠ 0) :
    |a.tmod c| ≤ |a| ∧ |a.tmod c| ≤ y.remainderBound := by
  have hmod : (a.tmod c).natAbs = a.natAbs % c.natAbs := Int.natAbs_tmod a c
  have hle := Nat.mod_le a.natAbs c.natAbs
  have hlt := Nat.mod_lt a.natAbs (Int.natAbs_pos.2 hc0)
  have hyl := hc.1
  have hyu := hc.2
  unfold remainderBound
  simp only [Int.abs_eq_natAbs]
  omega

theorem modulo_encloses {z : Interval b} (hx : x.isEmpty = false) (hkx : kx.Suits x)
    (h : (x.modulo y kx).outcome = .ok z) :
    z.Encloses {r | ∃ a ∈ x, ∃ c ∈ y, c ≠ 0 ∧ a.tmod c = r} := by
  have hxu := isEmpty_eq_false_iff.1 hx
  cases kx with
  | unsigned =>
    obtain ⟨_, hl, hu⟩ := modulo_unsigned_eq_ok_iff.1 h
    have hxl := hkx rfl
    constructor
    · rw [isEmpty_eq_false_iff]
      omega
    · rintro _ ⟨a, ha, c, hc, hc0, rfl⟩
      have hself := (abs_tmod_le (a := a) hc hc0).1
      have hnonneg : 0 ≤ a.tmod c := Int.tmod_nonneg c (hxl.trans ha.1)
      rw [abs_of_nonneg hnonneg, abs_of_nonneg (hxl.trans ha.1)] at hself
      rw [mem_def, hl, hu]
      exact ⟨hnonneg, (hself.trans ha.2).trans (le_max_left _ _)⟩
  | signed =>
    obtain ⟨_, _, hl, hu⟩ := modulo_signed_eq_ok_iff.1 h
    constructor
    · rw [isEmpty_eq_false_iff]
      omega
    · rintro _ ⟨a, ha, c, hc, hc0, rfl⟩
      have hself := (abs_tmod_le (a := a) hc hc0).1
      have ha1 := ha.1
      have ha2 := ha.2
      have hmag : |a.tmod c| ≤ z.upper.val := by
        refine hself.trans (abs_le.2 ?_)
        omega
      rw [mem_def, hl]
      exact abs_le.1 hmag
  | signedPositive | signedNegative =>
    exact absurd h (modulo_reject (by decide) (by decide))

theorem modulo_mono {w v : Interval b} (hx : x.isEmpty = false) (hy : y.isEmpty = false)
    (hxw : x ⊆ w) (hyv : y ⊆ v) : Narrows (x.modulo y kx) (w.modulo v kx) := by
  intro z hz
  obtain ⟨hwl, hwu⟩ := (subset_iff hx).1 hxw
  have hvl := ((subset_iff hy).1 hyv).1
  have hbound := remainderBound_le hy hyv
  cases kx with
  | unsigned =>
    obtain ⟨hfit, hl, hu⟩ := modulo_unsigned_eq_ok_iff.1 hz
    obtain ⟨r, hr⟩ := exists_modulo_unsigned (x := x) (fits_neg_of_le hfit hvl)
    obtain ⟨-, hrl, hru⟩ := modulo_unsigned_eq_ok_iff.1 hr
    refine ⟨r, hr, fun a ha => ?_⟩
    rw [mem_def] at ha ⊢
    omega
  | signed =>
    obtain ⟨hfit, hwfit, hl, hu⟩ := modulo_signed_eq_ok_iff.1 hz
    obtain ⟨r, hr⟩ := exists_modulo_signed (fits_neg_of_le hfit hvl) (fits_neg_of_le hwfit hwl)
    obtain ⟨-, -, hrl, hru⟩ := modulo_signed_eq_ok_iff.1 hr
    refine ⟨r, hr, fun a ha => ?_⟩
    rw [mem_def] at ha ⊢
    omega
  | signedPositive | signedNegative =>
    exact absurd hz (modulo_reject (by decide) (by decide))

/-! ## Overflow -/

/-- The negation of a lower bound: of the divisor under every kind, of the dividend with a sign. -/
def RemainderOverflows (x y : Interval b) (kx : Kind) : Prop :=
  y.lower.val = b.intType.least ∨ kx = .signed ∧ x.lower.val = b.intType.least

theorem faultsBy_remainderLimit (y : Interval b) :
    (Call.checked y.remainderLimit).FaultsBy .negate (y.lower.val = b.intType.least) := by
  rw [← not_fits_neg_iff]
  simp only [remainderLimit, Call.checked_bind]
  refine Call.FaultsBy.congr (.fit_bind fun a ha => ?_) (or_iff_left not_false)
  refine (Call.faultless_fit .subtract ?_).faultsBy not_false
  rw [FixedInt.val_max, FixedInt.val_one, ha]
  exact fits_remainderBound (ha ▸ a.fits)

theorem faultsBy_modulo (x y : Interval b) (kx : Kind) :
    (x.modulo y kx).FaultsBy .negate (x.RemainderOverflows y kx) := by
  refine (faultsBy_remainderLimit y).bind fun limit _ => ?_
  cases kx with
  | unsigned => exact (Call.faultless_pure _).faultsBy nofun
  | signed =>
    rw [← not_fits_neg_iff]
    refine Call.FaultsBy.congr (.fit_bind fun a ha => ?_)
      ((or_iff_left not_false).trans (and_iff_right rfl).symm)
    have hfit := fits_neg_magnitude limit ha
    refine Call.FaultsBy.congr (.fit_bind fun _ _ => (Call.faultless_pure _).faultsBy not_false) ?_
    rw [or_false, iff_false, not_not]
    exact hfit
  | signedPositive | signedNegative => exact (Call.faultless_reject _ _).faultsBy nofun

/-! ## Main result -/

theorem not_remainderOverflows_iff :
    ¬ x.RemainderOverflows y kx ↔
      b.intType.Fits (-y.lower.val) ∧ (kx = .signed → b.intType.Fits (-x.lower.val)) := by
  simp only [RemainderOverflows, not_or, not_and, ← not_fits_neg_iff, not_not]

theorem modulo_rejected_iff (h : ¬ x.RemainderOverflows y kx) (r : Rejection) :
    (x.modulo y kx).outcome = .error (.rejected r) ↔
      r = .unsupportedKinds .modulo [kx] ∧ (kx = .signedPositive ∨ kx = .signedNegative) := by
  obtain ⟨hfit, hxfit⟩ := not_remainderOverflows_iff.1 h
  cases kx with
  | unsigned =>
    obtain ⟨z, hz⟩ := exists_modulo_unsigned (x := x) hfit
    simp [hz]
  | signed =>
    obtain ⟨z, hz⟩ := exists_modulo_signed hfit (hxfit rfl)
    simp [hz]
  | signedPositive =>
    rw [modulo_of_unsupported hfit (.inl rfl)]
    simp [eq_comm]
  | signedNegative =>
    rw [modulo_of_unsupported hfit (.inr rfl)]
    simp [eq_comm]

theorem exists_modulo (hk : kx = .unsigned ∨ kx = .signed) (hx : x.isEmpty = false)
    (hkx : kx.Suits x) (h : ¬ x.RemainderOverflows y kx) :
    ∃ z, (x.modulo y kx).outcome = .ok z ∧
      z.lower.val = (if kx = .unsigned then 0 else -z.upper.val) ∧
      z.upper.val = max (max x.upper.val (-x.lower.val)) y.remainderBound := by
  obtain ⟨hfit, hxfit⟩ := not_remainderOverflows_iff.1 h
  rcases hk with rfl | rfl
  · obtain ⟨z, hz⟩ := exists_modulo_unsigned (x := x) hfit
    obtain ⟨-, hl, hu⟩ := modulo_unsigned_eq_ok_iff.1 hz
    -- Without a sign the lower bound is not negated, and its magnitude is not the greatest.
    have hmag : max x.upper.val (-x.lower.val) = x.upper.val := by
      have hxl := hkx rfl
      have hxu := isEmpty_eq_false_iff.1 hx
      omega
    rw [hmag]
    exact ⟨z, hz, hl, hu⟩
  · obtain ⟨z, hz⟩ := exists_modulo_signed hfit (hxfit rfl)
    obtain ⟨-, -, hl, hu⟩ := modulo_signed_eq_ok_iff.1 hz
    exact ⟨z, hz, hl, hu⟩

/-- Two negations alone can overflow. Past them the two other kinds are rejected, and the result
holds every remainder of a value of `x` by a value of `y` other than zero. -/
theorem modulo_bounds_remainders (x y : Interval b) (kx : Kind) :
    (∀ f, (x.modulo y kx).outcome = .error (.fault f) ↔
      f = .overflow .negate ∧
        (y.lower.val = b.intType.least ∨ kx = .signed ∧ x.lower.val = b.intType.least)) ∧
    (∀ r, y.lower.neg = .ok r → ∃ l, (max y.upper r).sub 1 = .ok l) ∧
    (∀ r l, x.lower.neg = .ok r → ∃ n, (max (max x.upper r) l).neg = .ok n) ∧
    ((x.modulo y kx).Faultless →
      (∀ r, (x.modulo y kx).outcome = .error (.rejected r) ↔
        r = .unsupportedKinds .modulo [kx] ∧ (kx = .signedPositive ∨ kx = .signedNegative)) ∧
      (kx = .unsigned ∨ kx = .signed → x.isEmpty = false → kx.Suits x →
        ∃ z, (x.modulo y kx).outcome = .ok z ∧
          (∀ a ∈ x, ∀ c ∈ y, c ≠ 0 → a.tmod c ∈ z) ∧
          0 ≤ z.upper.val ∧
          z.lower.val = (if kx = .unsigned then 0 else -z.upper.val) ∧
          z.upper.val = max (max x.upper.val (-x.lower.val)) y.remainderBound)) := by
  refine ⟨faultsBy_modulo x y kx, ?_, ?_, ?_⟩
  · intro r hr
    rw [FixedInt.neg_eq_ok_iff] at hr
    have hfit := fits_remainderBound (y := y) (hr ▸ r.fits)
    refine ⟨⟨_, hfit⟩, FixedInt.sub_eq_ok_iff.2 ?_⟩
    rw [FixedInt.val_max, FixedInt.val_one, hr]
    rfl
  · intro r l hr
    rw [FixedInt.neg_eq_ok_iff] at hr
    exact ⟨⟨_, fits_neg_magnitude l hr⟩, FixedInt.neg_eq_ok_iff.2 rfl⟩
  · intro hsafe
    have hover : ¬ x.RemainderOverflows y kx := fun h =>
      hsafe _ ((faultsBy_modulo x y kx _).2 ⟨rfl, h⟩)
    refine ⟨modulo_rejected_iff hover, fun hk hx hkx => ?_⟩
    obtain ⟨z, hz, hl, hu⟩ := exists_modulo hk hx hkx hover
    have henc := modulo_encloses hx hkx hz
    refine ⟨z, hz, fun a ha c hc hc0 => henc.mem _ ⟨a, ha, c, hc, hc0, rfl⟩, ?_, hl, hu⟩
    have hxu := isEmpty_eq_false_iff.1 hx
    omega

theorem modulo_bounds_remainders_mixed_signs :
    ((between 0 5 : Interval .int8).modulo (between (-128) 3) .signedPositive).outcome =
      .error (.fault (.overflow .negate)) ∧
    ((between 0 5 : Interval .int8).modulo (between 7 (-4)) .signedPositive).outcome =
      .error (.rejected (.unsupportedKinds .modulo [.signedPositive])) ∧
    (-9 : ℤ).tmod (-5) ∈ (between (-20) 20 : Interval .int8) := by
  obtain ⟨faults, -⟩ :=
    modulo_bounds_remainders (between 0 5 : Interval .int8) (between (-128) 3) .signedPositive
  obtain ⟨-, -, -, rejects⟩ :=
    modulo_bounds_remainders (between 0 5 : Interval .int8) (between 7 (-4)) .signedPositive
  obtain ⟨-, -, -, results⟩ :=
    modulo_bounds_remainders (between (-20) 13 : Interval .int8) (between (-6) 4) .signed
  have hmodulo : ((between (-20) 13 : Interval .int8).modulo (between (-6) 4) .signed).outcome =
      .ok (between (-20) 20) := rfl
  obtain ⟨z, hz, hmem, -⟩ :=
    (results (Call.faultless_of_ok hmodulo)).2 (.inr rfl) rfl (by decide)
  rw [hmodulo] at hz
  cases hz
  exact ⟨(faults _).2 ⟨rfl, .inl rfl⟩,
    ((rejects (Call.faultless_of_rejected rfl)).1 _).2 ⟨rfl, .inl rfl⟩,
    hmem _ (by decide) _ (by decide) (by decide)⟩

end Bitspan.Interval
