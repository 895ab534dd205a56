import Bitspan.Proofs.Product
import Bitspan.Proofs.Sums

set_option autoImplicit false

/-!
# The algebra of products

A product of products takes its extreme values at products of members, so both ways to multiply
three operands give the tight image of one set. The same holds for a negated factor. A factor that
is a sum is used once where the sum of the products uses the other factor twice, which is why the
distributive law is an inclusion, and an equation for a factor with one member.
-/

namespace Bitspan

variable {b : BoundType}

theorem FixedInt.mul_comm {t : IntType} (x y : FixedInt t) : x.mul y = y.mul x :=
  congrArg (fit .multiply) (Int.mul_comm x.val y.val)

/-- Two steps of one sort may be taken in either order, since they fail alike. -/
theorem FixedInt.fit_bind_comm {t : IntType} {α : Type} (step : ArithmeticStep) (u v : ℤ)
    (f : FixedInt t → FixedInt t → Checked α) :
    (do let p ← fit step u; let q ← fit step v; f p q) =
      (do let q ← fit step v; let p ← fit step u; f p q) := by
  unfold fit
  split <;> split <;> rfl

theorem Corners.span_transpose (ll lu ul uu : Bound b) :
    (⟨ll, ul, lu, uu⟩ : Corners b).span = (⟨ll, lu, ul, uu⟩ : Corners b).span := by
  apply Interval.ext
  · simp only [span, least, FixedInt.val_min]
    omega
  · simp only [span, greatest, FixedInt.val_max]
    omega

namespace Interval

variable {x y z p q m s w : Interval b} {t : Set ℤ}

/-! ## Commutativity -/

theorem mulUnsigned_comm (x y : Interval b) : x.mulUnsigned y = y.mulUnsigned x := by
  rw [mulUnsigned, mulUnsigned, FixedInt.mul_comm x.lower, FixedInt.mul_comm x.upper]

theorem mulUnsignedSigned_comm (x y : Interval b) :
    x.mulUnsignedSigned y = y.mulSignedUnsigned x := by
  rw [mulUnsignedSigned, mulSignedUnsigned, FixedInt.mul_comm x.upper, FixedInt.mul_comm x.lower,
    FixedInt.mul_comm x.upper, FixedInt.mul_comm x.lower]

theorem mulSigned_comm (x y : Interval b) : x.mulSigned y = y.mulSigned x := by
  simp only [mulSigned, Corners.of, bind_assoc, pure_bind, FixedInt.mul_comm y.lower,
    FixedInt.mul_comm y.upper]
  congr 1
  funext ll
  refine (FixedInt.fit_bind_comm .multiply _ _ _).trans ?_
  simp only [Corners.span_transpose]
  rfl

protected theorem mul_comm (x y : Interval b) (kx ky : Kind) : x.mul y kx ky = y.mul x ky kx := by
  unfold mul
  generalize kx.inSignedFamily = i
  generalize ky.inSignedFamily = j
  cases i <;> cases j
  · exact mulUnsigned_comm x y
  · exact mulUnsignedSigned_comm x y
  · exact (mulUnsignedSigned_comm y x).symm
  · exact mulSigned_comm x y

/-! ## Products of products -/

theorem mul_of_signed {kx ky : Kind} (hkx : kx ≠ .unsigned) (hky : ky ≠ .unsigned) :
    x.mul y kx ky = x.mulSigned y := by
  rw [mul, Kind.inSignedFamily_iff.2 hkx, Kind.inSignedFamily_iff.2 hky]

theorem tightImage_mulSigned_left (hx : x.Spans t) (hy : y.isEmpty = false) :
    TightImage .multiply (Set.image2 (· * ·) t y.values) (x.mulSigned y) :=
  (tightImage_mulSigned hx.isEmpty_eq_false hy).of_frames ((runsBetween_mul x y).frames_left hx)

theorem tightImage_mulSigned_right (hx : x.isEmpty = false) (hy : y.Spans t) :
    TightImage .multiply (Set.image2 (· * ·) x.values t) (x.mulSigned y) :=
  (tightImage_mulSigned hx hy.isEmpty_eq_false).of_frames ((runsBetween_mul x y).frames_right hy)

/-- Where both inner products fit, the outer ones are the same, and overflow alike. -/
theorem mulSigned_assoc (hx : x.isEmpty = false) (hy : y.isEmpty = false) (hz : z.isEmpty = false)
    (hp : x.mulSigned y = .ok p) (hq : y.mulSigned z = .ok q) : p.mulSigned z = x.mulSigned q := by
  have left := tightImage_mulSigned_left ((tightImage_mulSigned hx hy).spans hp) hz
  have right := tightImage_mulSigned_right hx ((tightImage_mulSigned hy hz).spans hq)
  rw [Set.image2_assoc fun a c d => Int.mul_assoc a c d] at left
  exact left.unique right

theorem frames_neg (hp : p.Spans t) : Frames ((fun a => -a) '' t) ((fun a => -a) '' p.values) where
  subset := Set.image_mono fun _ => hp.mem
  below := by
    rintro _ ⟨v, hv, rfl⟩
    exact ⟨_, Set.mem_image_of_mem _ hp.greatest.1, Int.neg_le_neg hv.2⟩
  above := by
    rintro _ ⟨v, hv, rfl⟩
    exact ⟨_, Set.mem_image_of_mem _ hp.least.1, Int.neg_le_neg hv.1⟩

theorem neg_mulSigned (hx : x.isEmpty = false) (hy : y.isEmpty = false) (hm : x.neg = .ok m)
    (hp : x.mulSigned y = .ok p) : m.mulSigned y = .ok w ↔ p.neg = .ok w := by
  have hspan := (tightImage_mulSigned hx hy).spans hp
  have left := tightImage_mulSigned_left ((tightImage_neg hx).spans hm) hy
  have right := (tightImage_neg hspan.isEmpty_eq_false).of_frames (frames_neg hspan)
  rw [Set.image2_image_left] at left
  rw [Set.image_image2] at right
  simp only [Int.neg_mul] at left
  exact left.eq_ok_iff right

/-! ## Products of sums -/

theorem eq_of_isSingleton {a c : ℤ} (h : x.isSingleton = true) (ha : a ∈ x) (hc : c ∈ x) :
    a = c := by
  have hbounds := congrArg FixedInt.val (isSingleton_iff.1 h)
  have ha' := mem_def.1 ha
  have hc' := mem_def.1 hc
  omega

theorem add_mem_of_isSingleton {u v : ℤ} (h : x.isSingleton = true)
    (hu : u ∈ Set.image2 (· * ·) x.values y.values)
    (hv : v ∈ Set.image2 (· * ·) x.values z.values) :
    u + v ∈ Set.image2 (· * ·) x.values (Set.image2 (· + ·) y.values z.values) := by
  obtain ⟨a, ha, c, hc, rfl⟩ := hu
  obtain ⟨a', ha', d, hd, rfl⟩ := hv
  rw [eq_of_isSingleton h ha' ha]
  exact ⟨a, ha, c + d, mem_image2 hc hd, Int.mul_add a c d⟩

section Distributivity

variable (hx : x.isEmpty = false) (hy : y.isEmpty = false) (hz : z.isEmpty = false)
variable (hp : x.mulSigned y = .ok p) (hq : x.mulSigned z = .ok q) (hw : p.add q = .ok w)

include hx hy hz hp hq hw

/-- The products of members of `x` by sums are sums of products with the same member of `x`. -/
theorem mul_add_mem {v : ℤ}
    (hv : v ∈ Set.image2 (· * ·) x.values (Set.image2 (· + ·) y.values z.values)) : v ∈ w := by
  obtain ⟨a, ha, _, ⟨c, hc, d, hd, rfl⟩, rfl⟩ := hv
  have hac := ((tightImage_mulSigned hx hy).spans hp).mem (mem_image2 ha hc)
  have had := ((tightImage_mulSigned hx hz).spans hq).mem (mem_image2 ha hd)
  have hspan := (tightImage_add (isEmpty_eq_false_of_mem hac) (isEmpty_eq_false_of_mem had)).spans hw
  change a * (c + d) ∈ w
  rw [Int.mul_add]
  exact hspan.mem (mem_image2 hac had)

theorem spans_mul_add (hsingle : x.isSingleton = true) :
    w.Spans (Set.image2 (· * ·) x.values (Set.image2 (· + ·) y.values z.values)) := by
  have hpspan := (tightImage_mulSigned hx hy).spans hp
  have hqspan := (tightImage_mulSigned hx hz).spans hq
  obtain ⟨hl, hu⟩ := add_eq_ok_iff.1 hw
  constructor
  · refine ⟨?_, fun v hv => (mul_add_mem hx hy hz hp hq hw hv).1⟩
    rw [hl]
    exact add_mem_of_isSingleton hsingle hpspan.least.1 hqspan.least.1
  · refine ⟨?_, fun v hv => (mul_add_mem hx hy hz hp hq hw hv).2⟩
    rw [hu]
    exact add_mem_of_isSingleton hsingle hpspan.greatest.1 hqspan.greatest.1

/-- The product by a sum fits where the sum of the products does, and is a part of it. -/
theorem exists_mulSigned_add (hs : y.add z = .ok s) :
    ∃ r, x.mulSigned s = .ok r ∧ r ⊆ w ∧ (x.isSingleton = true → r = w) := by
  have himage := tightImage_mulSigned_right hx ((tightImage_add hy hz).spans hs)
  obtain ⟨r, hr, hspan⟩ := himage.exists_of_fits fun v hv =>
    fits_of_mem (mul_add_mem hx hy hz hp hq hw hv)
  refine ⟨r, hr, hspan.subset_of_mem fun v hv => mul_add_mem hx hy hz hp hq hw hv, ?_⟩
  intro hsingle
  exact hspan.unique (spans_mul_add hx hy hz hp hq hw hsingle)

end Distributivity

/-- Products commute whatever the operands, failures included. With a sign, operands that have
members multiply associatively and by negation as far as the inner results fit, and by sums up to
inclusion. -/
theorem products_obey_ring_laws (x y z : Interval b) (kx ky kz kp kq : Kind) :
    x.mul y kx ky = y.mul x ky kx ∧
    ((∀ k ∈ [kx, ky, kz, kp, kq], k ≠ .unsigned) →
      x.isEmpty = false → y.isEmpty = false → z.isEmpty = false →
      (∀ p q, x.mul y kx ky = .ok p → y.mul z ky kz = .ok q →
        p.mul z kp kz = x.mul q kx kq) ∧
      (∀ m p, x.neg = .ok m → x.mul y kx ky = .ok p →
        ∀ w, m.mul y kp ky = .ok w ↔ p.neg = .ok w) ∧
      ∀ s p q w, y.add z = .ok s → x.mul y kx ky = .ok p → x.mul z kx kz = .ok q →
        p.add q = .ok w →
        ∃ r, x.mul s kx kp = .ok r ∧ r ⊆ w ∧ (x.isSingleton = true → r = w)) := by
  refine ⟨Interval.mul_comm x y kx ky, ?_⟩
  intro hk hx hy hz
  simp only [List.forall_mem_cons, List.not_mem_nil, false_imp_iff, implies_true, and_true] at hk
  obtain ⟨hkx, hky, hkz, hkp, hkq⟩ := hk
  simp only [mul_of_signed, hkx, hky, hkz, hkp, hkq, ne_eq, not_false_eq_true]
  refine ⟨fun p q => mulSigned_assoc hx hy hz, fun m p hm hp w => neg_mulSigned hx hy hm hp, ?_⟩
  intro s p q w hs hp hq hw
  exact exists_mulSigned_add hx hy hz hp hq hw hs

theorem products_obey_ring_laws_mixed_signs :
    (between 5 (-5) : Interval .int8).mul (between 7 3) .unsigned .signed =
      (between 7 3).mul (between 5 (-5)) .signed .unsigned ∧
    (between (-15) 20 : Interval .int8).mul (between (-4) (-1)) .signed .signedNegative =
      (between (-3) 4).mul (between (-20) (-2)) .signed .signed ∧
    (between (-4) 3 : Interval .int8).mul (between 2 5) .signed .signedPositive =
      .ok (between (-20) 15) ∧
    (∃ r, (between (-3) 4 : Interval .int8).mul (between (-2) 4) .signed .signed = .ok r ∧
      r ⊆ between (-31) 32) ∧
    (between (-3) (-3) : Interval .int8).mul (between (-2) 4) .signed .signed =
      .ok (between (-12) 6) := by
  obtain ⟨commutes, -⟩ := products_obey_ring_laws (between 5 (-5) : Interval .int8) (between 7 3)
    empty .unsigned .signed .signed .signed .signed
  obtain ⟨-, laws⟩ := products_obey_ring_laws (between (-3) 4 : Interval .int8) (between 2 5)
    (between (-4) (-1)) .signed .signedPositive .signedNegative .signed .signed
  obtain ⟨associates, negates, distributes⟩ := laws (by decide) rfl rfl rfl
  obtain ⟨-, laws⟩ := products_obey_ring_laws (between (-3) (-3) : Interval .int8) (between 2 5)
    (between (-4) (-1)) .signed .signedPositive .signedNegative .signed .signed
  obtain ⟨-, -, equals⟩ := laws (by decide) rfl rfl rfl
  obtain ⟨r, hr, hsub, -⟩ := distributes (between (-2) 4) (between (-15) 20) (between (-16) 12)
    (between (-31) 32) rfl rfl rfl rfl
  obtain ⟨t, ht, -, hequal⟩ := equals (between (-2) 4) (between (-15) (-6)) (between 3 12)
    (between (-12) 6) rfl rfl rfl rfl
  rw [hequal rfl] at ht
  exact ⟨commutes, associates _ (between (-20) (-2)) rfl rfl,
    (negates (between (-4) 3) (between (-15) 20) rfl rfl _).2 rfl, ⟨r, hr, hsub⟩, ht⟩

end Interval

end Bitspan
