import Bitspan.Proofs.Powers
import Bitspan.Proofs.ProductLaws

set_option autoImplicit false

/-!
# Powers as repeated products

A repeated product may take another member of the operand for each factor, where a power takes one
member for all. So it holds the powers of the members, and it is their tight image on an operand
that lies on one side of zero: there a product of different members lies between two powers. On an
operand with members on both sides it can be wider.
-/

namespace Bitspan.Interval

variable {b : BoundType} {x p : Interval b} {n : ℕ}

/-- The product of `n` factors `x`, taken one at a time from the interval of the number one. -/
def repeatedProduct (x : Interval b) : ℕ → Checked (Interval b)
  | 0 => .ok (singleton 1)
  | n + 1 => do
    let p ← x.repeatedProduct n
    p.mul x .signed .signed

def OneSided (x : Interval b) : Prop := 0 ≤ x.lower.val ∨ x.upper.val ≤ 0

/-! ## Powers among the products -/

theorem mul_signed (x y : Interval b) : x.mul y .signed .signed = x.mulSigned y :=
  mul_of_signed nofun nofun

theorem repeatedProduct_encloses (hx : x.isEmpty = false) (h : x.repeatedProduct n = .ok p) :
    p.Encloses ((· ^ n) '' x.values) := by
  induction n generalizing p with
  | zero =>
    cases h
    refine ⟨isEmpty_eq_false_iff.2 le_rfl, ?_⟩
    rintro _ ⟨a, -, rfl⟩
    exact ⟨(pow_zero a).ge, (pow_zero a).le⟩
  | succ n ih =>
    obtain ⟨q, hq, hp⟩ := Checked.bind_eq_ok_iff.1 h
    have hpowers := ih hq
    rw [mul_signed] at hp
    have hproducts := (tightImage_mulSigned hpowers.nonempty hx).encloses hp
    refine ⟨hproducts.nonempty, ?_⟩
    rintro _ ⟨a, ha, rfl⟩
    change a ^ (n + 1) ∈ p
    rw [pow_succ]
    exact hproducts.mem _ (mem_image2 (hpowers.mem _ (Set.mem_image_of_mem _ ha)) ha)

/-! ## Products among the powers -/

theorem pow_mul_mem_uIcc_of_nonneg {a c : ℤ} (ha : 0 ≤ a) (hc : 0 ≤ c) (n : ℕ) :
    a ^ n * c ∈ Set.uIcc (a ^ (n + 1)) (c ^ (n + 1)) := by
  rw [pow_succ, pow_succ]
  rcases le_total a c with h | h
  · exact Set.mem_uIcc_of_le (mul_le_mul_of_nonneg_left h (pow_nonneg ha n))
      (mul_le_mul_of_nonneg_right (pow_le_pow_left₀ ha h n) hc)
  · exact Set.mem_uIcc_of_ge (mul_le_mul_of_nonneg_right (pow_le_pow_left₀ hc h n) hc)
      (mul_le_mul_of_nonneg_left h (pow_nonneg ha n))

theorem pow_mul_mem_uIcc_of_nonpos {a c : ℤ} (ha : a ≤ 0) (hc : c ≤ 0) (n : ℕ) :
    a ^ n * c ∈ Set.uIcc (a ^ (n + 1)) (c ^ (n + 1)) := by
  -- The product and both powers have `n + 1` factors, so they change sign together.
  have h := pow_mul_mem_uIcc_of_nonneg (neg_nonneg.2 ha) (neg_nonneg.2 hc) n
  rcases n.even_or_odd with hn | hn
  · rw [hn.neg_pow, hn.add_one.neg_pow, hn.add_one.neg_pow, mul_neg, Set.mem_uIcc] at h
    rw [Set.mem_uIcc]
    omega
  · rwa [hn.neg_pow, hn.add_one.neg_pow, hn.add_one.neg_pow, neg_mul_neg] at h

theorem OneSided.pow_mul_mem_uIcc (h : x.OneSided) {a c : ℤ} (ha : a ∈ x) (hc : c ∈ x) (n : ℕ) :
    a ^ n * c ∈ Set.uIcc (a ^ (n + 1)) (c ^ (n + 1)) := by
  rcases h with hl | hu
  · exact pow_mul_mem_uIcc_of_nonneg (hl.trans ha.1) (hl.trans hc.1) n
  · exact pow_mul_mem_uIcc_of_nonpos (ha.2.trans hu) (hc.2.trans hu) n

theorem OneSided.frames_powers (h : x.OneSided) (n : ℕ) :
    Frames ((· ^ (n + 1)) '' x.values)
      (Set.image2 (· * ·) ((· ^ n) '' x.values) x.values) where
  subset := by
    rintro _ ⟨a, ha, rfl⟩
    exact ⟨a ^ n, Set.mem_image_of_mem _ ha, a, ha, (pow_succ a n).symm⟩
  below := by
    rintro _ ⟨_, ⟨a, ha, rfl⟩, c, hc, rfl⟩
    rcases Set.mem_uIcc.1 (h.pow_mul_mem_uIcc ha hc n) with ⟨hle, -⟩ | ⟨hle, -⟩
    · exact ⟨_, Set.mem_image_of_mem _ ha, hle⟩
    · exact ⟨_, Set.mem_image_of_mem _ hc, hle⟩
  above := by
    rintro _ ⟨_, ⟨a, ha, rfl⟩, c, hc, rfl⟩
    rcases Set.mem_uIcc.1 (h.pow_mul_mem_uIcc ha hc n) with ⟨-, hle⟩ | ⟨-, hle⟩
    · exact ⟨_, Set.mem_image_of_mem _ hc, hle⟩
    · exact ⟨_, Set.mem_image_of_mem _ ha, hle⟩

/-- Every partial product overflows only where the power of some member does not fit. -/
theorem tightImage_repeatedProduct (hx : x.isEmpty = false) (h : x.OneSided) (n : ℕ) :
    TightImage .multiply ((· ^ n) '' x.values) (x.repeatedProduct n) := by
  induction n with
  | zero =>
    have hone : (fun a : ℤ => a ^ 0) '' x.values = {1} := by
      simp only [pow_zero]
      exact (isLeast_lower hx).nonempty.image_const 1
    rw [hone]
    exact .pure ⟨isLeast_singleton, isGreatest_singleton⟩
  | succ n ih =>
    refine ih.bind (fun p hp => ?_) ?_
    · rw [mul_signed]
      exact (tightImage_mulSigned_left hp hx).of_frames (h.frames_powers n)
    · rintro ⟨_, ⟨a, ha, rfl⟩, hfit⟩
      exact ⟨_, Set.mem_image_of_mem _ ha, mt (FixedInt.fits_pow_of_le n.le_succ) hfit⟩

/-- Where the repeated product fits, so does the power, and is a part of it. On one side of zero the
two are the same interval and overflow alike. -/
theorem power_refines_repeated_product (x : Interval b) (n : ℕ) (hx : x.isEmpty = false)
    (h : (x.power n).outcome ≠ .error (.rejected (.notImplemented .power))) :
    (∀ p, x.repeatedProduct n = .ok p →
      ∃ z, (x.power n).outcome = .ok z ∧ z ⊆ p ∧ (x.OneSided → z = p)) ∧
    (x.OneSided → x.power n = .checked (x.repeatedProduct n)) := by
  obtain ⟨r, hr, himage⟩ := exists_tightImage_power hx (mt power_of_folds h)
  have hsame : x.OneSided → r = x.repeatedProduct n := fun hside =>
    himage.unique (tightImage_repeatedProduct hx hside n)
  constructor
  · intro p hp
    have hpowers := repeatedProduct_encloses hx hp
    obtain ⟨z, hz, hspan⟩ := himage.exists_of_fits fun v hv => fits_of_mem (hpowers.mem v hv)
    refine ⟨z, by rw [hr, hz]; rfl, hspan.subset_of_mem hpowers.mem, ?_⟩
    intro hside
    have heq := hsame hside
    rw [hz, hp] at heq
    cases heq
    rfl
  · intro hside
    rw [hr, hsame hside]

theorem power_refines_repeated_product_cubes :
    (between (-2) 1 : Interval .int8).repeatedProduct 3 = .ok (between (-8) 4) ∧
    (between (-8) 1 : Interval .int8) ⊆ between (-8) 4 ∧
    (between (-3) (-2) : Interval .int8).power 3 =
      .checked ((between (-3) (-2) : Interval .int8).repeatedProduct 3) := by
  obtain ⟨narrower, -⟩ := power_refines_repeated_product (between (-2) 1 : Interval .int8) 3 rfl
    nofun
  obtain ⟨-, equal⟩ := power_refines_repeated_product (between (-3) (-2) : Interval .int8) 3 rfl
    nofun
  have hproduct : (between (-2) 1 : Interval .int8).repeatedProduct 3 = .ok (between (-8) 4) := rfl
  have hpower : ((between (-2) 1 : Interval .int8).power 3).outcome = .ok (between (-8) 1) := rfl
  obtain ⟨z, hz, hsub, -⟩ := narrower _ hproduct
  rw [hpower] at hz
  cases hz
  exact ⟨hproduct, hsub, equal (.inr (by decide))⟩

end Bitspan.Interval
