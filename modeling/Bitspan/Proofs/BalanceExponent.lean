import Mathlib.Algebra.Order.Group.Abs
import Bitspan.Proofs.Balance

set_option autoImplicit false

/-!
# What balancing keeps

A balanced interval is determined by one exponent of two, the least one that reaches the magnitudes
of the bounds that the rule reads. So it encloses all members but a power of two at the very top,
which is one more than the greatest value it holds.
-/

namespace Bitspan.Interval

variable {b : BoundType} {x r : Interval b} {k : Kind} {m : ℕ} {v : ℤ}

/-- The bounds whose magnitudes the rule of the kind reads. -/
def boundsRead (x : Interval b) : Kind → List (Bound b)
  | .unsigned => [x.upper]
  | .signed | .signedPositive | .signedNegative => [x.upper, x.lower]

theorem upper_mem_boundsRead (x : Interval b) (k : Kind) : x.upper ∈ x.boundsRead k := by
  cases k with
  | unsigned | signed | signedPositive | signedNegative => exact List.mem_cons_self

theorem lower_mem_boundsRead (x : Interval b) : x.lower ∈ x.boundsRead .signed :=
  List.mem_cons_of_mem _ List.mem_cons_self

theorem clog_natAbs_le_iff : Nat.clog 2 v.natAbs ≤ m ↔ |v| ≤ 2 ^ m := by
  rw [Nat.clog_le_iff_le_pow (by decide), Int.abs_eq_natAbs]
  exact_mod_cast Iff.rfl

theorem balanceExponent_le_iff :
    x.balanceExponent k ≤ m ↔ ∀ p ∈ x.boundsRead k, |p.val| ≤ 2 ^ m := by
  cases k with
  | unsigned => simp [balanceExponent, boundsRead, clog_natAbs_le_iff]
  | signed | signedPositive | signedNegative =>
    simp [balanceExponent, boundsRead, clog_natAbs_le_iff]

theorem balanceExponent_eq_zero_or_lt (x : Interval b) (k : Kind) :
    x.balanceExponent k = 0 ∨ ∃ p ∈ x.boundsRead k, 2 ^ (x.balanceExponent k - 1) < |p.val| := by
  by_contra! h
  obtain ⟨hpos, hall⟩ := h
  have hle := balanceExponent_le_iff.2 hall
  omega

theorem balance_eq_ok_iff :
    (x.balance k).outcome = .ok r ↔
      ¬ x.LacksRule k ∧ ¬ x.ReadsZero k ∧ r.IsBalancedTo k (x.balanceExponent k) := by
  by_cases h : x.LacksRule k
  · rw [balance_of_lacksRule h]
    exact iff_of_false nofun fun hr => hr.1 h
  by_cases h0 : x.ReadsZero k
  · rw [balance_of_readsZero h h0]
    exact iff_of_false nofun fun hr => hr.2.1 h0
  obtain ⟨z, hz, hbounds⟩ := exists_balance h h0
  rw [hz, Except.ok.injEq]
  constructor
  · rintro rfl
    exact ⟨h, h0, hbounds⟩
  · rintro ⟨-, -, hr⟩
    exact ext (hbounds.1.trans hr.1.symm) (hbounds.2.trans hr.2.symm)

theorem unsigned_or_signed_of_balance (h : (x.balance k).outcome = .ok r) :
    k = .unsigned ∨ k = .signed := by
  obtain ⟨hrule, -⟩ := balance_eq_ok_iff.1 h
  cases k with
  | unsigned => exact .inl rfl
  | signed => exact .inr rfl
  | signedPositive | signedNegative => exact absurd trivial hrule

/-- Every rule reads the upper bound, which the balanced interval misses by no more than one. The
lower bound is read too, unless it is known not to be negative. -/
theorem bounds_of_balance (h : (x.balance k).outcome = .ok r) :
    r.lower.val ≤ x.lower.val ∧ x.upper.val ≤ r.upper.val + 1 := by
  obtain ⟨hrule, -, hl, hu⟩ := balance_eq_ok_iff.1 h
  have hreach := balanceExponent_le_iff.1 (le_refl (x.balanceExponent k))
  have hupper := (abs_le.1 (hreach _ (upper_mem_boundsRead x k))).2
  rw [hl, hu, sub_add_cancel]
  refine ⟨?_, hupper⟩
  rcases unsigned_or_signed_of_balance h with rfl | rfl
  · exact (isPositive_iff.1 (not_lacksRule_unsigned_iff.1 hrule)).1
  · exact (abs_le.1 (hreach _ (lower_mem_boundsRead x))).1

theorem not_mem_of_balance_iff (h : (x.balance k).outcome = .ok r) (hv : v ∈ x) :
    v ∉ r ↔ v = x.upper.val ∧ v = r.upper.val + 1 := by
  obtain ⟨hlower, hupper⟩ := bounds_of_balance h
  rw [mem_def] at hv ⊢
  omega

theorem subset_balance_iff (hx : x.isEmpty = false) (h : (x.balance k).outcome = .ok r) :
    x ⊆ r ↔ x.upper.val ≠ r.upper.val + 1 := by
  obtain ⟨hlower, hupper⟩ := bounds_of_balance h
  rw [subset_iff hx]
  omega

/-- Balancing gives the bounds for one exponent and loses no member but the upper bound where that
is the power of two itself; no smaller exponent reaches the bounds that the rule reads. -/
theorem balance_loses_only_top (x r : Interval b) (k : Kind) (hx : x.isEmpty = false)
    (h : (x.balance k).outcome = .ok r) :
    ∃ e : ℕ,
      (k = .unsigned ∧ r.lower.val = 0 ∨ k = .signed ∧ r.lower.val = -2 ^ e) ∧
      r.upper.val = 2 ^ e - 1 ∧
      (∀ v ∈ x, v ∉ r ↔ v = x.upper.val ∧ v = 2 ^ e) ∧
      (x ⊆ r ↔ x.upper.val ≠ 2 ^ e) ∧
      (e = 0 ∨ ∃ p ∈ x.boundsRead k, 2 ^ (e - 1) < |p.val|) := by
  obtain ⟨-, -, hl, hu⟩ := balance_eq_ok_iff.1 h
  have htop : r.upper.val + 1 = 2 ^ x.balanceExponent k := by rw [hu, sub_add_cancel]
  refine ⟨x.balanceExponent k, ?_, hu, ?_, ?_, balanceExponent_eq_zero_or_lt x k⟩
  · rcases unsigned_or_signed_of_balance h with rfl | rfl
    · exact .inl ⟨rfl, hl⟩
    · exact .inr ⟨rfl, hl⟩
  · intro v hv
    rw [not_mem_of_balance_iff h hv, htop]
  · rw [subset_balance_iff hx h, htop]

/-- The upper bound 64 is a power of two and is lost; the least value of the type is kept. -/
theorem balance_loses_only_top_power_of_two :
    ((between (-3) 64 : Interval .int8).balance .signed).outcome = .ok (between (-64) 63) ∧
    (64 : ℤ) ∉ (between (-64) 63 : Interval .int8) ∧
    ¬ (between (-3) 64 : Interval .int8) ⊆ between (-64) 63 ∧
    ((between (-128) 5 : Interval .int8).balance .signed).outcome = .ok (between (-128) 127) ∧
    (between (-128) 5 : Interval .int8) ⊆ between (-128) 127 := by
  have hlost : ((between (-3) 64 : Interval .int8).balance .signed).outcome =
      .ok (between (-64) 63) := by decide +kernel
  have hkept : ((between (-128) 5 : Interval .int8).balance .signed).outcome =
      .ok (between (-128) 127) := by decide +kernel
  obtain ⟨e, -, hu, hmem, hsub, -⟩ := balance_loses_only_top _ _ _ rfl hlost
  obtain ⟨m, -, hum, -, hsubm, -⟩ := balance_loses_only_top _ _ _ rfl hkept
  have he : (2 : ℤ) ^ e = 64 := (eq_add_of_sub_eq hu.symm)
  have hm : (2 : ℤ) ^ m = 128 := (eq_add_of_sub_eq hum.symm)
  rw [he] at hmem hsub
  rw [hm] at hsubm
  exact ⟨hlost, (hmem 64 (by decide)).2 ⟨rfl, rfl⟩, fun h => hsub.1 h rfl, hkept,
    hsubm.2 (by decide)⟩

end Bitspan.Interval
