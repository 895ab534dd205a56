import Bitspan.Proofs.BalanceExponent

set_option autoImplicit false

/-!
# The results of balancing

Without a sign, the balanced interval for an exponent has that exponent as its own width, so
`isBalanced` accepts exactly the results of `balance`. With a sign it is one bit wider than its
exponent, so `isBalanced` accepts none. Balancing a result once more gives the same interval, but
for the smallest results: their greatest value has a smaller logarithm, or none.
-/

namespace Bitspan

variable {b : BoundType}

theorem BoundType.fits_two (b : BoundType) : b.intType.Fits 2 := by
  cases b <;> decide

namespace Interval

variable {x r : Interval b} {k : Kind} {e m : ℕ} {v : ℤ}

/-! ## Width against exponent -/

theorem size_of_isBalancedTo (h : x.IsBalancedTo k e) :
    x.size = 2 ^ (if k = .unsigned then e else e + 1) := by
  obtain ⟨hl, hu⟩ := h
  apply size_eq_two_pow
  rw [hl, hu]
  split
  · ring
  · ring

theorem isEmpty_eq_false_of_isBalancedTo (h : x.IsBalancedTo k e) : x.isEmpty = false := by
  apply isEmpty_eq_false_of_size_pos
  rw [size_of_isBalancedTo h]
  exact Nat.two_pow_pos _

theorem isBalanced_unsigned_iff (hx : x.isEmpty = false) :
    (x.isBalanced .unsigned).outcome = .ok true ↔ ∃ e, x.IsBalancedTo .unsigned e := by
  rw [isBalanced_of_nonempty hx (.inl rfl), Except.ok.injEq, decide_eq_true_iff]
  constructor
  · intro h
    exact ⟨_, h⟩
  · rintro ⟨e, he⟩
    rwa [size_of_isBalancedTo he, if_pos rfl, Nat.clog_pow 2 e (by decide)]

theorem isBalanced_signed (hx : x.isEmpty = false) :
    (x.isBalanced .signed).outcome = .ok false := by
  rw [isBalanced_of_nonempty hx (.inr rfl), Except.ok.injEq, decide_eq_false_iff_not]
  intro h
  -- The interval for its own width would be as wide as the successor of that width.
  have hwidth := congrArg (Nat.clog 2) (size_of_isBalancedTo h)
  rw [if_neg (by decide), Nat.clog_pow 2 _ (by decide)] at hwidth
  omega

/-! ## The logarithm of a greatest value -/

theorem clog_natAbs_eq_succ (hl : 2 ^ m < |v|) (hu : |v| ≤ 2 ^ (m + 1)) :
    Nat.clog 2 v.natAbs = m + 1 :=
  le_antisymm (clog_natAbs_le_iff.2 hu) (not_le.1 (mt clog_natAbs_le_iff.1 (not_le.2 hl)))

theorem clog_two_pow_sub_one (hv : v = 2 ^ (m + 2) - 1) : Nat.clog 2 v.natAbs = m + 2 := by
  have hpos : (0 : ℤ) < 2 ^ m := Int.pow_pos (by decide)
  have habs : |v| = v := abs_of_nonneg (by rw [hv, pow_add]; omega)
  apply clog_natAbs_eq_succ
  · rw [habs, hv, pow_add, pow_add]
    omega
  · rw [habs, hv]
    exact Int.sub_le_self _ (by decide)

/-- An exponent whose balanced interval fits is the logarithm of some bound: of the greatest value
itself from the exponent two on, of one and two below it. -/
theorem exists_log_eq (hx : x.upper.val = 2 ^ e - 1) :
    ∃ p : Bound b, 0 < p.val ∧ Nat.clog 2 p.val.natAbs = e := by
  match e with
  | 0 => exact ⟨1, Int.one_pos, Nat.clog_one_right 2⟩
  | 1 => exact ⟨⟨2, b.fits_two⟩, two_pos, Nat.clog_eq_one le_rfl le_rfl⟩
  | m + 2 =>
    have hpos : (0 : ℤ) < 2 ^ m := Int.pow_pos (by decide)
    refine ⟨x.upper, ?_, clog_two_pow_sub_one hx⟩
    rw [hx, pow_add]
    omega

theorem exists_balance_unsigned_eq (h : x.IsBalancedTo .unsigned e) :
    ∃ y : Interval b, (y.balance .unsigned).outcome = .ok x := by
  obtain ⟨p, hpos, hlog⟩ := exists_log_eq h.2
  refine ⟨⟨0, p⟩, balance_eq_ok_iff.2 ⟨?_, hpos.ne', ?_⟩⟩
  · rw [not_lacksRule_unsigned_iff, isPositive_iff]
    exact ⟨le_rfl, hpos.le⟩
  · rwa [balanceExponent, hlog]

/-- The unsigned results of balancing are exactly what is recognized as balanced, and they run from
zero to a power of two less one. No interval with members is recognized as balanced with a sign,
the results of balancing included. -/
theorem isBalanced_recognizes_unsigned_results (x : Interval b) (hx : x.isEmpty = false) :
    ((x.isBalanced .unsigned).outcome = .ok true ↔
      ∃ y : Interval b, (y.balance .unsigned).outcome = .ok x) ∧
    ((∃ y : Interval b, (y.balance .unsigned).outcome = .ok x) ↔
      ∃ e : ℕ, x.lower.val = 0 ∧ x.upper.val = 2 ^ e - 1) ∧
    (x.isBalanced .signed).outcome = .ok false ∧
    ∀ y r : Interval b, (y.balance .signed).outcome = .ok r →
      r.isEmpty = false ∧ (r.isBalanced .signed).outcome = .ok false := by
  have hresult : (∃ y : Interval b, (y.balance .unsigned).outcome = .ok x) ↔
      ∃ e, x.IsBalancedTo .unsigned e := by
    constructor
    · rintro ⟨y, hy⟩
      exact ⟨_, (balance_eq_ok_iff.1 hy).2.2⟩
    · rintro ⟨e, he⟩
      exact exists_balance_unsigned_eq he
  refine ⟨(isBalanced_unsigned_iff hx).trans hresult.symm, hresult, isBalanced_signed hx, ?_⟩
  intro y r hr
  have hmembers := isEmpty_eq_false_of_isBalancedTo (balance_eq_ok_iff.1 hr).2.2
  exact ⟨hmembers, isBalanced_signed hmembers⟩

theorem isBalanced_recognizes_unsigned_results_one_bit :
    ((between 0 1 : Interval .int8).isBalanced .unsigned).outcome = .ok true ∧
    (∃ y : Interval .int8, (y.balance .unsigned).outcome = .ok (between 0 1)) ∧
    ((between 0 1 : Interval .int8).balance .unsigned).outcome ≠ .ok (between 0 1) ∧
    (¬ ∃ y : Interval .int8, (y.balance .unsigned).outcome = .ok (between 0 126)) ∧
    ((between (-128) 127 : Interval .int8).isBalanced .signed).outcome = .ok false := by
  obtain ⟨accepted, bounds, -⟩ :=
    isBalanced_recognizes_unsigned_results (between 0 1 : Interval .int8) rfl
  obtain ⟨refused, -⟩ :=
    isBalanced_recognizes_unsigned_results (between 0 126 : Interval .int8) rfl
  obtain ⟨-, -, signed, -⟩ :=
    isBalanced_recognizes_unsigned_results (between (-128) 127 : Interval .int8) rfl
  have hresult := bounds.2 ⟨1, rfl, rfl⟩
  exact ⟨accepted.2 hresult, hresult, by decide +kernel, mt refused.2 (by decide +kernel), signed⟩

/-! ## Balancing a result -/

theorem not_lacksRule_of_isBalancedTo (hk : k = .unsigned ∨ k = .signed)
    (h : r.IsBalancedTo k e) : ¬ r.LacksRule k := by
  rcases hk with rfl | rfl
  · have hpos : (0 : ℤ) < 2 ^ e := Int.pow_pos (by decide)
    rw [not_lacksRule_unsigned_iff, isPositive_iff, h.2]
    exact ⟨h.1.ge, by omega⟩
  · exact id

theorem readsZero_iff_of_isBalancedTo (hk : k = .unsigned ∨ k = .signed)
    (h : r.IsBalancedTo k e) : r.ReadsZero k ↔ r.upper.val = 0 := by
  rcases hk with rfl | rfl
  · exact Iff.rfl
  · have hlower : r.lower.val ≠ 0 := by
      rw [h.1]
      exact neg_ne_zero.2 (pow_ne_zero e two_ne_zero)
    exact or_iff_right hlower

theorem balanceExponent_signed_of_isBalancedTo (h : r.IsBalancedTo .signed e) :
    r.balanceExponent .signed = e := by
  have hpos : (0 : ℤ) < 2 ^ e := Int.pow_pos (by decide)
  have hupper : Nat.clog 2 r.upper.val.natAbs ≤ e := by
    rw [clog_natAbs_le_iff, h.2, abs_le]
    omega
  have hlower : Nat.clog 2 r.lower.val.natAbs = e := by
    rw [h.1, if_neg (by decide), Int.natAbs_neg, Int.natAbs_pow]
    exact Nat.clog_pow 2 e (by decide)
  rw [balanceExponent, hlower, max_eq_right hupper]

theorem balanceExponent_of_isBalancedTo (hk : k = .unsigned ∨ k = .signed)
    (h : r.IsBalancedTo k e) (hzero : r.upper.val ≠ 0)
    (hone : ¬ (k = .unsigned ∧ r.upper.val = 1)) : r.balanceExponent k = e := by
  rcases hk with rfl | rfl
  · match e with
    | 0 => exact absurd h.2 hzero
    | 1 => exact absurd ⟨rfl, h.2⟩ hone
    | m + 2 => exact clog_two_pow_sub_one h.2
  · exact balanceExponent_signed_of_isBalancedTo h

theorem balance_of_isBalancedTo (hk : k = .unsigned ∨ k = .signed) (h : r.IsBalancedTo k e) :
    (r.balance k).outcome =
      if r.upper.val = 0 then .error (.rejected (.outsideDomain .ceilLog))
      else if k = .unsigned ∧ r.upper.val = 1 then .ok (singleton 0)
      else .ok r := by
  have hrule := not_lacksRule_of_isBalancedTo hk h
  have hreads := readsZero_iff_of_isBalancedTo hk h
  by_cases hzero : r.upper.val = 0
  · rw [if_pos hzero]
    exact balance_of_readsZero hrule (hreads.2 hzero)
  rw [if_neg hzero]
  by_cases hone : k = .unsigned ∧ r.upper.val = 1
  · rw [if_pos hone]
    obtain ⟨rfl, hupper⟩ := hone
    refine balance_eq_ok_iff.2 ⟨hrule, mt hreads.1 hzero, ?_⟩
    rw [balanceExponent, hupper, Int.natAbs_one, Nat.clog_one_right]
    exact ⟨rfl, rfl⟩
  · rw [if_neg hone, balance_eq_ok_iff, balanceExponent_of_isBalancedTo hk h hzero hone]
    exact ⟨hrule, mt hreads.1 hzero, h⟩

/-- A result of balancing is its own balanced interval, but for three: `[0,1]` without a sign gives
`[0,0]`, and `[0,0]` without a sign and `[-1,0]` with one are declined for their bound of zero. -/
theorem balance_of_result (x r : Interval b) (k : Kind) (h : (x.balance k).outcome = .ok r) :
    r.lower.val = (if k = .unsigned then 0 else -(r.upper.val + 1)) ∧
    (r.balance k).outcome =
      if r.upper.val = 0 then .error (.rejected (.outsideDomain .ceilLog))
      else if k = .unsigned ∧ r.upper.val = 1 then .ok (singleton 0)
      else .ok r := by
  have hr := (balance_eq_ok_iff.1 h).2.2
  refine ⟨?_, balance_of_isBalancedTo (unsigned_or_signed_of_balance h) hr⟩
  rw [hr.1, hr.2, sub_add_cancel]

theorem balance_of_result_three_bits :
    ((between (-3) 5 : Interval .int8).balance .signed).outcome = .ok (between (-8) 7) ∧
    ((between (-8) 7 : Interval .int8).balance .signed).outcome = .ok (between (-8) 7) ∧
    ((between 0 127 : Interval .int8).balance .unsigned).outcome = .ok (between 0 127) := by
  have hsigned : ((between (-3) 5 : Interval .int8).balance .signed).outcome =
      .ok (between (-8) 7) := by decide +kernel
  have hunsigned : ((between 2 90 : Interval .int8).balance .unsigned).outcome =
      .ok (between 0 127) := by decide +kernel
  obtain ⟨-, again⟩ := balance_of_result _ _ _ hsigned
  obtain ⟨-, again'⟩ := balance_of_result _ _ _ hunsigned
  exact ⟨hsigned, again, again'⟩

/-- The upper bound 2 is balanced to `[0,1]`, whose own upper bound has the logarithm zero; the
value 1 with a sign is balanced to `[-1,0]`, whose upper bound has no logarithm. -/
theorem balance_moves_result :
    ((between 0 2 : Interval .int8).balance .unsigned).outcome = .ok (between 0 1) ∧
    ((between 0 1 : Interval .int8).balance .unsigned).outcome = .ok (between 0 0) ∧
    ((between 1 1 : Interval .int8).balance .signed).outcome = .ok (between (-1) 0) ∧
    ((between (-1) 0 : Interval .int8).balance .signed).outcome =
      .error (.rejected (.outsideDomain .ceilLog)) ∧
    ¬ ∀ (x r : Interval .int8) (k : Kind), k = .unsigned ∨ k = .signed →
      (x.balance k).outcome = .ok r → (r.balance k).outcome = .ok r := by
  have hfirst : ((between 0 2 : Interval .int8).balance .unsigned).outcome =
      .ok (between 0 1) := by decide +kernel
  have hsecond : ((between 0 1 : Interval .int8).balance .unsigned).outcome =
      .ok (between 0 0) := by decide +kernel
  refine ⟨hfirst, hsecond, by decide +kernel, by decide +kernel, fun h => ?_⟩
  have hstable := h _ _ _ (.inl rfl) hfirst
  rw [hsecond] at hstable
  exact absurd hstable (by decide +kernel)

end Interval

end Bitspan
