import Bitspan.Proofs.Operators

set_option autoImplicit false

/-!
# Joins before and after an operation

The bounds of a hull are bounds of its operands, and an operation that runs between its end values
takes its extreme values there. So joining two operands and joining their two results give the same
interval, and the result of one operand overflows only where that of the hull does. Remainders are
left out, and so is a fixed dividend: the hull of two divisors may hold the zero between them.
-/

namespace Bitspan

variable {b : BoundType} {x y z : Interval b}

theorem Kind.Suits.hull {k : Kind} (hx : k.Suits x) (hy : k.Suits y) : k.Suits (x.hull y) := by
  intro hk
  rw [Interval.lower_hull, FixedInt.val_min]
  exact le_min (hx hk) (hy hk)

namespace Interval

theorem lower_hull_mem (hx : x.isEmpty = false) (hy : y.isEmpty = false) :
    (x.hull y).lower.val ∈ x ∨ (x.hull y).lower.val ∈ y := by
  rw [lower_hull, FixedInt.val_min]
  rcases min_choice x.lower.val y.lower.val with h | h
  · rw [h]
    exact .inl (lower_mem hx)
  · rw [h]
    exact .inr (lower_mem hy)

theorem upper_hull_mem (hx : x.isEmpty = false) (hy : y.isEmpty = false) :
    (x.hull y).upper.val ∈ x ∨ (x.hull y).upper.val ∈ y := by
  rw [upper_hull, FixedInt.val_max]
  rcases max_choice x.upper.val y.upper.val with h | h
  · rw [h]
    exact .inl (upper_mem hx)
  · rw [h]
    exact .inr (upper_mem hy)

/-! ## Brackets -/

/-- Both sets are parts of `u`, and each element of `u` has one of theirs below it and one above. -/
structure Bracket (s t u : Set ℤ) : Prop where
  left : s ⊆ u
  right : t ⊆ u
  below : ∀ v ∈ u, ∃ l, (l ∈ s ∨ l ∈ t) ∧ l ≤ v
  above : ∀ v ∈ u, ∃ g, (g ∈ s ∨ g ∈ t) ∧ v ≤ g

variable {s t u : Set ℤ} {p q : Interval b}

theorem Spans.hull (h : Bracket s t u) (hp : p.Spans s) (hq : q.Spans t) : (p.hull q).Spans u := by
  constructor
  · rw [lower_hull, FixedInt.val_min]
    constructor
    · exact min_rec' (· ∈ u) (h.left hp.least.1) (h.right hq.least.1)
    · intro v hv
      obtain ⟨l, hl | hl, hlv⟩ := h.below v hv
      · exact (min_le_left _ _).trans ((hp.least.2 hl).trans hlv)
      · exact (min_le_right _ _).trans ((hq.least.2 hl).trans hlv)
  · rw [upper_hull, FixedInt.val_max]
    constructor
    · exact max_rec' (· ∈ u) (h.left hp.greatest.1) (h.right hq.greatest.1)
    · intro v hv
      obtain ⟨g, hg | hg, hvg⟩ := h.above v hv
      · exact hvg.trans ((hp.greatest.2 hg).trans (le_max_left _ _))
      · exact hvg.trans ((hq.greatest.2 hg).trans (le_max_right _ _))

theorem TightImage.hull {step : ArithmeticStep} {c d : Checked (Interval b)} (h : Bracket s t u)
    (hc : TightImage step s c) (hd : TightImage step t d) :
    TightImage step u (do let p ← c; let q ← d; return p.hull q) where
  spans := by
    intro z hz
    obtain ⟨p, hp, hrest⟩ := Checked.bind_eq_ok_iff.1 hz
    obtain ⟨q, hq, hjoin⟩ := Checked.bind_eq_ok_iff.1 hrest
    cases hjoin
    exact Spans.hull h (hc.spans hp) (hd.spans hq)
  overflow := by
    intro f hf
    rcases Checked.bind_eq_error_iff.1 hf with hf | ⟨_, _, hrest⟩
    · obtain ⟨rfl, v, hv, hfit⟩ := hc.overflow hf
      exact ⟨rfl, v, h.left hv, hfit⟩
    rcases Checked.bind_eq_error_iff.1 hrest with hf | ⟨_, _, hjoin⟩
    · obtain ⟨rfl, v, hv, hfit⟩ := hd.overflow hf
      exact ⟨rfl, v, h.right hv, hfit⟩
    · cases hjoin

/-- A value between those at the ends of a hull lies between the values at two members of the
operands, since each end belongs to one of them. -/
theorem exists_around_of_mem_uIcc {g : ℤ → ℤ} {v : ℤ} (hx : x.isEmpty = false)
    (hy : y.isEmpty = false)
    (h : g v ∈ Set.uIcc (g (x.hull y).lower.val) (g (x.hull y).upper.val)) :
    (∃ a, (a ∈ x ∨ a ∈ y) ∧ g a ≤ g v) ∧ ∃ a, (a ∈ x ∨ a ∈ y) ∧ g v ≤ g a := by
  have hl := lower_hull_mem hx hy
  have hu := upper_hull_mem hx hy
  rcases Set.mem_uIcc.1 h with ⟨hlv, hvu⟩ | ⟨huv, hvl⟩
  · exact ⟨⟨_, hl, hlv⟩, _, hu, hvu⟩
  · exact ⟨⟨_, hu, huv⟩, _, hl, hvl⟩

theorem bracket_image2_left {g : ℤ → ℤ → ℤ} (hx : x.isEmpty = false) (hy : y.isEmpty = false)
    (h : RunsBetween g (x.hull y) z) :
    Bracket (Set.image2 g x.values z.values) (Set.image2 g y.values z.values)
      (Set.image2 g (x.hull y).values z.values) where
  left := Set.image2_subset_right fun _ => mem_hull_left
  right := Set.image2_subset_right fun _ => mem_hull_right
  below := by
    rintro _ ⟨v, hv, c, hc, rfl⟩
    obtain ⟨⟨a, ha, hle⟩, _⟩ := exists_around_of_mem_uIcc hx hy (g := (g · c)) (h.left v hv c hc)
    exact ⟨g a c, ha.imp (mem_image2 · hc) (mem_image2 · hc), hle⟩
  above := by
    rintro _ ⟨v, hv, c, hc, rfl⟩
    obtain ⟨_, a, ha, hle⟩ := exists_around_of_mem_uIcc hx hy (g := (g · c)) (h.left v hv c hc)
    exact ⟨g a c, ha.imp (mem_image2 · hc) (mem_image2 · hc), hle⟩

theorem bracket_image2_right {g : ℤ → ℤ → ℤ} (hx : x.isEmpty = false) (hy : y.isEmpty = false)
    (h : RunsBetween g z (x.hull y)) :
    Bracket (Set.image2 g z.values x.values) (Set.image2 g z.values y.values)
      (Set.image2 g z.values (x.hull y).values) := by
  simp only [Set.image2_swap g]
  exact bracket_image2_left hx hy h.swap

theorem bracket_neg (hx : x.isEmpty = false) (hy : y.isEmpty = false) :
    Bracket ((fun a => -a) '' x.values) ((fun a => -a) '' y.values)
      ((fun a => -a) '' (x.hull y).values) where
  left := Set.image_mono fun _ => mem_hull_left
  right := Set.image_mono fun _ => mem_hull_right
  below := by
    rintro _ ⟨v, hv, rfl⟩
    have hu := upper_hull_mem hx hy
    exact ⟨_, hu.imp (Set.mem_image_of_mem _) (Set.mem_image_of_mem _), Int.neg_le_neg hv.2⟩
  above := by
    rintro _ ⟨v, hv, rfl⟩
    have hl := lower_hull_mem hx hy
    exact ⟨_, hl.imp (Set.mem_image_of_mem _) (Set.mem_image_of_mem _), Int.neg_le_neg hv.1⟩

/-- A magnitude on the hull is at most that of one of its bounds. -/
theorem bracket_abs (hx : x.isEmpty = false) (hy : y.isEmpty = false) :
    Bracket (insert 0 ((fun a => |a|) '' x.values)) (insert 0 ((fun a => |a|) '' y.values))
      (insert 0 ((fun a => |a|) '' (x.hull y).values)) where
  left := Set.insert_subset_insert (Set.image_mono fun _ => mem_hull_left)
  right := Set.insert_subset_insert (Set.image_mono fun _ => mem_hull_right)
  below := by
    rintro _ (rfl | ⟨v, _, rfl⟩)
    · exact ⟨0, .inl (Set.mem_insert _ _), le_rfl⟩
    · exact ⟨0, .inl (Set.mem_insert _ _), abs_nonneg v⟩
  above := by
    rintro _ (rfl | ⟨v, hv, rfl⟩)
    · exact ⟨0, .inl (Set.mem_insert _ _), le_rfl⟩
    have member : ∀ {a : ℤ}, a ∈ x ∨ a ∈ y →
        |a| ∈ insert 0 ((fun a => |a|) '' x.values) ∨ |a| ∈ insert 0 ((fun a => |a|) '' y.values) :=
      fun ha => ha.imp (fun h => .inr ⟨_, h, rfl⟩) (fun h => .inr ⟨_, h, rfl⟩)
    rcases le_max_iff.1 (abs_le_of_mem hv) with h | h
    · exact ⟨_, member (upper_hull_mem hx hy), h⟩
    · exact ⟨_, member (lower_hull_mem hx hy), h⟩

/-! ## Joining the results -/

/-- The call on the join of two operands is the join of the calls on each, failures included. -/
def JoinsThrough (f : Interval b → Call (Interval b)) (join : Interval b → Interval b → Interval b)
    (x y : Interval b) : Prop :=
  f (join x y) = do
    let p ← f x
    let q ← f y
    return join p q

variable {f : Interval b → Call (Interval b)}

theorem joinsThrough_of_tightImage {step : ArithmeticStep} {c d r : Checked (Interval b)}
    (hx : f x = .checked c) (hy : f y = .checked d) (hr : f (x.hull y) = .checked r)
    (h : Bracket s t u) (hc : TightImage step s c) (hd : TightImage step t d)
    (hu : TightImage step u r) : JoinsThrough f hull x y := by
  unfold JoinsThrough
  rw [hx, hy, hr, hu.unique (TightImage.hull h hc hd)]
  simp only [Call.checked_bind]
  rfl

theorem joinsThrough_pure {g : Interval b → Interval b} (h : g (x.hull y) = (g x).hull (g y)) :
    JoinsThrough (fun w => pure (g w)) hull x y := by
  unfold JoinsThrough
  simp only [h, pure_bind]

theorem joinsThrough_reject {reason : Rejection} {text : String} (hx : f x = .reject reason text)
    (hr : f (x.hull y) = .reject reason text) : JoinsThrough f hull x y := by
  unfold JoinsThrough
  rw [hx, hr]
  rfl

theorem joinsThrough_div {kx kz : Kind} (hx : x.isEmpty = false) (hy : y.isEmpty = false)
    (hz : z.isEmpty = false) (hkx : kx.Suits x) (hky : kx.Suits y) (hkz : kz.Suits z) :
    JoinsThrough (fun w => w.div z kx kz) hull x y := by
  -- What is rejected is rejected for the divisor or the kinds, which both operands share.
  by_cases h0 : (0 : ℤ) ∈ z
  · have reject : ∀ w : Interval b,
        w.div z kx kz = .reject .divisorContainsZero s!"div by {z} which contains zero" := by
      intro w
      rw [div, if_neg (by simp [hz]), if_pos (contains_iff.2 h0)]
    exact joinsThrough_reject (reject x) (reject _)
  by_cases hk : kx.isUnsigned = kz.isUnsigned
  · obtain ⟨c, hc, left⟩ := exists_tightImage_div hx hz h0 hk hkx hkz
    obtain ⟨d, hd, right⟩ := exists_tightImage_div hy hz h0 hk hky hkz
    obtain ⟨r, hr, joined⟩ :=
      exists_tightImage_div (hull_isEmpty_eq_false hx) hz h0 hk (hkx.hull hky) hkz
    exact joinsThrough_of_tightImage hc hd hr
      (bracket_image2_left hx hy (runsBetween_tdiv _ hz h0)) left right joined
  · exact joinsThrough_reject (div_of_mixed hz h0 hk) (div_of_mixed hz h0 hk)

theorem joinsThrough_unary {op : UnaryOp} (hop : op = .neg ∨ op = .abs) (hx : x.isEmpty = false)
    (hy : y.isEmpty = false) : JoinsThrough op.apply hull x y := by
  have h := hull_isEmpty_eq_false (y := y) hx
  rcases hop with rfl | rfl
  · exact joinsThrough_of_tightImage rfl rfl rfl (bracket_neg hx hy) (tightImage_neg hx)
      (tightImage_neg hy) (tightImage_neg h)
  · exact joinsThrough_of_tightImage rfl rfl rfl (bracket_abs hx hy) (tightImage_abs hx)
      (tightImage_abs hy) (tightImage_abs h)

theorem joinsThrough_left {op : BinaryOp} (hop : ∀ k, op ≠ .modulo k)
    (hx : x.isEmpty = false) (hy : y.isEmpty = false) (hz : z.isEmpty = false)
    (hxz : op.Suits x z) (hyz : op.Suits y z) :
    JoinsThrough (fun w => op.apply w z) hull x y := by
  have h := hull_isEmpty_eq_false (y := y) hx
  cases op with
  | add =>
    exact joinsThrough_of_tightImage rfl rfl rfl
      (bracket_image2_left hx hy (runsBetween_add _ z)) (tightImage_add hx hz)
      (tightImage_add hy hz) (tightImage_add h hz)
  | sub =>
    exact joinsThrough_of_tightImage rfl rfl rfl
      (bracket_image2_left hx hy (runsBetween_sub _ z)) (tightImage_sub hx hz)
      (tightImage_sub hy hz) (tightImage_sub h hz)
  | mul kx kz =>
    exact joinsThrough_of_tightImage rfl rfl rfl
      (bracket_image2_left hx hy (runsBetween_mul _ z)) (tightImage_mul hx hz hxz.1 hxz.2)
      (tightImage_mul hy hz hyz.1 hyz.2) (tightImage_mul h hz (hxz.1.hull hyz.1) hxz.2)
  | div kx kz => exact joinsThrough_div hx hy hz hxz.1 hyz.1 hxz.2
  | modulo k => exact absurd rfl (hop k)
  | max => exact joinsThrough_pure (max_hull x y z)
  | min => exact joinsThrough_pure (min_hull x y z)
  | hull | union | mux => exact joinsThrough_pure (hull_hull x y z)

theorem joinsThrough_right {op : BinaryOp} (hmodulo : ∀ k, op ≠ .modulo k)
    (hdiv : ∀ j k, op ≠ .div j k) (hx : x.isEmpty = false) (hy : y.isEmpty = false)
    (hz : z.isEmpty = false) (hzx : op.Suits z x) (hzy : op.Suits z y) :
    JoinsThrough (op.apply z) hull x y := by
  have h := hull_isEmpty_eq_false (y := y) hx
  cases op with
  | add =>
    exact joinsThrough_of_tightImage rfl rfl rfl
      (bracket_image2_right hx hy (runsBetween_add z _)) (tightImage_add hz hx)
      (tightImage_add hz hy) (tightImage_add hz h)
  | sub =>
    exact joinsThrough_of_tightImage rfl rfl rfl
      (bracket_image2_right hx hy (runsBetween_sub z _)) (tightImage_sub hz hx)
      (tightImage_sub hz hy) (tightImage_sub hz h)
  | mul kz kx =>
    exact joinsThrough_of_tightImage rfl rfl rfl
      (bracket_image2_right hx hy (runsBetween_mul z _)) (tightImage_mul hz hx hzx.1 hzx.2)
      (tightImage_mul hz hy hzy.1 hzy.2) (tightImage_mul hz h hzx.1 (hzx.2.hull hzy.2))
  | div j k => exact absurd rfl (hdiv j k)
  | modulo k => exact absurd rfl (hmodulo k)
  | max =>
    refine joinsThrough_pure ?_
    rw [Interval.max_comm, max_hull, Interval.max_comm x, Interval.max_comm y]
  | min =>
    refine joinsThrough_pure ?_
    rw [Interval.min_comm, min_hull, Interval.min_comm x, Interval.min_comm y]
  | hull | union | mux =>
    refine joinsThrough_pure ?_
    change z.hull (x.hull y) = (z.hull x).hull (z.hull y)
    rw [hull_comm, hull_hull, hull_comm x, hull_comm y]

/-- Branches may be joined before or after an operation whose other operand is fixed: the interval
is the same, and so is the failure where there is one. -/
theorem joins_commute_with_operators (join : Interval b → Interval b → Interval b)
    (hjoin : join = hull ∨ join = union ∨ join = mux) (hx : x.isEmpty = false)
    (hy : y.isEmpty = false) (hz : z.isEmpty = false) :
    (∀ op : UnaryOp, op = .neg ∨ op = .abs → JoinsThrough op.apply join x y) ∧
    (∀ op : BinaryOp, (∀ k, op ≠ .modulo k) → op.Suits x z → op.Suits y z →
      JoinsThrough (fun w => op.apply w z) join x y) ∧
    ∀ op : BinaryOp, (∀ k, op ≠ .modulo k) → (∀ j k, op ≠ .div j k) → op.Suits z x →
      op.Suits z y → JoinsThrough (op.apply z) join x y := by
  have h : join = hull := by rcases hjoin with rfl | rfl | rfl <;> rfl
  rw [h]
  refine ⟨fun op hop => joinsThrough_unary hop hx hy, ?_, ?_⟩
  · intro op hop hxz hyz
    exact joinsThrough_left hop hx hy hz hxz hyz
  · intro op hmodulo hdiv hzx hzy
    exact joinsThrough_right hmodulo hdiv hx hy hz hzx hzy

theorem joins_commute_with_operators_mixed_signs :
    JoinsThrough (fun w => (BinaryOp.mul .signed .unsigned).apply w (between 2 5)) mux
      (between (-3) 4 : Interval .int8) (between 8 9) ∧
    ((BinaryOp.mul .signed .unsigned).apply ((between (-3) 4).mux (between 8 9))
      (between 2 5 : Interval .int8)).outcome = .ok (between (-15) 45) ∧
    JoinsThrough ((BinaryOp.sub).apply (between 50 60)) union
      (between (-80) 4 : Interval .int8) (between 8 9) ∧
    ((BinaryOp.sub).apply (between 50 60 : Interval .int8)
      ((between (-80) 4).union (between 8 9))).outcome = .error (.fault (.overflow .subtract)) := by
  obtain ⟨_, left, _⟩ := joins_commute_with_operators mux (.inr (.inr rfl))
    (x := (between (-3) 4 : Interval .int8)) (y := between 8 9) (z := between 2 5) rfl rfl rfl
  obtain ⟨_, _, right⟩ := joins_commute_with_operators union (.inr (.inl rfl))
    (x := (between (-80) 4 : Interval .int8)) (y := between 8 9) (z := between 50 60) rfl rfl rfl
  refine ⟨left _ nofun ⟨by decide, by decide⟩ ⟨by decide, by decide⟩, rfl,
    right _ nofun nofun trivial trivial, rfl⟩

end Interval

end Bitspan
