import Bitspan.Proofs.Operators

set_option autoImplicit false

/-!
# Soundness of whole computations

A computation is a tree of operators over intervals. Beside its evaluation by intervals stands the
relation `Value`: one member is taken from each leaf and the exact operators are applied node by
node. Where the evaluation fails at no node, every node has a non-empty interval that encloses all
its values. Nothing is said about trees in which some node fails.
-/

namespace Bitspan

variable {b : BoundType}

inductive Expr (b : BoundType) where
  | leaf (x : Interval b)
  | unary (op : UnaryOp) (e : Expr b)
  | binary (op : BinaryOp) (e f : Expr b)

namespace Expr

def eval : Expr b → Call (Interval b)
  | leaf x => pure x
  | unary op e => do
    let x ← e.eval
    op.apply x
  | binary op e f => do
    let x ← e.eval
    let y ← f.eval
    op.apply x y

/-- A possible exact value: some member of each leaf, combined node by node. -/
inductive Value : Expr b → ℤ → Prop
  | leaf {x : Interval b} {v : ℤ} (hv : v ∈ x) : Value (leaf x) v
  | unary {op : UnaryOp} {e : Expr b} {a r : ℤ} (he : Value e a) (hr : op.Result a r) :
      Value (unary op e) r
  | binary {op : BinaryOp} {e f : Expr b} {a c r : ℤ} (he : Value e a) (hf : Value f c)
      (hr : op.Result a c r) : Value (binary op e f) r

def nodes : Expr b → List (Expr b)
  | leaf x => [leaf x]
  | unary op e => unary op e :: e.nodes
  | binary op e f => binary op e f :: (e.nodes ++ f.nodes)

/-- No leaf is empty, and operands tagged as unsigned evaluate to no negative lower bound. -/
def Admissible : Expr b → Prop
  | leaf x => x.isEmpty = false
  | unary _ e => e.Admissible
  | binary op e f => e.Admissible ∧ f.Admissible ∧
      ∀ x y, e.eval.outcome = .ok x → f.eval.outcome = .ok y → op.Suits x y

theorem eval_encloses {e : Expr b} {z : Interval b} (h : e.Admissible)
    (he : e.eval.outcome = .ok z) : z.Encloses {v | e.Value v} := by
  -- By induction on the tree; that no operand is empty carries the operators' lemmas upward.
  induction e generalizing z with
  | leaf x =>
    cases he
    refine ⟨h, ?_⟩
    rintro v ⟨hv⟩
    exact hv
  | unary op e ih =>
    obtain ⟨x, hx, hop⟩ := Call.outcome_bind_eq_ok_iff.1 he
    have below := ih h hx
    have here := UnaryOp.apply_encloses below.nonempty hop
    refine ⟨here.nonempty, ?_⟩
    rintro v (_ | ⟨ha, hr⟩)
    exact here.mem v ⟨_, below.mem _ ha, hr⟩
  | binary op e f ihe ihf =>
    obtain ⟨x, hx, hrest⟩ := Call.outcome_bind_eq_ok_iff.1 he
    obtain ⟨y, hy, hop⟩ := Call.outcome_bind_eq_ok_iff.1 hrest
    have left := ihe h.1 hx
    have right := ihf h.2.1 hy
    have here := BinaryOp.apply_encloses left.nonempty right.nonempty (h.2.2 x y hx hy) hop
    refine ⟨here.nonempty, ?_⟩
    rintro v (_ | _ | ⟨ha, hc, hr⟩)
    exact here.mem v ⟨_, left.mem _ ha, _, right.mem _ hc, hr⟩

theorem node_of_eval {e d : Expr b} {z : Interval b} (h : e.Admissible)
    (he : e.eval.outcome = .ok z) (hd : d ∈ e.nodes) :
    d.Admissible ∧ ∃ w, d.eval.outcome = .ok w := by
  induction e generalizing z with
  | leaf x =>
    rw [nodes, List.mem_singleton] at hd
    subst hd
    exact ⟨h, z, he⟩
  | unary op e ih =>
    obtain ⟨x, hx, _⟩ := Call.outcome_bind_eq_ok_iff.1 he
    rw [nodes, List.mem_cons] at hd
    rcases hd with rfl | hd
    · exact ⟨h, z, he⟩
    · exact ih h hx hd
  | binary op e f ihe ihf =>
    obtain ⟨x, hx, hrest⟩ := Call.outcome_bind_eq_ok_iff.1 he
    obtain ⟨y, hy, _⟩ := Call.outcome_bind_eq_ok_iff.1 hrest
    rw [nodes, List.mem_cons, List.mem_append] at hd
    rcases hd with rfl | hd | hd
    · exact ⟨h, z, he⟩
    · exact ihe h.1 hx hd
    · exact ihf h.2.1 hy hd

/-- Where the evaluation fails at no node, the interval of every node is not empty and encloses all
exact values of the node, which therefore fit. -/
theorem nodes_enclose_values (e : Expr b) (h : e.Admissible) {z : Interval b}
    (he : e.eval.outcome = .ok z) :
    ∀ d ∈ e.nodes, ∃ w, d.eval.outcome = .ok w ∧ w.isEmpty = false ∧
      ∀ v, d.Value v → v ∈ w ∧ b.intType.Fits v := by
  intro d hd
  obtain ⟨hadm, w, hw⟩ := node_of_eval h he hd
  have henc := eval_encloses hadm hw
  refine ⟨w, hw, henc.nonempty, ?_⟩
  intro v hv
  have hmem := henc.mem v hv
  exact ⟨hmem, Interval.fits_of_mem hmem⟩

def mixedSigns : Expr .int8 :=
  binary .mux (unary .sqrt (leaf (.between 15 100)))
    (binary (.modulo .signed)
      (binary (.mul .signed .unsigned) (leaf (.between (-3) 4)) (leaf (.between 2 5)))
      (binary (.div .signed .signed) (leaf (.between (-40) 35)) (leaf (.between (-5) (-2)))))

theorem admissible_mixedSigns : mixedSigns.Admissible := by
  have product : (binary (.mul .signed .unsigned) (leaf (.between (-3) 4))
      (leaf (.between 2 5)) : Expr .int8).Admissible := by
    refine ⟨rfl, rfl, ?_⟩
    intro x y hx hy
    cases hx
    cases hy
    exact ⟨by decide, by decide⟩
  have quotient : (binary (.div .signed .signed) (leaf (.between (-40) 35))
      (leaf (.between (-5) (-2))) : Expr .int8).Admissible :=
    ⟨rfl, rfl, fun _ _ _ _ => ⟨nofun, nofun⟩⟩
  exact ⟨rfl, ⟨product, quotient, fun _ _ _ _ => nofun⟩, fun _ _ _ _ => trivial⟩

theorem nodes_enclose_values_mixedSigns :
    mixedSigns.Admissible ∧ mixedSigns.eval.outcome = .ok (.between (-20) 20) ∧
      ∀ d ∈ mixedSigns.nodes, ∃ w, d.eval.outcome = .ok w ∧ w.isEmpty = false ∧
        ∀ v, d.Value v → v ∈ w ∧ BoundType.int8.intType.Fits v := by
  have he : mixedSigns.eval.outcome = .ok (.between (-20) 20) := by decide +kernel
  exact ⟨admissible_mixedSigns, he, nodes_enclose_values mixedSigns admissible_mixedSigns he⟩

end Expr

end Bitspan
