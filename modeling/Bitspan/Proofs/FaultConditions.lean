import Mathlib.Data.Int.Notation
import Mathlib.Logic.Basic
import Bitspan.Call

set_option autoImplicit false

/-!
# The condition of a fault

The faults of a call are stated as one condition on its arguments: when it holds the call faults by
the overflow of one sort of step, and by nothing else. Such conditions add up along a sequence of
steps.
-/

namespace Bitspan.Call

variable {α β : Type} {t : IntType} {c : Call α} {step : ArithmeticStep} {p q : Prop}

/-- The call faults exactly when `p` holds, and then by the overflow of `step`. -/
def FaultsBy (c : Call α) (step : ArithmeticStep) (p : Prop) : Prop :=
  ∀ f, c.outcome = .error (.fault f) ↔ f = .overflow step ∧ p

theorem FaultsBy.congr (h : c.FaultsBy step p) (hpq : p ↔ q) : c.FaultsBy step q := by
  intro f
  rw [h f, hpq]

theorem FaultsBy.exists_step (h : c.FaultsBy step p) (f : Fault) :
    c.outcome = .error (.fault f) ↔ ∃ s, f = .overflow s ∧ s = step ∧ p := by
  rw [h f]
  constructor
  · rintro ⟨rfl, hp⟩
    exact ⟨step, rfl, rfl, hp⟩
  · rintro ⟨_, rfl, rfl, hp⟩
    exact ⟨rfl, hp⟩

theorem FaultsBy.faultless (h : c.FaultsBy step p) (hp : ¬ p) : c.Faultless :=
  fun f hf => hp ((h f).1 hf).2

theorem Faultless.faultsBy (h : c.Faultless) (hp : ¬ p) : c.FaultsBy step p :=
  fun f => iff_of_false (h f) fun hf => hp hf.2

theorem faultsBy_fit (step : ArithmeticStep) (v : ℤ) :
    (checked (FixedInt.fit step v : Checked (FixedInt t))).FaultsBy step (¬ t.Fits v) := by
  intro f
  rw [outcome_checked_eq_error_iff, ← FixedInt.fit_eq_error_iff]
  constructor
  · rintro ⟨_, hd, h⟩
    cases hd
    exact h
  · intro h
    exact ⟨f, rfl, h⟩

theorem faultless_fit {v : ℤ} (step : ArithmeticStep) (h : t.Fits v) :
    (checked (FixedInt.fit step v : Checked (FixedInt t))).Faultless :=
  (faultsBy_fit step v).faultless (not_not.2 h)

/-- A step of arithmetic cannot reject, so what follows it faults or the step itself does. -/
theorem FaultsBy.bind {c : Checked α} {g : α → Call β} (hc : (checked c).FaultsBy step p)
    (hg : ∀ a, c = .ok a → (g a).FaultsBy step q) :
    (checked c >>= g).FaultsBy step (p ∨ q) := by
  intro f
  cases c with
  | ok a =>
    have hp : ¬ p := fun hp => nomatch (hc (.overflow step)).2 ⟨rfl, hp⟩
    rw [checked_ok, pure_bind, hg a rfl f, or_iff_right hp]
  | error d =>
    obtain ⟨rfl, hp⟩ := (hc d).1 rfl
    rw [outcome_bind_of_error rfl]
    simp [hp, eq_comm]

theorem FaultsBy.fit_bind {v : ℤ} {g : FixedInt t → Call β}
    (hg : ∀ a, a.val = v → (g a).FaultsBy step q) :
    (checked (FixedInt.fit step v) >>= g).FaultsBy step (¬ t.Fits v ∨ q) :=
  (faultsBy_fit step v).bind fun a ha => hg a (FixedInt.fit_eq_ok_iff.1 ha)

end Bitspan.Call
