import Bitspan.FixedInt.Checked
import Bitspan.Rejection

set_option autoImplicit false

/-!
# Calls of operators

The result of a call is its outcome and the records logged while it ran. A record is a line of text
with a level. A call fails by a rejection, which the operator declares, or by a fault of the
arithmetic under it. Sequencing stops at the first failure and keeps the records logged up to it.
-/

namespace Bitspan

/-! ## Log records -/

inductive Level where
  | error
  | warn
  | info
  | debug
  | trace
deriving DecidableEq

namespace Level

/-- The number grows with the amount of detail. -/
def detail : Level → Nat
  | error => 1
  | warn => 2
  | info => 3
  | debug => 4
  | trace => 5

def name : Level → String
  | error => "ERROR"
  | warn => "WARN"
  | info => "INFO"
  | debug => "DEBUG"
  | trace => "TRACE"

end Level

structure Record where
  level : Level
  text : String
deriving DecidableEq

def Record.line (r : Record) : String := r.level.name ++ " " ++ r.text

inductive Threshold where
  | off
  | upTo (level : Level)
deriving DecidableEq

namespace Threshold

def admits : Threshold → Record → Bool
  | off, _ => false
  | upTo level, r => r.level.detail ≤ level.detail

def parse? : String → Option Threshold
  | "off" => some off
  | "error" => some (upTo .error)
  | "warn" => some (upTo .warn)
  | "info" => some (upTo .info)
  | "debug" => some (upTo .debug)
  | "trace" => some (upTo .trace)
  | _ => none

end Threshold

/-! ## Outcomes -/

inductive Failure where
  | rejected (reason : Rejection)
  | fault (reason : Fault)
deriving DecidableEq

def Failure.message : Failure → String
  | rejected reason => reason.message
  | fault reason => reason.message

structure Call (α : Type) where
  outcome : Except Failure α
  records : List Record

namespace Call

variable {α β : Type}

@[ext] theorem ext {c d : Call α} (ho : c.outcome = d.outcome) (hr : c.records = d.records) :
    c = d := by
  cases c
  cases d
  cases ho
  cases hr
  rfl

def done (a : α) : Call α := ⟨.ok a, []⟩

def fail (f : Failure) : Call α := ⟨.error f, []⟩

def andThen (c : Call α) (f : α → Call β) : Call β :=
  match c.outcome with
  | .ok a => ⟨(f a).outcome, c.records ++ (f a).records⟩
  | .error e => ⟨.error e, c.records⟩

instance : Monad Call where
  pure := done
  bind := andThen

@[simp] theorem outcome_pure (a : α) : (pure a : Call α).outcome = .ok a := rfl

@[simp] theorem records_pure (a : α) : (pure a : Call α).records = [] := rfl

theorem outcome_bind (c : Call α) (f : α → Call β) :
    (c >>= f).outcome = c.outcome >>= fun a => (f a).outcome := by
  rcases c with ⟨_ | _, _⟩ <;> rfl

theorem outcome_bind_of_ok {c : Call α} {a : α} (h : c.outcome = .ok a) (f : α → Call β) :
    (c >>= f).outcome = (f a).outcome := by
  rw [outcome_bind, h]
  rfl

theorem outcome_bind_of_error {c : Call α} {e : Failure} (h : c.outcome = .error e)
    (f : α → Call β) : (c >>= f).outcome = .error e := by
  rw [outcome_bind, h]
  rfl

theorem bind_of_ok {c : Call α} {a : α} (h : c.outcome = .ok a) (f : α → Call β) :
    c >>= f = ⟨(f a).outcome, c.records ++ (f a).records⟩ := by
  change andThen c f = _
  simp [andThen, h]

theorem bind_assoc {γ : Type} (c : Call α) (f : α → Call β) (g : β → Call γ) :
    c >>= f >>= g = c >>= fun a => f a >>= g := by
  rcases c with ⟨e | a, rc⟩
  · rfl
  · rw [bind_of_ok rfl f, bind_of_ok rfl fun a => f a >>= g]
    rcases hf : f a with ⟨e | b, rb⟩
    · rfl
    · rw [bind_of_ok rfl g, bind_of_ok rfl g]
      simp

instance : LawfulMonad Call := LawfulMonad.mk' Call
  (by
    rintro α ⟨_ | a, _⟩
    · rfl
    · change andThen _ (fun a => done a) = _
      simp [andThen, done])
  (by
    intro α β a f
    change andThen (done a) f = _
    simp [andThen, done])
  (by
    intro α β γ c f g
    exact bind_assoc c f g)

/-- The outcome of an arithmetic step, which logs nothing. -/
def checked (c : Checked α) : Call α :=
  match c with
  | .ok a => done a
  | .error f => fail (.fault f)

@[simp] theorem checked_ok (a : α) : checked (.ok a) = pure a := rfl

@[simp] theorem records_checked (c : Checked α) : (checked c).records = [] := by
  cases c <;> rfl

theorem checked_bind (c : Checked α) (f : α → Checked β) :
    checked (c >>= f) = checked c >>= fun a => checked (f a) := by
  cases c with
  | ok a => exact (pure_bind a fun a => checked (f a)).symm
  | error f => rfl

theorem outcome_bind_eq_ok_iff {c : Call α} {f : α → Call β} {r : β} :
    (c >>= f).outcome = .ok r ↔ ∃ a, c.outcome = .ok a ∧ (f a).outcome = .ok r := by
  rw [outcome_bind]
  cases c.outcome with
  | ok a =>
    change (f a).outcome = .ok r ↔ _
    simp
  | error e =>
    change (Except.error e : Except Failure β) = .ok r ↔ _
    simp

theorem outcome_checked_eq_ok_iff {c : Checked α} {a : α} :
    (checked c).outcome = .ok a ↔ c = .ok a := by
  cases c <;> simp [checked, done, fail]

theorem outcome_checked_eq_error_iff {c : Checked α} {e : Failure} :
    (checked c).outcome = .error e ↔ ∃ f, e = .fault f ∧ c = .error f := by
  cases c <;> simp [checked, done, fail, eq_comm]

def log (level : Level) (text : String) : Call Unit := ⟨.ok (), [⟨level, text⟩]⟩

/-- A rejection with one debug record that shows the arguments. -/
def reject (reason : Rejection) (text : String) : Call α :=
  ⟨.error (.rejected reason), [⟨.debug, text⟩]⟩

/-- A rejection that leaves no record. -/
def rejectSilently (reason : Rejection) : Call α := fail (.rejected reason)

@[simp] theorem outcome_reject (reason : Rejection) (text : String) :
    (reject reason text : Call α).outcome = .error (.rejected reason) := rfl

/-- No arithmetic under the call faults; it may still reject its arguments. -/
def Faultless (c : Call α) : Prop := ∀ f, c.outcome ≠ .error (.fault f)

theorem faultless_of_rejected {c : Call α} {r : Rejection} (h : c.outcome = .error (.rejected r)) :
    c.Faultless := by
  intro f hf
  rw [h] at hf
  cases hf

theorem faultless_of_ok {c : Call α} {a : α} (h : c.outcome = .ok a) : c.Faultless := by
  intro f hf
  rw [h] at hf
  cases hf

theorem faultless_pure (a : α) : (pure a : Call α).Faultless :=
  faultless_of_ok rfl

theorem faultless_reject (r : Rejection) (text : String) : (reject r text : Call α).Faultless :=
  faultless_of_rejected rfl

/-- The failures of a call that rejects under one condition and else succeeds. -/
theorem outcome_eq_error_iff_of_guard {c : Call α} {r : Rejection} {p : Prop}
    (hp : p → c.outcome = .error (.rejected r)) (hok : ¬ p → ∃ a, c.outcome = .ok a)
    (e : Failure) : c.outcome = .error e ↔ e = .rejected r ∧ p := by
  by_cases h : p
  · rw [hp h, Except.error.injEq, eq_comm, and_iff_left h]
  · obtain ⟨a, ha⟩ := hok h
    rw [ha]
    simp [h]

/-- The failures of a call that rejects under one condition, else under another, else succeeds. -/
theorem outcome_eq_error_iff_of_guards {c : Call α} {first second : Rejection} {p q : Prop}
    (hp : p → c.outcome = .error (.rejected first))
    (hq : ¬ p → q → c.outcome = .error (.rejected second))
    (hok : ¬ p → ¬ q → ∃ a, c.outcome = .ok a) (e : Failure) :
    c.outcome = .error e ↔ e = .rejected first ∧ p ∨ e = .rejected second ∧ ¬ p ∧ q := by
  by_cases h : p
  · rw [hp h, Except.error.injEq, eq_comm]
    simp [h]
  by_cases h' : q
  · rw [hq h h', Except.error.injEq, eq_comm]
    simp [h, h']
  · obtain ⟨a, ha⟩ := hok h h'
    rw [ha]
    simp [h, h']

theorem faultless_of_rejection {c : Call α} {r : Rejection} {p : Prop}
    (h : ∀ e, c.outcome = .error e ↔ e = .rejected r ∧ p) : c.Faultless := by
  intro f hf
  have he := ((h _).1 hf).1
  cases he

theorem faultless_of_rejections {c : Call α} {first second : Rejection} {p q : Prop}
    (h : ∀ e, c.outcome = .error e ↔ e = .rejected first ∧ p ∨ e = .rejected second ∧ q) :
    c.Faultless := by
  intro f hf
  rcases (h _).1 hf with ⟨he, _⟩ | ⟨he, _⟩
  · cases he
  · cases he

end Call

end Bitspan
