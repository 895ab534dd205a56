import Bitspan.Proofs.Faults

set_option autoImplicit false

/-!
# Records of a request

A rejection is declared by one debug record and an answer about widths by one trace record, and a
request logs nothing else. The exception is a number of bits whose values do not fit the bound
type: it is rejected without a record. `Call.Reports` is the contract of the calls that a request
is made of, and sequencing keeps it.
-/

namespace Bitspan

variable {b : BoundType}

namespace Call

variable {α β : Type} {c : Call α} {g : α → Call β} {silent p : Prop} {levels : List Level}

/-- An answer comes with records of the given levels and a rejection with one debug record. Only
where `silent` holds may a width that overflows be rejected without a record. -/
inductive Reports (silent : Prop) (levels : List Level) : Call α → Prop where
  | answered (a : α) (records : List Record) (h : records.map Record.level = levels) :
    Reports silent levels ⟨.ok a, records⟩
  | rejected (reason : Rejection) (text : String) :
    Reports silent levels ⟨.error (.rejected reason), [⟨.debug, text⟩]⟩
  | tooWide (width : ℕ) (h : silent) :
    Reports silent levels ⟨.error (.rejected (.widthOverflow width)), []⟩
  | faulted (reason : Fault) (records : List Record) :
    Reports silent levels ⟨.error (.fault reason), records⟩

theorem reports_pure (a : α) : (pure a : Call α).Reports silent [] :=
  .answered a [] rfl

theorem reports_reject (reason : Rejection) (text : String) :
    (reject reason text : Call α).Reports silent levels :=
  .rejected reason text

theorem reports_checked (c : Checked α) : (checked c).Reports silent [] := by
  cases c with
  | ok a => exact .answered a [] rfl
  | error f => exact .faulted f []

theorem reports_log (level : Level) (text : String) : (log level text).Reports silent [level] :=
  .answered () _ rfl

/-- What runs before the last logging step of a call leaves no record of its own. -/
theorem Reports.bind (hc : c.Reports silent []) (hg : ∀ a, (g a).Reports silent levels) :
    (c >>= g).Reports silent levels := by
  cases hc with
  | answered a records h =>
    rw [List.map_eq_nil_iff] at h
    rw [h]
    exact hg a
  | rejected reason text => exact .rejected reason text
  | tooWide width h => exact .tooWide width h
  | faulted reason records => exact .faulted reason records

/-- The call is arithmetic alone: it leaves no record and rejects nothing. -/
def Quiet (c : Call α) : Prop := ∃ k, checked k = c

theorem Reports.bind_quiet (hc : c.Reports silent levels) (hg : ∀ a, (g a).Quiet) :
    (c >>= g).Reports silent levels := by
  cases hc with
  | answered a records h =>
    obtain ⟨k, hk⟩ := hg a
    rw [bind_of_ok rfl, ← hk, records_checked, List.append_nil]
    cases k with
    | ok z => exact .answered z records h
    | error f => exact .faulted f records
  | rejected reason text => exact .rejected reason text
  | tooWide width h => exact .tooWide width h
  | faulted reason records => exact .faulted reason records

theorem quiet_pure (a : α) : (pure a : Call α).Quiet := ⟨.ok a, rfl⟩

theorem quiet_checked_bind {k : Checked α} (hg : ∀ a, (g a).Quiet) : (checked k >>= g).Quiet := by
  choose f hf using hg
  exact ⟨k >>= f, by simp only [checked_bind, hf]⟩

/-- The failures of a call tell whether it may have been rejected without a record. -/
theorem Reports.silent_of_imp (hc : c.Reports silent levels)
    (h : ∀ w, c.outcome = .error (.rejected (.widthOverflow w)) → p) : c.Reports p levels := by
  cases hc with
  | answered a records hr => exact .answered a records hr
  | rejected reason text => exact .rejected reason text
  | tooWide width _ => exact .tooWide width (h width rfl)
  | faulted reason records => exact .faulted reason records

end Call

/-! ## The operators -/

theorem FixedInt.reports_ceilLog {t : IntType} {silent : Prop} (v : FixedInt t) :
    v.ceilLog.Reports silent [] := by
  unfold ceilLog
  split
  · exact Call.reports_reject _ _
  · exact (Call.reports_checked _).bind fun _ => Call.reports_pure _

namespace Interval

variable {silent : Prop}

theorem reports_rejectKinds {α : Type} {levels : List Level} (op : Operator) (kinds : List Kind) :
    (rejectKinds op kinds : Call α).Reports silent levels :=
  Call.reports_reject _ _

theorem reports_div (x y : Interval b) (kx ky : Kind) : (x.div y kx ky).Reports silent [] := by
  unfold div
  split
  · exact Call.reports_reject _ _
  split
  · exact Call.reports_reject _ _
  split
  · exact Call.reports_checked _
  · exact Call.reports_checked _
  · exact reports_rejectKinds _ _

theorem reports_modulo (x y : Interval b) (kx : Kind) : (x.modulo y kx).Reports silent [] := by
  refine (Call.reports_checked _).bind fun limit => ?_
  cases kx with
  | unsigned => exact Call.reports_pure _
  | signed =>
    exact (Call.reports_checked _).bind fun _ => (Call.reports_checked _).bind fun _ =>
      Call.reports_pure _
  | signedPositive | signedNegative => exact reports_rejectKinds _ _

theorem reports_power (x : Interval b) (n : ℕ) : (x.power n).Reports silent [] := by
  unfold power
  split
  · exact Call.reports_checked _
  split
  · exact Call.reports_checked _
  · exact Call.reports_reject _ _

theorem reports_sqrt (x : Interval b) : x.sqrt.Reports silent [] := by
  unfold sqrt
  split
  · exact Call.reports_checked _
  · exact Call.reports_reject _ _

theorem reports_relationalSet (x y : Interval b) : (x.relationalSet y).Reports silent [] := by
  unfold relationalSet
  split
  · exact Call.reports_reject _ _
  · exact Call.reports_pure _

theorem reports_compare (x y : Interval b) (c : Comparison) :
    (x.compare y c).Reports silent [] := by
  unfold compare
  split
  · exact Call.reports_reject _ _
  · exact Call.reports_pure _

theorem reports_bitWidth (x : Interval b) (k : Kind) : (x.bitWidth k).Reports silent [.trace] := by
  unfold bitWidth
  split
  · exact Call.reports_reject _ _
  cases k with
  | unsigned | signed =>
    exact (Call.reports_checked _).bind fun count => count.reports_ceilLog.bind fun _ =>
      (Call.reports_log _ _).bind_quiet fun _ => Call.quiet_pure _
  | signedPositive | signedNegative => exact Call.reports_reject _ _

theorem reports_isBalanced (x : Interval b) (k : Kind) :
    (x.isBalanced k).Reports silent [.trace] := by
  refine (reports_bitWidth x k).bind_quiet fun n => ?_
  refine Call.quiet_checked_bind fun _ => Call.quiet_checked_bind fun _ => ?_
  split
  · exact Call.quiet_pure _
  · exact Call.quiet_checked_bind fun _ => Call.quiet_pure _

theorem reports_narrow (v : FixedInt .wide) (width : ℕ) :
    (narrow v width : Call (Bound b)).Reports True [] := by
  unfold narrow
  split
  · exact .tooWide width trivial
  · exact Call.reports_pure _

theorem reports_balanceUnsigned (x : Interval b) : x.balanceUnsigned.Reports True [] :=
  x.upper.reports_ceilLog.bind fun _ => (Call.reports_checked _).bind fun _ =>
    (Call.reports_checked _).bind fun _ => (reports_narrow _ _).bind fun _ => Call.reports_pure _

theorem reports_balanceSigned (x : Interval b) : x.balanceSigned.Reports True [] :=
  (Call.reports_checked _).bind fun upper => upper.reports_ceilLog.bind fun _ =>
    (Call.reports_checked _).bind fun lower => lower.reports_ceilLog.bind fun _ =>
    (Call.reports_checked _).bind fun _ => (Call.reports_checked _).bind fun _ =>
    (reports_narrow _ _).bind fun _ => (Call.reports_checked _).bind fun _ =>
    (reports_narrow _ _).bind fun _ => Call.reports_pure _

/-- The bounds of a balanced interval always fit, so the reduction of a bound is never rejected. -/
theorem reports_balance (x : Interval b) (k : Kind) : (x.balance k).Reports silent [] := by
  have h : (x.balance k).Reports True [] := by
    unfold balance
    split
    · exact reports_balanceUnsigned x
    split
    · exact reports_balanceSigned x
    · exact Call.reports_reject _ _
  refine h.silent_of_imp fun w hw => ?_
  rcases (balance_eq_error_iff x k _).1 hw with ⟨he, -⟩ | ⟨he, -⟩
  · cases he
  · cases he

/-- The number of bits is supported, but the bounds of its values do not fit the bound type. -/
def TooWide (b : BoundType) (n : ℕ) (k : Kind) : Prop :=
  ¬ (n = 0 ∨ maxBitWidth < n) ∧
    ¬ (b.intType.Fits (k.leastOf n) ∧ b.intType.Fits (k.greatestOf n))

theorem ofBitWidth_of_tooWide {n : ℕ} {k : Kind} (h : TooWide b n k) :
    (ofBitWidth n k : Call (Interval b)) = .rejectSilently (.widthOverflow n) := by
  rw [ofBitWidth, if_neg h.1, widthBounds_of_not_fits h.2]
  rfl

theorem reports_ofBitWidth (b : BoundType) (n : ℕ) (k : Kind) :
    (ofBitWidth n k : Call (Interval b)).Reports (TooWide b n k) [.trace] := by
  by_cases hn : n = 0 ∨ maxBitWidth < n
  · rw [ofBitWidth, if_pos hn]
    exact Call.reports_reject _ _
  by_cases hfit : b.intType.Fits (k.leastOf n) ∧ b.intType.Fits (k.greatestOf n)
  · rw [ofBitWidth, if_neg hn, widthBounds_of_fits hfit.1 hfit.2, pure_bind]
    exact (Call.reports_log _ _).bind_quiet fun _ => Call.quiet_pure _
  · rw [ofBitWidth_of_tooWide ⟨hn, hfit⟩]
    exact .tooWide n ⟨hn, hfit⟩

end Interval

/-! ## Requests -/

namespace Request

def TooWide : Request b → Prop
  | univ n k | ofBitWidth n k => Interval.TooWide b n k
  | _ => False

/-- The answer is about the width of an interval and is logged. -/
def logsAnswer : Request b → Bool
  | univ _ _ | ofBitWidth _ _ | bitWidth _ _ | isBalanced _ _ => true
  | _ => false

def answerLevels (q : Request b) : List Level := if q.logsAnswer then [.trace] else []

theorem reports (q : Request b) : q.run.Reports q.TooWide q.answerLevels := by
  cases q with
  | div x y kx ky => exact Interval.reports_div x y kx ky
  | modulo x y kx => exact Interval.reports_modulo x y kx
  | power x n => exact Interval.reports_power x n
  | sqrt x => exact Interval.reports_sqrt x
  | complement x => exact Call.reports_reject _ _
  | relationalSet x y => exact Interval.reports_relationalSet x y
  | compare x y c => exact Interval.reports_compare x y c
  | univ n k | ofBitWidth n k => exact Interval.reports_ofBitWidth b n k
  | bitWidth x k => exact Interval.reports_bitWidth x k
  | balance x k => exact Interval.reports_balance x k
  | isBalanced x k => exact Interval.reports_isBalanced x k
  | ceilLog v => exact v.reports_ceilLog

theorem run_of_tooWide {q : Request b} (h : q.TooWide) :
    ∃ n, q.run = .rejectSilently (.widthOverflow n) := by
  cases q with
  | univ n k | ofBitWidth n k => exact ⟨n, Interval.ofBitWidth_of_tooWide h⟩
  | _ => exact h.elim

end Request

namespace Call

variable {α : Type} {c : Call α} {silent : Prop} {levels : List Level}

/-- The number of records of a level. -/
def count (c : Call α) (level : Level) : ℕ := (c.records.map Record.level).count level

theorem Reports.outcome_iff_count (hc : c.Reports silent levels) (hf : c.Faultless)
    (hs : ¬ silent) (hl : .debug ∉ levels) :
    ((∃ r, c.outcome = .error (.rejected r)) ↔ c.count .debug = 1) ∧
      ((∃ a, c.outcome = .ok a) ↔ c.count .debug = 0) := by
  cases hc with
  | answered a records h =>
    have hcount : count ⟨.ok a, records⟩ .debug = 0 := by
      rw [count, h, List.count_eq_zero]
      exact hl
    rw [hcount]
    simp
  | rejected reason text =>
    have hcount : count (⟨.error (.rejected reason), [⟨.debug, text⟩]⟩ : Call α) .debug = 1 := rfl
    rw [hcount]
    simp
  | tooWide width h => exact absurd h hs
  | faulted reason records => exact absurd rfl (hf reason)

theorem Reports.count_of_ne_debug (hc : c.Reports silent levels) (hf : c.Faultless) (level : Level)
    (hl : level ≠ .debug) :
    (∃ a, c.outcome = .ok a) ∧ c.count level = levels.count level ∨
      (¬ ∃ a, c.outcome = .ok a) ∧ c.count level = 0 := by
  cases hc with
  | answered a records h => exact .inl ⟨⟨a, rfl⟩, congrArg (List.count level) h⟩
  | rejected reason text =>
    refine .inr ⟨nofun, ?_⟩
    change [Level.debug].count level = 0
    rw [List.count_eq_zero, List.mem_singleton]
    exact hl
  | tooWide width h => exact .inr ⟨nofun, rfl⟩
  | faulted reason records => exact absurd rfl (hf reason)

end Call

namespace Request

theorem count_answerLevels (q : Request b) {level : Level} (hl : level ≠ .trace) :
    q.answerLevels.count level = 0 := by
  unfold answerLevels
  split
  · rw [List.count_eq_zero, List.mem_singleton]
    exact hl
  · rfl

theorem count_trace (q : Request b) (h : q.run.Faultless) :
    (q.logsAnswer = true ∧ ∃ a, q.run.outcome = .ok a) ∧ q.run.count .trace = 1 ∨
      ¬ (q.logsAnswer = true ∧ ∃ a, q.run.outcome = .ok a) ∧ q.run.count .trace = 0 := by
  rcases q.reports.count_of_ne_debug h .trace (by decide) with ⟨hok, hcount⟩ | ⟨hok, hcount⟩
  · cases hlog : q.logsAnswer with
    | true =>
      rw [answerLevels, if_pos hlog] at hcount
      exact .inl ⟨⟨rfl, hok⟩, hcount⟩
    | false =>
      rw [answerLevels, hlog] at hcount
      exact .inr ⟨nofun, hcount⟩
  · exact .inr ⟨fun hlog => hok hlog.2, hcount⟩

theorem count_trace_iff (q : Request b) (h : q.run.Faultless) :
    (q.run.count .trace = 1 ↔ q.logsAnswer = true ∧ ∃ a, q.run.outcome = .ok a) ∧
      (q.run.count .trace = 0 ↔ ¬ (q.logsAnswer = true ∧ ∃ a, q.run.outcome = .ok a)) := by
  rcases q.count_trace h with ⟨hlogged, hone⟩ | ⟨hsilent, hzero⟩
  · rw [hone]
    exact ⟨iff_of_true rfl hlogged, iff_of_false nofun (not_not.2 hlogged)⟩
  · rw [hzero]
    exact ⟨iff_of_false nofun hsilent, iff_of_true rfl hsilent⟩

/-- One debug record tells of a rejection and none of an answer, except that a width whose values
do not fit is rejected silently; a trace record is that of an answer about widths; and there are no
other records. -/
theorem records_tell_outcome (q : Request b) (h : q.run.Faultless) :
    (¬ q.TooWide →
      ((∃ r, q.run.outcome = .error (.rejected r)) ↔ q.run.count .debug = 1) ∧
      ((∃ a, q.run.outcome = .ok a) ↔ q.run.count .debug = 0)) ∧
    (q.TooWide → ∃ n, q.run = .rejectSilently (.widthOverflow n)) ∧
    (q.run.count .trace = 1 ↔ q.logsAnswer = true ∧ ∃ a, q.run.outcome = .ok a) ∧
    (q.run.count .trace = 0 ↔ ¬ (q.logsAnswer = true ∧ ∃ a, q.run.outcome = .ok a)) ∧
    ∀ level, level ≠ .debug → level ≠ .trace → q.run.count level = 0 := by
  obtain ⟨hone, hzero⟩ := q.count_trace_iff h
  refine ⟨?_, run_of_tooWide, hone, hzero, ?_⟩
  · intro hwide
    exact q.reports.outcome_iff_count h hwide fun hmem =>
      absurd (q.count_answerLevels (by decide)) (List.count_pos_iff.2 hmem).ne'
  · intro level hd ht
    rcases q.reports.count_of_ne_debug h level hd with ⟨-, hcount⟩ | ⟨-, hcount⟩
    · rw [hcount, q.count_answerLevels ht]
    · exact hcount

/-- Eight bits with a sign are answered, and logged, for eight-bit bounds; without one they are
rejected silently. A root of negative values is rejected with a debug record. -/
theorem records_tell_outcome_eight_bits :
    (ofBitWidth 8 .signed : Request .int8).run.count .trace = 1 ∧
    (∃ n, (ofBitWidth 8 .unsigned : Request .int8).run = .rejectSilently (.widthOverflow n)) ∧
    (sqrt (.between (-4) 9) : Request .int8).run.count .debug = 1 := by
  have hsigned : (ofBitWidth 8 .signed : Request .int8).run.outcome = .ok (.between (-128) 127) :=
    rfl
  have hroot : (sqrt (.between (-4) 9) : Request .int8).run.outcome =
      .error (.rejected (.outsideDomain .sqrt)) := rfl
  obtain ⟨-, -, logged, -⟩ := records_tell_outcome (ofBitWidth 8 .signed : Request .int8)
    (Call.faultless_of_ok hsigned)
  obtain ⟨-, silent, -⟩ := records_tell_outcome (ofBitWidth 8 .unsigned : Request .int8)
    (Call.faultless_of_rejected (r := .widthOverflow 8) rfl)
  obtain ⟨declared, -⟩ := records_tell_outcome (sqrt (.between (-4) 9) : Request .int8)
    (Call.faultless_of_rejected hroot)
  exact ⟨logged.2 ⟨rfl, _, hsigned⟩, silent ⟨by decide, by decide⟩, (declared nofun).1.1 ⟨_, hroot⟩⟩

/-- The values of eight bits without a sign do not fit eight-bit bounds, and no record says so. -/
theorem silent_rejection :
    (ofBitWidth 8 .unsigned : Request .int8).run.outcome =
      .error (.rejected (.widthOverflow 8)) ∧
    (ofBitWidth 8 .unsigned : Request .int8).run.records = [] ∧
    ¬ ∀ q : Request .int8, q.run.Faultless →
      ((∃ r, q.run.outcome = .error (.rejected r)) ↔ q.run.count .debug = 1) := by
  have hreject : (ofBitWidth 8 .unsigned : Request .int8).run.outcome =
      .error (.rejected (.widthOverflow 8)) := rfl
  refine ⟨hreject, rfl, fun h => ?_⟩
  have hcount := (h _ (Call.faultless_of_rejected hreject)).1 ⟨_, hreject⟩
  cases hcount

end Request

end Bitspan
