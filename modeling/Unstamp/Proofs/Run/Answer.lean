import Unstamp.Run.Basic

namespace Unstamp.Run
variable {es fs : List Event}

theorem mem_reports {r : Report} : r ∈ (Result.swept es).reports ↔ .report r ∈ es := by
  rw [Result.reports, List.mem_filterMap]
  constructor
  · rintro ⟨e, he, hr⟩
    cases e with
    | report r' =>
      cases hr
      exact he
    | notice n => cases hr
  · intro h
    exact ⟨_, h, rfl⟩

theorem mem_notices {n : Notice} : n ∈ (Result.swept es).notices ↔ .notice n ∈ es := by
  rw [Result.notices, List.mem_filterMap]
  constructor
  · rintro ⟨e, he, hn⟩
    cases e with
    | report r => cases hn
    | notice n' =>
      cases hn
      exact he
  · intro h
    exact ⟨_, h, rfl⟩

def Faultless (es : List Event) : Prop :=
  ∀ n, .notice n ∈ es → n.isError = false

theorem faultless_append : Faultless (es ++ fs) ↔ Faultless es ∧ Faultless fs := by
  simp only [Faultless, List.mem_append, or_imp, forall_and]

theorem faultless_iff_any :
    Faultless es ↔ (Result.swept es).notices.any Notice.isError = false := by
  simp only [Faultless, List.any_eq_false, mem_notices, Bool.not_eq_true]

theorem faultless_of_answer {result : Result} {check : Bool} {reports : List Report}
    (h : result.answer check = .ok reports) :
    ∃ es, result = .swept es ∧ Faultless es := by
  cases result with
  | refused fault => cases h
  | swept es =>
    refine ⟨es, rfl, faultless_iff_any.mpr ?_⟩
    rw [Bool.eq_false_iff]
    intro hany
    rw [Result.answer, Result.failure?, if_pos hany] at h
    cases h

/-- A run that was not refused answers, with all its reports, unless a notice is an error or a check
tells of a change. -/
theorem answer_eq_ok_iff {check : Bool} {reports : List Report} :
    (Result.swept es).answer check = .ok reports ↔
      Faultless es ∧ ¬ (check = true ∧ ∃ r ∈ (Result.swept es).reports, r.changed = true) ∧
        (Result.swept es).reports = reports := by
  have hchanges : (∃ r ∈ (Result.swept es).reports, r.changed = true) ↔
      0 < (Result.swept es).changes := List.countP_pos_iff.symm
  rw [faultless_iff_any, hchanges, Result.answer, Result.failure?]
  cases (Result.swept es).notices.any Notice.isError with
  | true => simp
  | false =>
    by_cases hc : check = true ∧ 0 < (Result.swept es).changes
    · simp [hc]
    · simp [hc]

/-- A check without an error answers by the number of changes that it found. -/
theorem answer_check (h : Faultless es) :
    (Result.swept es).answer true =
      if 0 < (Result.swept es).changes then .error (.wouldChange (Result.swept es).changes)
      else .ok (Result.swept es).reports := by
  rw [Result.answer, Result.failure?, faultless_iff_any.mp h]
  by_cases hc : 0 < (Result.swept es).changes
  · simp [hc]
  · simp [hc]

theorem reports_append :
    (Result.swept (es ++ fs)).reports = (Result.swept es).reports ++ (Result.swept fs).reports :=
  List.filterMap_append

theorem changes_append :
    (Result.swept (es ++ fs)).changes = (Result.swept es).changes + (Result.swept fs).changes := by
  rw [Result.changes, reports_append, List.countP_append]
  rfl

/-- A warning of lost lines is no error. -/
theorem faultless_reportEvents (file : Text) (c : Cleaner) (cleaned : Cleaned) :
    Faultless (reportEvents file c cleaned) := by
  unfold reportEvents
  split
  · simp [Faultless, Notice.isError]
  · simp [Faultless]

theorem reports_reportEvents (file : Text) (c : Cleaner) (cleaned : Cleaned) :
    (Result.swept (reportEvents file c cleaned)).reports =
      [⟨file, c.name, cleaned.outcome, cleaned.changed⟩] := by
  unfold reportEvents
  split
  · rename_i h
    rw [h]
    rfl
  · rfl

theorem changes_reportEvents (file : Text) (c : Cleaner) (cleaned : Cleaned) :
    (Result.swept (reportEvents file c cleaned)).changes = if cleaned.changed then 1 else 0 := by
  rw [Result.changes, reports_reportEvents, List.countP_singleton]

structure Quiet (es : List Event) : Prop where
  faultless : Faultless es
  unchanged : ∀ r, .report r ∈ es → r.changed = false

namespace Quiet

theorem nil : Quiet [] :=
  ⟨nofun, nofun⟩

theorem append (he : Quiet es) (hf : Quiet fs) : Quiet (es ++ fs) := by
  constructor
  · exact faultless_append.mpr ⟨he.faultless, hf.faultless⟩
  · intro r hr
    exact (List.mem_append.mp hr).elim (he.unchanged r) (hf.unchanged r)

theorem reportEvents (file : Text) (c : Cleaner) {cleaned : Cleaned}
    (h : cleaned.changed = false) : Quiet (reportEvents file c cleaned) := by
  refine ⟨faultless_reportEvents file c cleaned, ?_⟩
  intro r hr
  rw [← mem_reports, reports_reportEvents, List.mem_singleton] at hr
  rw [hr]
  exact h

/-- Events like these make a run answer, be it a check or not. -/
theorem answer (h : Quiet es) (check : Bool) :
    ∃ reports, (Result.swept es).answer check = .ok reports ∧
      ∀ r ∈ reports, r.changed = false := by
  have hr : ∀ r ∈ (Result.swept es).reports, r.changed = false :=
    fun r hr => h.unchanged r (mem_reports.mp hr)
  have hany := faultless_iff_any.mp h.faultless
  have hzero : (Result.swept es).changes = 0 := by
    rw [Result.changes, List.countP_eq_zero]
    intro r hr'
    rw [hr r hr']
    exact Bool.false_ne_true
  refine ⟨_, ?_, hr⟩
  rw [Result.answer, Result.failure?, hany, hzero]
  simp

end Quiet

end Unstamp.Run
