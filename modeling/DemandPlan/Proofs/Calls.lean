import DemandPlan.Proofs.Pruning

/-!
# Compiling and calling at once

A plan that is compiled anew depends on the registry that the planner has at this moment, and not on
anything that the planner has been asked before. So queries over one registry can be compared
without saying which planner compiles them, and when.

* `Planner.Over`: a planner that has answered any requests and has a given registry now.
* `Planner.Over.exists_plan_iff`, `Planner.Over.reportsCycle_iff`: a query is compiled, or it is
  refused for a name that is not computed in finitely many steps.
* `Planner.compileAndCall`: what comes of a plan that is compiled and called at once.
* `Planner.Over.outcome_eq_ok_iff`, `Planner.Over.openings_perm`: it gives the answer to the query
  and nothing else, and calls each operation of the query once.
-/

namespace DemandPlan

open Requirements

variable {V E : Type} {r : Registry V E} {hints wanted : List String} {args t : Table V}

namespace Planner

variable {p : Planner V E}

/-- A planner that has answered any requests, and whose registry is now `r`. -/
def Over (r : Registry V E) (p : Planner V E) : Prop :=
  p.registry = r ∧ ∃ (r₀ : Registry V E) (config : Config) (before : List (Request V E)),
    p = ({ registry := r₀, config } : Planner V E).after before

/-- Compiling a query is refused for a cycle. -/
def ReportsCycle (p : Planner V E) (wanted hints : List String) : Prop :=
  ∃ outputs, ((compile wanted hints).run.run p).1 = .error (.reported (.cycle outputs))

/-- What comes of a plan that is compiled for a query and called at once. -/
def compileAndCall (p : Planner V E) (wanted hints : List String) (args : Table V) :
    Invocation V E :=
  invoked p.registry.operations args
    (((compile wanted hints).run.run p).1.map Stamped.value)

namespace Over

theorem coherent (h : Over r p) : Coherent (fun _ => True) 0 p := by
  obtain ⟨-, r₀, config, before, rfl⟩ := h
  exact coherent_after_of_fresh r₀ config before

theorem compile_eq (h : Over r p) (wanted hints : List String) :
    ((compile wanted hints).run.run p).1.map Stamped.value =
      (Plan.ofQuery r (Names.distinct wanted) hints).mapError .reported := by
  obtain ⟨x, p', hrun, hx, -⟩ := compile_spec h.coherent wanted hints
  rw [hrun, ← h.1]
  exact hx

theorem ofQuery_of_ok (h : Over r p) {plan : Stamped (Plan V E)}
    (hx : ((compile wanted hints).run.run p).1 = .ok plan) :
    Plan.ofQuery r (Names.distinct wanted) hints = .ok plan.value :=
  h.1 ▸ ofQuery_of_compile h.coherent (Prod.ext hx rfl)

theorem exists_plan_iff (h : Over r p) :
    (∃ plan, ((compile wanted hints).run.run p).1 = .ok plan) ↔
      ∀ n, Needed r hints wanted n → Grounded r hints n := by
  have hplan : (∃ plan, Plan.ofQuery r (Names.distinct wanted) hints = .ok plan) ↔
      ∀ n, Needed r hints wanted n → Grounded r hints n := by
    rw [Plan.ofQuery_isOk_iff]
    exact forall_congr' fun n => by rw [needed_distinct_iff]
  rw [← hplan]
  constructor
  · rintro ⟨plan, hx⟩
    exact ⟨plan.value, h.ofQuery_of_ok hx⟩
  · rintro ⟨q, hq⟩
    have hc := h.compile_eq wanted hints
    rw [hq] at hc
    obtain ⟨plan, hx, -⟩ := Outcome.exists_of_map_eq_ok hc
    exact ⟨plan, hx⟩

/-- A query that is not compiled is refused for a cycle. -/
theorem reportsCycle_iff (h : Over r p) : ReportsCycle p wanted hints ↔
    ¬∀ n, Needed r hints wanted n → Grounded r hints n := by
  rw [← h.exists_plan_iff]
  constructor
  · rintro ⟨outputs, hx⟩ ⟨plan, hok⟩
    cases hx.symm.trans hok
  · intro hno
    obtain ⟨e, hx, hq⟩ | ⟨plan, hok, -⟩ :=
      Outcome.cases_of_map_eq_mapError (h.compile_eq wanted hints)
    · obtain ⟨outputs, rfl⟩ := Plan.ofQuery_error hq
      exact ⟨Names.sorted outputs, hx⟩
    · exact absurd ⟨plan, hok⟩ hno

/-- **Compiling and calling** gives the answer to the query and nothing else. -/
theorem outcome_eq_ok_iff (h : Over r p) :
    (compileAndCall p wanted hints args).run.outcome = .ok t ↔ Answers r hints wanted args t := by
  rw [compileAndCall, h.compile_eq]
  cases hq : Plan.ofQuery r (Names.distinct wanted) hints with
  | ok plan =>
    rw [← answers_distinct_iff]
    exact Plan.outcome_call_eq_ok_iff hq (Names.distinct_nodup wanted) _
  | error e =>
    refine iff_of_false (fun hout => nomatch hout) fun ha => ?_
    obtain ⟨plan, hok⟩ := Plan.exists_ofQuery_of_answers (answers_distinct_iff.2 ha)
    cases hq.symm.trans hok

/-- If it gives an answer, each operation of the query has been called once. -/
theorem openings_perm (h : Over r p)
    (ht : (compileAndCall p wanted hints args).run.outcome = .ok t) :
    (compileAndCall p wanted hints args).run.openings.Perm
      ((find r wanted hints).operations.map Operation.openingEvent) := by
  have hneeds : SameNeeds r hints (Names.distinct wanted) hints wanted :=
    sameNeeds_of_wanted fun _ => Names.mem_distinct
  rw [compileAndCall, h.compile_eq] at ht ⊢
  cases hq : Plan.ofQuery r (Names.distinct wanted) hints with
  | error e => rw [hq] at ht; cases ht
  | ok plan =>
    rw [hq] at ht
    exact (Plan.openings_call_ofQuery hq (Names.distinct_nodup wanted) _ ht).trans
      (hneeds.operations_perm.map _)

end Over

end Planner

end DemandPlan
