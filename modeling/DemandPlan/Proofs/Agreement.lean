import DemandPlan.Proofs.Evaluation
import DemandPlan.Proofs.Transparency

/-!
# Plans agree with direct evaluation

A plan and an evaluation without a plan go through the operations in different orders, and they
refuse cycles and missing arguments in different ways. They give an answer to the same queries, and
it is the same answer.

* `calculate_agrees_evaluate`: the two ways to compute the wanted outputs.
-/

namespace DemandPlan.Planner

open Requirements

variable {V E : Type}

/-- What a new planner calculates. -/
theorem calculate_fresh (r : Registry V E) (config : Config) (wanted : List String)
    (args : Table V) : ((calculate wanted args).run { registry := r, config }).1 =
      invoked r.operations args
        ((Plan.ofQuery r (Names.distinct wanted) args.keys).mapError .reported) := by
  obtain ⟨x, p', hrun, hx, hregistry⟩ := planFor_fresh r config wanted args.keys
  simp only [calculate_run, hrun, hx, hregistry]

/-- **Plans agree with direct evaluation.** If no operation that the query needs is asynchronous, a
new planner calculates a table just in case direct evaluation gives this table, with the same names
in the same order. Then both have called each operation of the query once and nothing else. -/
theorem calculate_agrees_evaluate (r : Registry V E) (config : Config) (wanted : List String)
    (args : Table V)
    (hsync : ∀ op ∈ (find r wanted args.keys).operations, op.isAsync = false) :
    let i := ((calculate wanted args).run { registry := r, config }).1
    let direct := Evaluation.evaluate r wanted args
    ∀ t, ((i.awaited = false ∧ i.run.outcome = .ok t) ↔ direct.outcome = .ok t) ∧
      (direct.outcome = .ok t →
        i.run.openings.Perm
            ((find r wanted args.keys).operations.map Operation.openingEvent) ∧
          direct.openings.Perm
            ((find r wanted args.keys).operations.map Operation.openingEvent)) := by
  intro i direct t
  have hneeds : SameNeeds r args.keys (Names.distinct wanted) args.keys wanted :=
    sameNeeds_of_wanted fun n => Names.mem_distinct
  have hn := Names.distinct_nodup wanted
  have hdirect : direct.outcome = .ok t ↔ Answers r args.keys wanted args t :=
    Evaluation.outcome_evaluate_eq_ok_iff hsync
  have hi : i = invoked r.operations args _ := calculate_fresh r config wanted args
  cases hplan : Plan.ofQuery r (Names.distinct wanted) args.keys with
  | error e =>
    rw [hplan] at hi
    have hnot : ¬Answers r args.keys wanted args t := by
      intro h
      obtain ⟨plan, hok⟩ := Plan.exists_ofQuery_of_answers (answers_distinct_iff.2 h)
      cases hplan.symm.trans hok
    rw [hdirect, hi]
    exact ⟨iff_of_false (fun h => nomatch h.2) hnot, fun h => absurd h hnot⟩
  | ok plan =>
    rw [hplan] at hi
    have hcall : i.run.outcome = .ok t ↔ Answers r args.keys wanted args t := by
      rw [hi, ← answers_distinct_iff]
      exact Plan.outcome_call_eq_ok_iff hplan hn r.operations
    -- An awaitable is all that a call of an asynchronous plan gives, so this is where `hsync` is
    -- used.
    have hawaited : i.run.outcome = .ok t → i.awaited = false := by
      intro h
      rw [hi] at h ⊢
      have hparams := Plan.params_of_outcome_eq_ok h
      show (plan.call r.operations args).awaited = false
      rw [Plan.call_of_params hparams, Plan.isAsync_of_ofQuery hplan]
      refine List.any_eq_false.2 fun op hop => ?_
      simp [hsync op (hneeds.operations_perm.mem_iff.1 hop)]
    rw [hdirect, ← hcall]
    refine ⟨⟨fun h => h.2, fun h => ⟨hawaited h, h⟩⟩, fun h => ⟨?_, ?_⟩⟩
    · rw [hi] at h ⊢
      exact (Plan.openings_call_ofQuery hplan hn r.operations h).trans
        (hneeds.operations_perm.map _)
    · exact Evaluation.openings_evaluate (hdirect.2 (hcall.1 h))

/-- The theorem at a query whose intermediate result is read twice. -/
theorem calculate_agrees_evaluate_of_shared :
    let add (output : String) (inputs : List String) : Operation Nat Unit :=
      { output, inputs, isAsync := false
        impl := { label := output, style := .plain, pauses := 0, apply := fun vs => .ok vs.sum } }
    let r : Registry Nat Unit :=
      { operations := [add "b" ["a", "a"], add "c" ["b", "b"]], nodup := by decide }
    let args : Table Nat := { entries := [("a", 1)] }
    let i := ((calculate ["c", "b"] args).run { registry := r }).1
    i.awaited = false ∧ i.run.outcome = .ok { entries := [("c", 4), ("b", 2)] } := by
  intro add r args i
  have hsync : ∀ op ∈ (find r ["c", "b"] args.keys).operations, op.isAsync = false := by
    intro op hop
    have hmem := mem_registry hop
    simp only [r, List.mem_cons, List.not_mem_nil, or_false] at hmem
    rcases hmem with rfl | rfl <;> rfl
  have hdirect : (Evaluation.evaluate r ["c", "b"] args).outcome =
      .ok { entries := [("c", 4), ("b", 2)] } := by cbv
  exact (calculate_agrees_evaluate r {} ["c", "b"] args hsync _).1.2 hdirect

end DemandPlan.Planner
