import DemandPlan.Proofs.Transparency

/-!
# Compilation preserves meaning

Calling a compiled plan gives the wanted names the values that they have by recursion on the
operations. It calls each required operation once and nothing else, and it does not look at
arguments that are no parameters.

* `Operation.Succeeds`: the implementation does not fail on the values of its inputs.
* `compile_preserves_meaning`: what calls of a compiled plan do.
-/

namespace DemandPlan

open Requirements

variable {V E : Type} {r : Registry V E} {hints wanted : List String} {args : Table V}

/-- The implementation does not fail on the values of its inputs. -/
def Operation.Succeeds (r : Registry V E) (hints : List String) (args : Table V)
    (op : Operation V E) : Prop :=
  ∀ vs, List.Forall₂ (fun i v => Evaluates r hints args i (.ok v)) op.inputs vs →
    ∃ v, op.outcome vs = .ok v

/-- If the parameters are there and no implementation fails, every name has a value. -/
theorem Solves.exists_ok {value : String → Except (Trouble E) V}
    (h : Solves r hints wanted args value) (ha : ∀ n ∈ (find r wanted hints).params, n ∈ args)
    (hs : ∀ op ∈ (find r wanted hints).operations, op.Succeeds r hints args) {n : String}
    (hn : Needed r hints wanted n) : ∃ v, value n = .ok v := by
  -- By induction on the dependencies, which have no cycle where values exist.
  have hg := (h n hn).grounded
  induction hg with
  | intro n _ ih =>
    cases hp : producer r hints n with
    | none =>
      have hparam := mem_params_iff.2 ⟨hn, hp⟩
      obtain ⟨v, hv⟩ := Table.mem_iff_exists_find?.1 (ha n hparam)
      exact ⟨v, h.param_eq hparam hv⟩
    | some op =>
      obtain rfl := output_of_producer hp
      have hop := mem_operations_iff.2 ⟨hn, hp⟩
      have hinputs : ∀ i ∈ op.inputs, ∃ v, value i = .ok v := fun i hi =>
        ih i ⟨op, hp, hi⟩ (.input hn ⟨op, hp, hi⟩)
      obtain ⟨vs, hvs⟩ := Outcome.mapM_ok_of_forall hinputs
      have hforall : List.Forall₂ (fun i v => Evaluates r hints args i (.ok v)) op.inputs vs :=
        Outcome.forall₂_imp_mem (Outcome.mapM_eq_ok_iff.1 hvs) fun i hi v hv =>
          hv ▸ h i (.input hn ⟨op, hp, hi⟩)
      obtain ⟨v, hv⟩ := hs op hop vs hforall
      refine ⟨v, ?_⟩
      rw [h.output_eq hop, hvs]
      show (op.outcome vs).mapError Trouble.failed = _
      rw [hv]
      rfl

namespace Planner

/-- **Compilation preserves meaning.** Let a planner that has answered any requests before compile a
plan. Arguments that are no parameters of the plan do not show. If all parameters are there and no
required implementation fails, a call of the plan gives the wanted names, each once and in the order
in which they first occur, with the values that they have by recursion on the operations; it is to
be waited for if the plan is asynchronous, and it calls each required operation once and nothing
else. -/
theorem compile_preserves_meaning (r : Registry V E) (config : Config)
    (before : List (Request V E)) {wanted hints : List String} {plan : Stamped (Plan V E)}
    {p p' : Planner V E} (hp : p = ({ registry := r, config } : Planner V E).after before)
    (h : (compile wanted hints).run.run p = (.ok plan, p')) (registered : List (Operation V E)) :
    (∀ args args' : Table V,
      (∀ n ∈ plan.value.record.params, args.find? n = args'.find? n) →
      plan.value.call registered args = plan.value.call registered args') ∧
    ∀ args : Table V, (∀ n ∈ plan.value.record.params, n ∈ args) →
      (∀ op ∈ (find p.registry wanted hints).operations, op.Succeeds p.registry hints args) →
      let i := plan.value.call registered args
      i.awaited = plan.value.record.isAsync ∧
      (∃ t, i.run.outcome = .ok t ∧ Answers p.registry hints wanted args t) ∧
      i.run.openings.Perm
        ((find p.registry wanted hints).operations.map Operation.openingEvent) := by
  have hplan := ofQuery_of_compile (hp ▸ coherent_after_of_fresh r config before) h
  refine ⟨fun args args' ha => Plan.call_congr hplan ha registered, fun args ha hs => ?_⟩
  have hneeds : SameNeeds p.registry hints (Names.distinct wanted) hints wanted :=
    sameNeeds_of_wanted fun n => Names.mem_distinct
  have hn := Names.distinct_nodup wanted
  obtain ⟨value, hv⟩ := exists_solution args (Plan.ofQuery_isOk_iff.1 ⟨_, hplan⟩)
  have hok : ∀ n, Needed p.registry hints (Names.distinct wanted) n → ∃ v, value n = .ok v :=
    fun n => hv.exists_ok (Plan.params_of_ofQuery hplan ▸ ha)
      fun op hop => hs op (hneeds.operations_perm.mem_iff.1 hop)
  have hanswers : Answers p.registry hints wanted args
      (Plan.valuesIn value (Names.distinct wanted)) :=
    answers_distinct_iff.1 (Plan.answers_valuesIn hv hn fun w hw => hok w (.wanted hw))
  have hout : (plan.value.call registered args).run.outcome =
      .ok (Plan.valuesIn value (Names.distinct wanted)) :=
    (Plan.outcome_call_eq_ok_iff hplan hn registered).2 (answers_distinct_iff.2 hanswers)
  refine ⟨?_, ⟨_, hout, hanswers⟩, ?_⟩
  · rw [Plan.call_of_params ha]
  · exact (Plan.openings_call_ofQuery hplan hn registered hout).trans
      (hneeds.operations_perm.map _)

/-- The theorem at a query for an output, which is asked for twice, and a raw input. -/
theorem compile_preserves_meaning_of_repeated :
    let twice : Operation Nat Unit :=
      { output := "b", inputs := ["a"], isAsync := false
        impl :=
          { label := "twice", style := .plain, pauses := 0, apply := fun vs => .ok (2 * vs.sum) } }
    let p : Planner Nat Unit := { registry := { operations := [twice] } }
    let args : Table Nat := { entries := [("a", 3), ("z", 7)] }
    ∃ plan p', (compile ["b", "a", "b"] []).run.run p = (.ok plan, p') ∧
      ∃ t, (plan.value.call [] args).run.outcome = .ok t ∧ t.keys = ["b", "a"] := by
  intro twice p args
  have hparams : (((compile ["b", "a", "b"] []).run.run p).1.toOption.map
      fun plan => plan.value.record.params) = some ["a"] := by cbv
  have hs : ∀ op ∈ (find p.registry ["b", "a", "b"] []).operations,
      op.Succeeds p.registry [] args := by
    intro op hop vs _
    obtain rfl := List.mem_singleton.1 (mem_registry hop)
    exact ⟨2 * vs.sum, rfl⟩
  generalize h : (compile ["b", "a", "b"] []).run.run p = result at hparams
  obtain ⟨_ | plan, p'⟩ := result
  · cases hparams
  · have hparams : plan.value.record.params = ["a"] := Option.some.inj hparams
    obtain ⟨-, hcall⟩ := compile_preserves_meaning p.registry {} [] rfl h []
    have ha : ∀ n ∈ plan.value.record.params, n ∈ args := by
      rw [hparams]
      decide
    obtain ⟨-, ⟨t, ht, hanswers⟩, -⟩ := hcall args ha hs
    exact ⟨plan, p', rfl, t, ht, hanswers.keys.trans (by decide)⟩

end Planner

end DemandPlan
