import DemandPlan.Proofs.Transparency

/-!
# Pruning by hints

The hints of a query come to its plan in two ways: the walk stops at them, and the layering takes
them as available. All that shows of them in the end are the parameters. So queries for the same
names that have the same parameters can share a plan, however different their hints are.

* `find_congr_of_needed`, `ofOperations_congr_of_needed`: hints that the walk does not meet do not
  matter, neither to it nor to the layering.
* `find_params_as_hints`: the parameters of a query are hints enough for it.
* `Planner.compile_shares`: compiled plans of queries with the same parameters.
-/

namespace DemandPlan

open Requirements

variable {V E : Type} {r : Registry V E} {hints wanted hints' wanted' : List String}

/-! ## Hints that count -/

namespace Requirements

/-- Of the hints, those count that the walk meets. -/
theorem find_congr_of_needed (h : ∀ n, Needed r hints wanted n → (n ∈ hints ↔ n ∈ hints')) :
    find r wanted hints' = find r wanted hints := by
  refine find_congr fun n hn => ?_
  unfold producer
  simp only [h n hn]

/-- The parameters of a query are hints enough for it: with them, the walk stops where it has
stopped before. -/
theorem find_params_as_hints (r : Registry V E) (wanted hints : List String) :
    find r wanted (find r wanted hints).params = find r wanted hints := by
  refine find_congr fun n hn => ?_
  have hmem : n ∈ (find r wanted hints).params ↔ producer r hints n = none := by
    rw [mem_params_iff, and_iff_right hn]
  by_cases hp : producer r hints n = none
  · rw [hp, producer_of_mem_hints (hmem.2 hp)]
  · rw [producer_of_not_mem_hints (mt hmem.1 hp),
      producer_of_not_mem_hints (mt producer_of_mem_hints hp)]

end Requirements

/-- The layering takes all hints as available, but those count that the walk meets. -/
theorem Schedule.ofOperations_congr_of_needed
    (h : ∀ n, Needed r hints wanted n → (n ∈ hints ↔ n ∈ hints')) :
    ofOperations (find r wanted hints).operations ((find r wanted hints).params ++ hints') =
      ofOperations (find r wanted hints).operations ((find r wanted hints).params ++ hints) := by
  refine ofOperations_congr (List.Perm.refl _) outputs_nodup fun op hop i hi => ?_
  obtain ⟨hn, hp⟩ := mem_operations_iff.1 hop
  rw [List.mem_append, List.mem_append, h i (.input hn ⟨op, hp, hi⟩)]

/-! ## Compiled plans -/

namespace Plan

theorem ofQuery_error {e : Error} (h : ofQuery r wanted hints = .error e) :
    ∃ outputs, e = .cycleAmong outputs := by
  cases hs : Schedule.ofQuery r wanted hints with
  | ok s => rw [ofQuery, hs] at h; cases h
  | error e' =>
    rw [ofQuery, hs] at h
    obtain ⟨outputs, he, -⟩ := Schedule.ofQuery_error hs
    exact ⟨outputs, (Except.error.inj h).symm.trans he⟩

theorem ofQuery_congr_of_needed (h : ∀ n, Needed r hints wanted n → (n ∈ hints ↔ n ∈ hints')) :
    ofQuery r wanted hints' = ofQuery r wanted hints := by
  rw [ofQuery, ofQuery, Schedule.ofQuery, find_congr_of_needed h,
    Schedule.ofOperations_congr_of_needed h]
  rfl

end Plan

namespace Planner

/-- Compilations that come to the same: both are refused for the same cycle, or they give plans that
differ in the order of their outputs only. -/
inductive CompiledAlike :
    Except (Failure E) (Stamped (Plan V E)) → Except (Failure E) (Stamped (Plan V E)) → Prop
  | cycle (outputs : List String) : CompiledAlike (.error (.reported (.cycleAmong outputs)))
    (.error (.reported (.cycleAmong outputs)))
  | plans {plan plan' : Stamped (Plan V E)} (alike : plan.value.Alike plan'.value) :
    CompiledAlike (.ok plan) (.ok plan')

/-- Queries with the same needs are compiled alike. -/
theorem compiledAlike_of_sameNeeds {x y : Except (Failure E) (Stamped (Plan V E))}
    (h : SameNeeds r hints wanted hints' wanted') (hn : wanted.Nodup) (hp : wanted.Perm wanted')
    (hx : x.map Stamped.value = (Plan.ofQuery r wanted hints).mapError .reported)
    (hy : y.map Stamped.value = (Plan.ofQuery r wanted' hints').mapError .reported) :
    CompiledAlike x y := by
  obtain ⟨e, hq, hq'⟩ | ⟨q, q', hq, hq', hshared⟩ := (Plan.ofQuery_agree h hn hp).cases
  · obtain ⟨outputs, rfl⟩ := Plan.ofQuery_error hq
    rw [hq] at hx
    rw [hq'] at hy
    rw [Outcome.eq_of_map_eq_error hx, Outcome.eq_of_map_eq_error hy]
    exact .cycle outputs
  · rw [hq] at hx
    rw [hq'] at hy
    obtain ⟨plan, rfl, rfl⟩ := Outcome.exists_of_map_eq_ok hx
    obtain ⟨plan', rfl, rfl⟩ := Outcome.exists_of_map_eq_ok hy
    exact .plans hshared.alike

/-- **Queries can share a plan.** Let two planners have the same registry, whatever they have been
asked before. Queries for the same names, in any order and with any repetition, that have the same
parameters need the same operations and are compiled alike. The parameters of a query are hints
enough for it. Hints that the walk does not meet can be left out or put in: the requirements, the
schedule and the compiled plan stay as they are. -/
theorem compile_shares (r r' : Registry V E) (config config' : Config)
    (before before' : List (Request V E)) :
    let p := ({ registry := r, config } : Planner V E).after before
    let p' := ({ registry := r', config := config' } : Planner V E).after before'
    p'.registry = p.registry →
    (∀ wanted hints wanted' hints' : List String, (∀ n, n ∈ wanted ↔ n ∈ wanted') →
      (find p.registry wanted hints).params = (find p.registry wanted' hints').params →
      (find p.registry wanted hints).operations.Perm (find p.registry wanted' hints').operations ∧
      CompiledAlike ((compile wanted hints).run.run p).1
        ((compile wanted' hints').run.run p').1) ∧
    (∀ wanted hints : List String,
      find p.registry wanted (find p.registry wanted hints).params =
        find p.registry wanted hints) ∧
    ∀ wanted hints hints' : List String,
      (∀ m ∈ reach p.registry hints wanted [], m.1 ∈ hints ↔ m.1 ∈ hints') →
      let q := find p.registry wanted hints
      find p.registry wanted hints' = q ∧
      Schedule.ofOperations q.operations (q.params ++ hints') =
        Schedule.ofOperations q.operations (q.params ++ hints) ∧
      ((compile wanted hints').run.run p').1.map Stamped.value =
        ((compile wanted hints).run.run p).1.map Stamped.value := by
  intro p p' hr
  have hcoh : Coherent (fun _ => True) 0 p := coherent_after_of_fresh r config before
  have hcoh' : Coherent (fun _ => True) 0 p' := coherent_after_of_fresh r' config' before'
  have hspec (wanted hints : List String) := compile_spec hcoh wanted hints
  have hspec' (wanted hints : List String) := hr ▸ compile_spec hcoh' wanted hints
  refine ⟨fun wanted hints wanted' hints' hw hparams => ⟨?_, ?_⟩,
    find_params_as_hints p.registry, fun wanted hints hints' hmet => ?_⟩
  · exact (sameNeeds_of_params hw fun n => by rw [hparams]).operations_perm
  · obtain ⟨x, p₁, hrun, hx, -⟩ := hspec wanted hints
    obtain ⟨y, p₂, hrun', hy, -⟩ := hspec' wanted' hints'
    rw [hrun, hrun']
    have hset : ∀ n, n ∈ Names.distinct wanted ↔ n ∈ Names.distinct wanted' := fun n => by
      rw [Names.mem_distinct, Names.mem_distinct, hw n]
    refine compiledAlike_of_sameNeeds (sameNeeds_of_params hset fun n => ?_)
      (Names.distinct_nodup wanted) ?_ hx hy
    · rw [params_find_distinct, params_find_distinct, hparams]
    · exact (List.perm_ext_iff_of_nodup (Names.distinct_nodup _) (Names.distinct_nodup _)).2 hset
  · have hneeded : ∀ n, Needed p.registry hints wanted n → (n ∈ hints ↔ n ∈ hints') :=
      fun n hn => hmet (n, producer p.registry hints n) (mem_reach_iff.2 ⟨hn, rfl⟩)
    refine ⟨find_congr_of_needed hneeded, Schedule.ofOperations_congr_of_needed hneeded, ?_⟩
    obtain ⟨x, p₁, hrun, hx, -⟩ := hspec wanted hints
    obtain ⟨y, p₂, hrun', hy, -⟩ := hspec' wanted hints'
    rw [hrun, hrun', hx, hy, Plan.ofQuery_congr_of_needed fun n hn => hneeded n ?_]
    exact (needed_congr fun _ => Names.mem_distinct).1 hn

/-- The theorem at queries that are cut off at the same name: by a hint of its own, by this hint
next to one behind it, and next to one that belongs to no operation. -/
theorem compile_shares_of_cut :
    let op (output : String) (inputs : List String) (isAsync : Bool) : Operation Nat Unit :=
      { output, inputs, isAsync
        impl :=
          { label := output, style := .plain, pauses := 0, apply := fun vs => .ok vs.sum } }
    let r : Registry Nat Unit :=
      { operations := [op "d" ["c", "b"] false, op "b" ["a"] false, op "c" ["x"] true]
        nodup := by decide }
    let p : Planner Nat Unit := { registry := r }
    let p' := p.after [.calculate ["d"] { entries := [("a", 1), ("x", 2)] }]
    (find r ["d", "c"] ["b"]).operations.Perm
        (find r ["c", "d", "c"] ["a", "b", "b"]).operations ∧
      (∃ plan plan', ((compile ["d", "c"] ["b"]).run.run p).1 = .ok plan ∧
        ((compile ["c", "d", "c"] ["a", "b", "b"]).run.run p').1 = .ok plan' ∧
        plan.value.record.returns = ["d", "c"] ∧ plan'.value.record.returns = ["c", "d"] ∧
        plan.value.Alike plan'.value) ∧
      find r ["d", "c"] ["b", "z"] = find r ["d", "c"] ["b"] := by
  intro op r p p'
  have hreturns : (((compile ["d", "c"] ["b"]).run.run p).1.toOption.map
      fun plan => plan.value.record.returns) = some ["d", "c"] := by cbv
  have hreturns' : (((compile ["c", "d", "c"] ["a", "b", "b"]).run.run p').1.toOption.map
      fun plan => plan.value.record.returns) = some ["c", "d"] := by
    unfold p'
    cbv
  have hreach : ((reach r ["b"] ["d", "c"] []).map Prod.fst) = ["d", "c", "x", "b"] := by cbv
  obtain ⟨hshare, -, hmet⟩ := compile_shares r r {} {} []
    [.calculate ["d"] { entries := [("a", 1), ("x", 2)] }] (by cbv)
  obtain ⟨hperm, halike⟩ := hshare ["d", "c"] ["b"] ["c", "d", "c"] ["a", "b", "b"]
    (by simp [or_comm]) (by cbv)
  refine ⟨hperm, ?_, (hmet ["d", "c"] ["b"] ["b", "z"] fun m hm => ?_).1⟩
  · change CompiledAlike ((compile ["d", "c"] ["b"]).run.run p).1
      ((compile ["c", "d", "c"] ["a", "b", "b"]).run.run p').1 at halike
    generalize ((compile ["d", "c"] ["b"]).run.run p).1 = x at halike hreturns
    generalize ((compile ["c", "d", "c"] ["a", "b", "b"]).run.run p').1 = y at halike hreturns'
    cases halike with
    | cycle outputs => cases hreturns
    | plans halike =>
      exact ⟨_, _, rfl, rfl, Option.some.inj hreturns, Option.some.inj hreturns', halike⟩
  · have hname : m.1 ∈ (reach r ["b"] ["d", "c"] []).map Prod.fst := List.mem_map_of_mem hm
    rw [hreach] at hname
    simp only [List.mem_cons, List.not_mem_nil, or_false] at hname
    rcases hname with h | h | h | h <;> simp [h]

end Planner

end DemandPlan
