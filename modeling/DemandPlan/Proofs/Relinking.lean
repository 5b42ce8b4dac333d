import DemandPlan.Proofs.Declarations
import DemandPlan.Proofs.Linking
import DemandPlan.Proofs.Transparency

/-!
# Relinking compiled plans

The record of a compiled plan can be written down, loaded again and linked to another registry. If
this registry declares the query alike, the outcome is the plan that it would have compiled itself.

* `Record.check_laidOut`: the record of a schedule passes all checks.
* `Plan.link_laidOut`: linked to the operations of the schedule it is the plan of the schedule.
* `Planner.load_render_eq_compile`: loading a record is compiling the query again.
-/

namespace DemandPlan

open Requirements

variable {V E : Type}

namespace Record

variable {s : Schedule V E} {params returns : List String}

/-! ## The record of a schedule -/

theorem calls_asyncSteps (cs : List Call) :
    (asyncSteps cs).flatMap Step.calls = cs.map (·, true) := by
  match cs with
  | [] => rfl
  | [c] => rfl
  | c :: c' :: cs => exact List.append_nil _

theorem calls_stepsIn {names : List String} {w : Wave V E} (hg : w.Grouped) :
    (stepsIn names w).flatMap Step.calls =
      w.operations.map fun op => (callIn names op, op.isAsync) := by
  have hsync : (w.sync.map fun op => Step.invoke (callIn names op)).flatMap Step.calls =
      w.sync.map fun op => (callIn names op, op.isAsync) := by
    rw [List.flatMap_map, List.map_eq_flatMap]
    exact List.flatMap_congr fun op hop => by rw [hg.1 op hop]; rfl
  have hasync : (w.async.map (callIn names)).map (·, true) =
      w.async.map fun op => (callIn names op, op.isAsync) := by
    rw [List.map_map]
    exact List.map_congr_left fun op hop => by rw [Function.comp_apply, hg.2 op hop]
  rw [stepsIn, List.flatMap_append, hsync, calls_asyncSteps, hasync, ← List.map_append]
  rfl

/-- The record calls each operation of the schedule once, in order. -/
theorem calls_laidOut (hg : ∀ w ∈ s.waves, w.Grouped) :
    (laidOut s params returns).calls =
      s.operations.map fun op => (callIn (layoutNames s params) op, op.isAsync) := by
  have hwaves : (s.waves.flatMap (stepsIn (layoutNames s params))).flatMap Step.calls =
      s.operations.map fun op => (callIn (layoutNames s params) op, op.isAsync) := by
    rw [List.flatMap_assoc, Schedule.operations, List.map_flatMap]
    exact List.flatMap_congr fun w hw => calls_stepsIn (hg w hw)
  simp only [calls, laidOut, List.cons_append, List.flatMap_cons, List.flatMap_append, hwaves]
  simp [Step.calls]

theorem mem_calls_laidOut (hg : ∀ w ∈ s.waves, w.Grouped) {c : Call × Bool} :
    c ∈ (laidOut s params returns).calls ↔
      ∃ op ∈ s.operations, (callIn (layoutNames s params) op, op.isAsync) = c := by
  rw [calls_laidOut hg, List.mem_map]

theorem Complete.entries_formulas (h : Complete s params returns) :
    (laidOut s params returns).formulas.entries =
      s.operations.map fun op => (op.output, slotIn (layoutNames s params) op.output) := by
  have hentries := entries_numbered_append h.nodup
  rw [List.map_map] at hentries
  exact hentries

/-- **The record of a schedule** can be used. -/
theorem check_laidOut (h : Complete s params returns) (hg : ∀ w ∈ s.waves, w.Grouped) :
    (laidOut s params returns).check = .ok () := by
  refine check_eq_ok_iff.2 ⟨rfl, fun hs c hc => ?_, fun c hc => ?_⟩
  · obtain ⟨op, hop, rfl⟩ := (mem_calls_laidOut hg).1 hc.mem
    have hsync : s.operations.any Operation.isAsync = false :=
      (Schedule.isAsync_eq_any hg).symm.trans hs
    simpa using List.any_eq_false.1 hsync op hop
  · obtain ⟨op, hop, rfl⟩ := (mem_calls_laidOut hg).1 hc
    rw [Table.values, h.entries_formulas, List.map_map]
    exact List.mem_map.2 ⟨op, hop, rfl⟩

/-- A slot is called in the shape with which its operation is declared. -/
theorem shape_of_find?_laidOut (h : Complete s params returns) (hg : ∀ w ∈ s.waves, w.Grouped)
    {op : Operation V E} (hop : op ∈ s.operations) {shape : Shape}
    (hs : (laidOut s params returns).callShapes.find? (slotIn (layoutNames s params) op.output) =
      some shape) : shape = op.shape := by
  obtain ⟨c, hc, hslot, rfl⟩ := find?_callShapes_eq_some_iff.1 hs
  obtain ⟨op', hop', rfl⟩ := (mem_calls_laidOut hg).1 hc.mem
  have houtput : op'.output = op.output := (slotIn_inj (Complete.output_mem hop')).1 hslot
  obtain rfl : op' = op :=
    List.inj_on_of_nodup_map (List.nodup_append.1 h.nodup).2.1 hop' hop houtput
  simp [Call.shape, Operation.shape, callIn]

end Record

namespace Plan

variable {s : Schedule V E} {params returns : List String} {registry : Registry V E}

/-- Linked to the operations of its schedule, a record is the plan of the schedule. -/
theorem link_laidOut (h : Record.Complete s params returns) (hg : ∀ w ∈ s.waves, w.Grouped)
    (hops : ∀ op ∈ s.operations, registry.lookup op.output = some op) :
    link (Record.laidOut s params returns) registry = .ok (laidOut s params returns) := by
  refine link_of_links ?_
  rw [h.entries_formulas, List.map_map, List.map_map]
  exact List.map_congr_left fun op hop =>
    linkOne_eq_linked (hops op hop) fun _ => Record.shape_of_find?_laidOut h hg hop

/-- **Reloading.** The record of a compiled plan, written down in any layout, loads as this plan. -/
theorem load_render_ofQuery {wanted hints : List String} {plan : Plan V E}
    (h : ofQuery registry wanted hints = .ok plan) (l : Json.Layout) :
    load (.text (plan.record.render l)) registry = .ok plan := by
  obtain ⟨s, hs, rfl⟩ := ofQuery_eq_ok_iff.1 h
  obtain ⟨-, hperm, hg⟩ := Schedule.ofQuery_ok hs
  have hcomplete := Schedule.complete_ofQuery hs
  have hops : ∀ op ∈ s.operations, registry.lookup op.output = some op := fun op hop =>
    lookup_of_producer (mem_operations_iff.1 (hperm.mem_iff.1 hop)).2
  unfold load
  rw [show (laidOut s (find registry wanted hints).params wanted).record =
    Record.laidOut s (find registry wanted hints).params wanted from rfl,
    Record.load_text (Record.check_laidOut hcomplete hg) l]
  exact link_laidOut hcomplete hg hops

end Plan

namespace Planner

/-- **Relinking is compiling again.** Let a planner that has answered any requests before compile a
plan. Then its record, written down in any layout, loads as this plan. Let the registry of another
planner declare alike whatever the query reaches. Then the other planner compiles the query to the
same record, and the record that has been written down and is linked to its registry is the plan
that it compiles: every slot has the same implementation, and every call is answered alike. -/
theorem load_render_eq_compile (r r' : Registry V E) (config config' : Config)
    (before before' : List (Request V E)) {wanted hints : List String} {plan : Stamped (Plan V E)}
    {p p₁ p' : Planner V E} (hp : p = ({ registry := r, config } : Planner V E).after before)
    (hp' : p' = ({ registry := r', config := config' } : Planner V E).after before')
    (h : (compile wanted hints).run.run p = (.ok plan, p₁))
    (halike : AlikeFor p.registry p'.registry wanted hints) :
    (∀ l, Plan.load (.text (plan.value.record.render l)) p.registry = .ok plan.value) ∧
    ∃ plan' p₁', (compile wanted hints).run.run p' = (.ok plan', p₁') ∧
      plan'.value.record = plan.value.record ∧
      ∀ l, Plan.load (.text (plan.value.record.render l)) p'.registry = .ok plan'.value := by
  have hcoh : Coherent (fun _ => True) 0 p := hp ▸ coherent_after_of_fresh r config before
  have hcoh' : Coherent (fun _ => True) 0 p' := hp' ▸ coherent_after_of_fresh r' config' before'
  have hplan := ofQuery_of_compile hcoh h
  refine ⟨Plan.load_render_ofQuery hplan, ?_⟩
  have hrecord := Plan.record_ofQuery_congr (halike.of_wanted fun n => Names.mem_distinct.symm)
  rw [hplan] at hrecord
  cases hplan' : Plan.ofQuery p'.registry (Names.distinct wanted) hints with
  | error e => rw [hplan'] at hrecord; cases hrecord
  | ok q =>
    rw [hplan'] at hrecord
    have hrecord : plan.value.record = q.record := Except.ok.inj hrecord
    obtain ⟨plan', p₁', hrun, rfl⟩ := compile_of_ofQuery hcoh' hplan'
    refine ⟨plan', p₁', hrun, hrecord.symm, fun l => ?_⟩
    rw [hrecord]
    exact Plan.load_render_ofQuery hplan' l

/-- The theorem at a registry in another order, with other implementations and an output more. -/
theorem load_render_eq_compile_of_reordered :
    let double : Implementation Nat Unit :=
      { label := "double", style := .plain, pauses := 0, apply := fun vs => .ok (2 * vs.length) }
    let count : Implementation Nat Unit :=
      { label := "count", style := .coroutine, pauses := 1, apply := fun vs => .ok vs.length }
    let p : Planner Nat Unit :=
      { registry :=
          { operations :=
              [{ output := "b", inputs := ["a"], impl := double, isAsync := false },
                { output := "c", inputs := ["b", "b"], impl := count, isAsync := true }]
            nodup := by decide } }
    let p' : Planner Nat Unit :=
      { registry :=
          { operations :=
              [{ output := "c", inputs := ["b", "b"], impl := double, isAsync := true },
                { output := "z", inputs := [], impl := count, isAsync := false },
                { output := "b", inputs := ["a"], impl := count, isAsync := false }]
            nodup := by decide } }
    AlikeFor p.registry p'.registry ["c", "a"] [] ∧
    ∃ plan p₁ plan' p₁', (compile ["c", "a"] []).run.run p = (.ok plan, p₁) ∧
      (compile ["c", "a"] []).run.run p' = (.ok plan', p₁') ∧
      Plan.load (.text (plan.value.record.render .compact)) p'.registry = .ok plan'.value := by
  intro double count p p'
  have hmet : (reach p.registry [] ["c", "a"] []).map Prod.fst = ["c", "b", "a"] := by cbv
  have halike : AlikeFor p.registry p'.registry ["c", "a"] [] := by
    intro n hn _
    have hmem : n ∈ (reach p.registry [] ["c", "a"] []).map Prod.fst :=
      List.mem_map.2 ⟨(n, producer p.registry [] n), mem_reach_iff.2 ⟨hn, rfl⟩, rfl⟩
    have hdeclared : ∀ n ∈ ["c", "b", "a"], p.registry.DeclareAlike p'.registry n := by decide
    exact hdeclared n (hmet ▸ hmem)
  have hok : ((compile ["c", "a"] []).run.run p).1.toOption.isSome = true := by cbv
  generalize h : (compile ["c", "a"] []).run.run p = result at hok
  obtain ⟨_ | plan, p₁⟩ := result
  · cases hok
  · obtain ⟨-, plan', p₁', hrun, -, hload⟩ :=
      load_render_eq_compile p.registry p'.registry {} {} [] [] rfl rfl h halike
    exact ⟨halike, plan, p₁, plan', p₁', rfl, hrun, hload .compact⟩

end Planner

end DemandPlan
