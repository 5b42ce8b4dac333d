import DemandPlan.Proofs.Body
import DemandPlan.Proofs.History
import DemandPlan.Proofs.Relinking

/-!
# Reports of missing arguments

A call that lacks parameters is refused with two lists: the missing names, which come from the
record of the plan, and the blocked outputs, which come from the registry as it is at that moment.
As long as the registry is the one that the plan was compiled for, the second list explains the
first: a name is a parameter because it was asked for or because an operation of the plan reads it.

* `mem_wanted_or_read`: why a walk comes to a name.
* `mem_blockedOutputs_iff`: the outputs that read a missing name themselves.
* `Plan.Computes`, `Plan.computes_of_mem`: the plan of a query computes the operations that the
  query needs.
* `Plan.Explains`, `Plan.explains_of_ofQuery`: what a report says.
* `Planner.missing_arguments_explained`: the report of a compiled plan.
-/

namespace DemandPlan

open Requirements

variable {V E : Type} {r : Registry V E} {wanted hints : List String} {plan : Plan V E}
  {op : Operation V E}

/-! ## Why a name is a parameter -/

namespace Requirements

theorem params_ascending (r : Registry V E) (wanted hints : List String) :
    (find r wanted hints).params.Pairwise (· < ·) :=
  Names.pairwise_lt params_nodup (Names.sorted_pairwise _)

/-- A needed name is wanted, or an operation of the query reads it. -/
theorem mem_wanted_or_read {name : String} (h : Needed r hints wanted name) :
    name ∈ wanted ∨ ∃ op ∈ (find r wanted hints).operations, name ∈ op.inputs := by
  cases h with
  | wanted hw => exact .inl hw
  | input hn hr =>
    obtain ⟨op, hp, hi⟩ := hr
    exact .inr ⟨op, mem_operations_of_producer hn hp, hi⟩

end Requirements

/-! ## Blocked outputs -/

/-- The blocked outputs are in the order of registration. -/
theorem blockedOutputs_sublist (r : Registry V E) (missing : List String) :
    (blockedOutputs r.operations missing).Sublist r.names :=
  List.filter_sublist.map _

theorem mem_blockedOutputs_iff {missing : List String} {name : String} :
    name ∈ blockedOutputs r.operations missing ↔
      ∃ op, r.lookup name = some op ∧ ∃ i ∈ op.inputs, i ∈ missing := by
  simp only [blockedOutputs, List.mem_map, List.mem_filter, List.any_eq_true,
    List.contains_iff_mem]
  constructor
  · rintro ⟨op, ⟨hop, hi⟩, rfl⟩
    exact ⟨op, Registry.lookup_of_mem hop, hi⟩
  · rintro ⟨op, hl, hi⟩
    exact ⟨op, ⟨Registry.mem_of_lookup hl, hi⟩, Registry.output_of_lookup hl⟩

namespace Plan

/-! ## What a plan computes -/

/-- A plan computes an operation: it calls the slot of the output on the slots of the inputs, it
waits for the call if the operation is asynchronous, and the slot has the implementation. -/
def Computes (plan : Plan V E) (op : Operation V E) : Prop :=
  ∃ c, (c, op.isAsync) ∈ plan.record.calls ∧ Record.Runs plan.record.slotOf op c ∧
    plan.record.formulas.find? op.output = some c.slot ∧
    plan.formulas.find? c.slot = some op.impl

/-- The plan of a query computes the operations that the query needs. -/
theorem computes_of_mem (h : ofQuery r wanted hints = .ok plan)
    (hop : op ∈ (find r wanted hints).operations) : plan.Computes op := by
  obtain ⟨s, hs, rfl⟩ := ofQuery_eq_ok_iff.1 h
  obtain ⟨-, hperm, hgroup⟩ := Schedule.ofQuery_ok hs
  have hcomplete := Schedule.complete_ofQuery hs
  have hops : op ∈ s.operations := hperm.mem_iff.2 hop
  refine ⟨_, (Record.mem_calls_laidOut hgroup).2 ⟨op, hops, rfl⟩, Record.runs_callIn hcomplete hops,
    ?_, find?_formulas hcomplete hops _⟩
  rw [Table.find?_eq_some_iff]
  exact hcomplete.entries_formulas ▸ List.mem_map.2 ⟨op, hops, rfl⟩

/-! ## Reports -/

/-- A report of missing arguments that leaves no gap unexplained. -/
structure Explains (r : Registry V E) (plan : Plan V E) (args : Table V)
    (missing blocked : List String) : Prop where
  ascending : missing.Pairwise (· < ·)
  missing_iff : ∀ n, n ∈ missing ↔ n ∈ plan.record.params ∧ n ∉ args
  /-- The blocked outputs are in the order of registration. -/
  ordered : blocked.Sublist r.names
  once : blocked.Nodup
  blocked_iff : ∀ n, n ∈ blocked ↔ ∃ op, r.lookup n = some op ∧ ∃ i ∈ op.inputs, i ∈ missing
  /-- A missing name is an output of the plan, or a blocked operation that the plan computes reads
  it. -/
  explained : ∀ n ∈ missing, n ∈ plan.record.returns ∨
    ∃ op, plan.Computes op ∧ r.lookup op.output = some op ∧ op.output ∈ blocked ∧ n ∈ op.inputs

/-- **The report of the plan of a query**, with the operations for which it was made. -/
theorem explains_of_ofQuery (h : ofQuery r wanted hints = .ok plan) (args : Table V) :
    Explains r plan args (plan.missing args)
      (blockedOutputs r.operations (plan.missing args)) := by
  have hparams := params_of_ofQuery h
  have hmem : ∀ n, n ∈ plan.missing args ↔ n ∈ plan.record.params ∧ n ∉ args := by
    simp [missing]
  refine ⟨?_, hmem, blockedOutputs_sublist r _, r.nodup.sublist (blockedOutputs_sublist r _),
    fun n => mem_blockedOutputs_iff, fun n hn => ?_⟩
  · rw [missing, hparams]
    exact (params_ascending r wanted hints).filter _
  -- The walk came to a missing name from the request, or from an operation that now lacks it.
  · obtain ⟨hneeded, -⟩ := mem_params_iff.1 (hparams ▸ ((hmem n).1 hn).1)
    rcases mem_wanted_or_read hneeded with hw | ⟨op, hop, hi⟩
    · exact .inl (returns_of_ofQuery h ▸ Names.mem_distinct.2 hw)
    · have hlookup := lookup_of_producer (mem_operations_iff.1 hop).2
      have hblocked := mem_blockedOutputs_iff.2 ⟨op, hlookup, n, hi, hn⟩
      exact .inr ⟨op, computes_of_mem h hop, hlookup, hblocked, hi⟩

end Plan

namespace Planner

/-- **Missing arguments are explained.** Let a planner that has answered any requests before compile
a plan, and let its registry not have changed when the plan is called, whatever has been requested
in between. A call that lacks a parameter is refused before anything runs. It names the parameters
that are missing, in ascending order, and the registered outputs that read one of them, in the order
of registration; and each missing name is an output of the plan or is read by a blocked operation
that the plan itself computes. -/
theorem missing_arguments_explained (r : Registry V E) (config : Config)
    (before later : List (Request V E)) (wanted hints : List String) (args : Table V)
    {p p' : Planner V E} {plan : Stamped (Plan V E)}
    (hp : p = ({ registry := r, config } : Planner V E).after before)
    (h : (compile wanted hints).run.run p = (.ok plan, p'))
    (hv : (p'.after later).registry.version = p'.registry.version)
    (ha : ∃ n ∈ plan.value.record.params, n ∉ args) :
    let now := (p'.after later).registry
    ∃ missing blocked, plan.value.call now.operations args =
        { awaited := false
          run := .failure (.reported (.missingArguments missing blocked)) } ∧
      plan.value.Explains now args missing blocked := by
  intro now
  have hcoh : Coherent (fun _ => True) 0 p := hp ▸ coherent_after_of_fresh r config before
  obtain ⟨x, p'', hrun, -, -, hcoh', hsame, -⟩ := compile_spec hcoh wanted hints
  obtain rfl : p'' = p' := (Prod.mk.inj (hrun.symm.trans h)).2
  have hnext : Next p'' (p''.after later) := (hcoh'.after fun _ _ _ _ => trivial).2
  -- What is blocked is looked up in the registry of the call, which is that of the compilation.
  have hnow : now = p.registry := (hnext.follows.eq_of_version hv).trans hsame.registry
  have hplan : Plan.ofQuery now (Names.distinct wanted) hints = .ok plan.value :=
    hnow ▸ ofQuery_of_compile hcoh h
  have hmissing : plan.value.missing args ≠ [] := by
    rw [ne_eq, Plan.missing_eq_nil_iff]
    exact fun hall => ha.elim fun n hn => hn.2 (hall n hn.1)
  exact ⟨_, _, Plan.call_of_missing (Plan.consulted_of_ofQuery hplan) hmissing _,
    Plan.explains_of_ofQuery hplan args⟩

/-- The theorem at a plan for a raw name and a computed one, with a registered output taken as given
and a blocked output that the plan has nothing to do with. -/
theorem missing_arguments_explained_of_given_output :
    let op (output : String) (inputs : List String) : Operation Nat Unit :=
      { output, inputs, isAsync := false
        impl := { label := output, style := .plain, pauses := 0, apply := fun vs => .ok vs.sum } }
    let r : Registry Nat Unit :=
      { operations := [op "u" ["w", "h"], op "d" ["c"], op "c" ["h", "a", "h"], op "h" ["y"]]
        nodup := by decide }
    let p : Planner Nat Unit := { registry := r }
    let later : List (Request Nat Unit) :=
      [.register (op "c" []) (some false), .unregister "a", .planFor ["u"] []]
    let args : Table Nat := { entries := [("y", 2), ("a", 1)] }
    ∃ plan p', (compile ["d", "w"] ["h"]).run.run p = (.ok plan, p') ∧
      (plan.value.call (p'.after later).registry.operations args).run.outcome =
        .error (.reported (.missingArguments ["h", "w"] ["u", "c"])) ∧
      plan.value.Explains (p'.after later).registry args ["h", "w"] ["u", "c"] := by
  intro op r p later args
  have hreport : (((compile ["d", "w"] ["h"]).run.run p).1.toOption.map
      fun plan => (plan.value.record.params, (plan.value.call
        (((compile ["d", "w"] ["h"]).run.run p).2.after later).registry.operations args).run)) =
        some (["a", "h", "w"],
          .failure (.reported (.missingArguments ["h", "w"] ["u", "c"]))) := by
    unfold later args
    cbv
  have hversion : (((compile ["d", "w"] ["h"]).run.run p).2.after later).registry.version =
      ((compile ["d", "w"] ["h"]).run.run p).2.registry.version := by
    unfold later
    cbv
  generalize h : (compile ["d", "w"] ["h"]).run.run p = result at hreport hversion
  obtain ⟨_ | plan, p'⟩ := result
  · cases hreport
  · obtain ⟨hparams, hrun⟩ := Prod.mk.inj (Option.some.inj hreport)
    have ha : ∃ n ∈ plan.value.record.params, n ∉ args := by
      rw [hparams]
      exact ⟨"h", by decide⟩
    obtain ⟨missing, blocked, hcall, hexplains⟩ :=
      missing_arguments_explained r {} [] later ["d", "w"] ["h"] args rfl h hversion ha
    rw [hcall] at hrun
    cases hrun
    refine ⟨plan, p', rfl, ?_, hexplains⟩
    rw [hcall]
    rfl

end Planner

end DemandPlan
