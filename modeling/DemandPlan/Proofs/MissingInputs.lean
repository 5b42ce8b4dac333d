import DemandPlan.Proofs.Detection

/-!
# Missing arguments and missing inputs

A plan refuses arguments that lack any of its parameters and names all of them. Direct evaluation
starts to compute and stops at the first missing name that it comes to. Both speak of the names that
the walk meets and that nobody supplies (`unsupplied`): the plan names all of them in ascending
order, evaluation names the first one below the first wanted name that needs any.

* `mem_unsupplied_iff`: these are the needed names that are neither registered nor arguments.
* `head?_unsupplied`: the first of them is the one that a name without a value lacks.
* `missingInput_corresponds`: the two reports.
-/

namespace DemandPlan

open Relation Requirements Evaluation Outcome

variable {V E : Type} {r : Registry V E} {args : Table V} {wanted visited : List String}
  {name m : String}

namespace Requirements

/-! ## Names that nobody supplies -/

/-- The names that a walk meets and that are neither registered nor arguments, in the order of the
walk. -/
def unsupplied (r : Registry V E) (args : Table V) (stack visited : List String) : List String :=
  ((reach r args.keys stack visited).map Prod.fst).filter fun n =>
    (r.lookup n).isNone && !args.contains n

theorem mem_unsupplied {stack : List String} : m ∈ unsupplied r args stack visited ↔
    m ∈ (reach r args.keys stack visited).map Prod.fst ∧ r.lookup m = none ∧ m ∉ args := by
  simp [unsupplied]

theorem mem_unsupplied_iff : m ∈ unsupplied r args wanted [] ↔
    Needed r args.keys wanted m ∧ r.lookup m = none ∧ m ∉ args := by
  rw [mem_unsupplied]
  refine and_congr_left fun ⟨hr, ha⟩ => ⟨needed_of_mem_reach, fun hn => ?_⟩
  have hmet : (m, none) ∈ reach r args.keys wanted [] :=
    mem_reach_iff.2 ⟨hn, ((producer_of_not_mem_hints ha).trans hr).symm⟩
  exact List.mem_map_of_mem hmet

theorem nodup_unsupplied (r : Registry V E) (args : Table V) (stack visited : List String) :
    (unsupplied r args stack visited).Nodup :=
  (nodup_reach stack visited).1.filter _

theorem unsupplied_cons_of_lacking {stack : List String} (h : name ∉ visited)
    (hr : r.lookup name = none) (ha : name ∉ args) :
    unsupplied r args (name :: stack) visited =
      name :: unsupplied r args stack (name :: visited) := by
  have hp : producer r args.keys name = none := (producer_of_not_mem_hints ha).trans hr
  rw [unsupplied, reach_cons_of_none h hp, List.map_cons, List.filter_cons_of_pos, unsupplied]
  simp [hr, ha]

theorem unsupplied_cons_of_some {stack : List String} {op : Operation V E} (h : name ∉ visited)
    (hp : producer r args.keys name = some op) : unsupplied r args (name :: stack) visited =
      unsupplied r args (op.inputs ++ stack) (name :: visited) := by
  rw [unsupplied, reach_cons_of_some h hp, List.map_cons, List.filter_cons_of_neg, unsupplied]
  simp [lookup_of_producer hp]

theorem unsupplied_append (r : Registry V E) (args : Table V) (stack rest visited : List String) :
    unsupplied r args (stack ++ rest) visited = unsupplied r args stack visited ++
      unsupplied r args rest
        (((reach r args.keys stack visited).map Prod.fst).reverse ++ visited) := by
  rw [unsupplied, reach_append, List.map_append, List.filter_append]
  rfl

/-- Names that have values need no name that nobody supplies. -/
theorem unsupplied_eq_nil {stack : List String} (h : ∀ n ∈ stack, HasValue r args n) :
    unsupplied r args stack visited = [] := by
  refine List.eq_nil_iff_forall_not_mem.2 fun m hm => ?_
  obtain ⟨hmet, hr, ha⟩ := mem_unsupplied.1 hm
  obtain ⟨v, hv⟩ := Evaluates.needed_ok h (needed_of_mem_reach hmet)
  have hx := hv.of_producer_none ((producer_of_not_mem_hints ha).trans hr)
  rw [Table.find?_eq_none_iff.2 ha] at hx
  cases hx

/-- **The first name that nobody supplies.** Let a name have no value because some name is missing.
Below it, this is the first name that the walk meets and that nobody supplies, if all names that the
walk has met before have values or need this name. -/
theorem head?_unsupplied (h : Evaluates r args.keys args name (.error (.missing m)))
    (hv : ∀ n ∈ visited, HasValue r args n ∨ TransGen (Reads r args.keys) n name) :
    (unsupplied r args [name] visited).head? = some m := by
  have hg := h.grounded
  induction hg generalizing visited with
  | intro name hacc ih =>
    -- A name that has been met would have a value or be read below itself.
    have hnew : name ∉ visited := by
      intro hmem
      rcases hv name hmem with ⟨v, hvalue⟩ | hc
      · cases hvalue.unique h
      · exact h.grounded.irrefl hc
    cases hp : producer r args.keys name with
    | none =>
      have hx := h.of_producer_none hp
      split at hx
      · cases hx
      next ha =>
      obtain rfl : m = name := Trouble.missing.inj (Except.error.inj hx)
      have hnot := Table.find?_eq_none_iff.1 ha
      rw [producer_of_not_mem_hints hnot] at hp
      rw [unsupplied_cons_of_lacking hnew hp hnot, List.head?_cons]
    | some op =>
      obtain ⟨i, hleft, hi⟩ | ⟨vs, f, -, -, hf⟩ := h.error_cases hp
      -- Before the leftmost input without a value the walk meets only names that have values.
      · obtain ⟨done, rest, hinputs, hdone⟩ := leftmost_iff.1 hleft
        have hread : Reads r args.keys name i := ⟨op, hp, hleft.mem⟩
        have hbelow : op.inputs ++ [] = done ++ ([i] ++ rest) := by simp [hinputs]
        rw [unsupplied_cons_of_some hnew hp, hbelow, unsupplied_append, unsupplied_eq_nil hdone,
          List.nil_append, unsupplied_append, List.head?_append, ih i hread hi, Option.some_or]
        intro n hn
        rcases List.mem_append.1 hn with hmet | hn
        · left
          exact Evaluates.needed_ok hdone (needed_of_mem_reach (List.mem_reverse.1 hmet))
        rcases List.mem_cons.1 hn with rfl | hn
        · exact .inr (.single hread)
        · exact (hv n hn).imp id fun hc => hc.tail hread
      · cases hf

end Requirements

/-! ## The two reports -/

/-- The parameters that the arguments lack are the names that nobody supplies, in ascending
order. -/
theorem Plan.missing_eq {plan : Plan V E}
    (h : plan.record.params = (find r wanted args.keys).params) :
    plan.missing args = Names.sorted (unsupplied r args wanted []) := by
  have hmissing : plan.missing args =
      (find r wanted args.keys).params.filter fun n => !args.contains n := by rw [Plan.missing, h]
  rw [hmissing]
  refine Names.eq_of_ascending (params_nodup.filter _) (Names.sorted_nodup (nodup_unsupplied ..))
    ((Names.sorted_pairwise _).filter _) (Names.sorted_pairwise _) fun n => ?_
  have hcontains : (!args.contains n) = true ↔ n ∉ args := by simp
  rw [List.mem_filter, mem_params_iff, Names.mem_sorted, mem_unsupplied_iff, and_assoc, hcontains]
  refine and_congr_right fun _ => and_congr_left fun ha => ?_
  rw [producer_of_not_mem_hints ha]

/-- If all parameters are there and no implementation fails, a call gives outputs. -/
theorem Plan.exists_ok_of_succeeds {plan : Plan V E}
    (h : Plan.ofQuery r wanted args.keys = .ok plan) (hn : wanted.Nodup)
    (ha : ∀ n ∈ plan.record.params, n ∈ args)
    (hs : ∀ op ∈ (find r wanted args.keys).operations, op.Succeeds r args.keys args)
    (registered : List (Operation V E)) : ∃ t, (plan.call registered args).run.outcome = .ok t := by
  obtain ⟨value, hv⟩ := exists_solution args (Plan.ofQuery_isOk_iff.1 ⟨plan, h⟩)
  rw [Plan.params_of_ofQuery h] at ha
  refine ⟨_, (Plan.outcome_call_eq_ok_iff h hn registered).2 (Plan.answers_valuesIn hv hn ?_)⟩
  exact fun w hw => hv.exists_ok ha hs (.wanted hw)

/-- If some name that is needed is supplied by nobody and nothing else is wrong, evaluation reports
the first such name below the first wanted name that needs one. -/
theorem Evaluation.missingInput_of_unsupplied
    (hg : ∀ n, Needed r args.keys wanted n → Grounded r args.keys n)
    (hsync : ∀ op ∈ (find r wanted args.keys).operations, op.isAsync = false)
    (hs : ∀ op ∈ (find r wanted args.keys).operations, op.Succeeds r args.keys args)
    (hne : unsupplied r args wanted [] ≠ []) :
    ∃ done requested rest m, wanted = done ++ requested :: rest ∧
      (∀ n ∈ done, unsupplied r args [n] [] = []) ∧
      (unsupplied r args [requested] []).head? = some m ∧
      (evaluate r wanted args).outcome = .error (.reported (.missingInput requested m)) := by
  cases h : (evaluate r wanted args).outcome with
  | ok t =>
    have hanswers := (outcome_evaluate_eq_ok_iff hsync).1 h
    exact absurd (unsupplied_eq_nil hanswers.wanted_ok) hne
  | error f =>
    obtain ⟨requested, x, hleft, hstops, rfl⟩ := evaluate_error h
    have hn : Needed r args.keys wanted requested := .wanted hleft.mem
    rcases hstops.of_succeeds hn hsync hs with ⟨m, rfl⟩ | ⟨cycle, hcircle, -⟩
    · obtain ⟨done, rest, hw, hdone⟩ := leftmost_iff.1 hleft
      refine ⟨done, requested, rest, m, hw, fun n hn => ?_, ?_, rfl⟩
      · exact unsupplied_eq_nil (List.forall_mem_singleton.2 (hdone n hn))
      · exact head?_unsupplied (hstops.evaluates hg hsync hn) fun _ h => nomatch h
    · obtain ⟨n, hmem⟩ := hcircle.exists_mem
      obtain ⟨hneeded, hc⟩ := Cycle.needed_of_circle hcircle hmem
      exact absurd hc (hg n hneeded).irrefl

namespace Planner

/-- **Missing arguments and missing inputs.** Let the operations of a query be synchronous and
without cycles, and let a planner that has answered any requests before compile the plan for it. If
direct evaluation reports a missing input, a call of the plan is refused before anything runs: it
names all names that the walk meets and that nobody supplies, in ascending order, and the missing
input is one of them. If a call of the plan reports missing arguments and no required implementation
fails, direct evaluation reports, for the first wanted name below which there is a name that nobody
supplies, the first such name in the order of the walk from there. -/
theorem missingInput_corresponds (r : Registry V E) (config : Config) (before : List (Request V E))
    (wanted : List String) (args : Table V) :
    let p := ({ registry := r, config } : Planner V E).after before
    let q := find p.registry wanted args.keys
    let direct := Evaluation.evaluate p.registry wanted args
    (∀ op ∈ q.operations, ¬TransGen (DependsOn q.operations) op.output op.output) →
    (∀ op ∈ q.operations, op.isAsync = false) →
    ∃ plan p', (compile wanted args.keys).run.run p = (.ok plan, p') ∧
      ∀ registered : List (Operation V E),
        let i := plan.value.call registered args
        (∀ requested m, direct.outcome = .error (.reported (.missingInput requested m)) →
          ∃ missing, missing = Names.sorted (unsupplied p.registry args wanted []) ∧
            m ∈ missing ∧ i.awaited = false ∧ i.run.trace = [] ∧
            i.run.outcome = .error (.reported
              (.missingArguments missing (blockedOutputs registered missing)))) ∧
        ∀ missing blocked,
          i.run.outcome = .error (.reported (.missingArguments missing blocked)) →
          (∀ op ∈ q.operations, op.Succeeds p.registry args.keys args) →
          ∃ done requested rest m, wanted = done ++ requested :: rest ∧
            (∀ n ∈ done, unsupplied p.registry args [n] [] = []) ∧
            (unsupplied p.registry args [requested] []).head? = some m ∧
            direct.outcome = .error (.reported (.missingInput requested m)) := by
  intro p q direct hacyclic hsync
  have hg : ∀ n, Needed p.registry args.keys wanted n → Grounded p.registry args.keys n :=
    fun n hn => Cycle.grounded_of_acyclic hacyclic hn
  have hneeds : SameNeeds p.registry args.keys (Names.distinct wanted) args.keys wanted :=
    sameNeeds_of_wanted fun _ => Names.mem_distinct
  have hcoh : Coherent (fun _ => True) 0 p := coherent_after_of_fresh r config before
  obtain ⟨_, hq⟩ := Plan.ofQuery_isOk_iff.2 fun n hn => hg n ((hneeds.1 n).1 hn)
  obtain ⟨plan, p', hrun, hplan⟩ := compile_of_ofQuery hcoh hq
  rw [← hplan] at hq
  have hparams : plan.value.record.params = q.params :=
    (Plan.params_of_ofQuery hq).trans hneeds.params_eq
  have hmissing : plan.value.missing args = Names.sorted (unsupplied p.registry args wanted []) :=
    Plan.missing_eq hparams
  refine ⟨plan, p', hrun, fun registered => ?_⟩
  intro i
  constructor
  · -- What evaluation misses is a parameter that is not there, so the call is refused at its door.
    intro requested m h
    obtain ⟨hleft, hstops⟩ := stops_of_missingInput h
    have hm : m ∈ Names.sorted (unsupplied p.registry args wanted []) :=
      Names.mem_sorted.2 (mem_unsupplied_iff.2 (hstops.of_missing (.wanted hleft.mem)))
    have hcall : i = _ := Plan.call_of_missing (Plan.consulted_of_ofQuery hq)
      (hmissing ▸ List.ne_nil_of_mem hm) registered
    rw [hcall, hmissing]
    exact ⟨_, rfl, hm, rfl, rfl, rfl⟩
  · -- If every parameter were there, the call would give outputs and not be refused.
    intro missing blocked h hs
    refine Evaluation.missingInput_of_unsupplied hg hsync hs fun hnil => ?_
    have ha : ∀ n ∈ plan.value.record.params, n ∈ args := by
      rwa [← Plan.missing_eq_nil_iff, hmissing, Names.sorted_eq_nil_iff]
    obtain ⟨t, ht⟩ := Plan.exists_ok_of_succeeds hq (Names.distinct_nodup wanted) ha
      (fun op hop => hs op (hneeds.operations_perm.mem_iff.1 hop)) registered
    cases ht.symm.trans h

/-- The theorem at a query with two missing names, of which the walk meets the greater one first. -/
theorem missingInput_corresponds_of_two :
    let add (output : String) (inputs : List String) : Operation Nat Unit :=
      { output, inputs, isAsync := false
        impl := { label := output, style := .plain, pauses := 0, apply := fun vs => .ok vs.sum } }
    let r : Registry Nat Unit :=
      { operations := [add "b" ["a", "z"], add "c" ["b", "w"], add "d" ["a"]], nodup := by decide }
    let p : Planner Nat Unit := { registry := r }
    let args : Table Nat := { entries := [("a", 1)] }
    let direct := Evaluation.evaluate r ["d", "c"] args
    direct.outcome = .error (.reported (.missingInput "c" "z")) ∧
      (∃ plan p', (compile ["d", "c"] ["a"]).run.run p = (.ok plan, p') ∧
        (plan.value.call r.operations args).run.outcome =
          .error (.reported (.missingArguments ["w", "z"] ["b", "c"]))) ∧
      ∃ requested m, (unsupplied r args [requested] []).head? = some m ∧
        direct.outcome = .error (.reported (.missingInput requested m)) := by
  intro add r p args direct
  have hfind : Cycle.find? (find r ["d", "c"] ["a"]).operations = none := by cbv
  have hop : ∀ op ∈ (find r ["d", "c"] ["a"]).operations, op.isAsync = false ∧
      op.Succeeds r ["a"] args := by
    intro op h
    have hmem := mem_registry h
    simp only [r, List.mem_cons, List.not_mem_nil, or_false] at hmem
    rcases hmem with rfl | rfl | rfl <;> exact ⟨rfl, fun vs _ => ⟨vs.sum, rfl⟩⟩
  have hmissing : Names.sorted (unsupplied r args ["d", "c"] []) = ["w", "z"] := by
    unfold args
    cbv
  have hdirect : direct.outcome = .error (.reported (.missingInput "c" "z")) := by
    unfold direct args
    cbv
  obtain ⟨plan, p', hrun, hcall⟩ := missingInput_corresponds r {} [] ["d", "c"] args
    (fun op h hself => by
      obtain ⟨cycle, hc⟩ := Cycle.find?_eq_some_iff_dependsOn.2 ⟨op, h, hself⟩
      cases hfind.symm.trans hc)
    fun op h => (hop op h).1
  obtain ⟨hplan, hevaluation⟩ := hcall r.operations
  obtain ⟨missing, hnames, -, -, -, hout⟩ := hplan "c" "z" hdirect
  obtain rfl : missing = ["w", "z"] := hnames.trans hmissing
  obtain ⟨_, requested, _, m, -, -, hhead, h⟩ := hevaluation _ _ hout fun op h => (hop op h).2
  exact ⟨hdirect, ⟨plan, p', hrun, hout⟩, requested, m, hhead, h⟩

end Planner

end DemandPlan
