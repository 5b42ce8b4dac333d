import DemandPlan.Proofs.Calls
import DemandPlan.Proofs.Course

/-!
# Supplying more

A caller who has more names to start with needs less: a name that is supplied is not computed, and
what is below it is not looked at. So a query that can be answered can still be answered when more
is supplied. If what is supplied are right values of names, the answer is the same.

* `Needed.of_more`, `operations_subperm`: with more hints, the walk meets less and fewer operations
  are required.
* `Evaluates.of_supplied`: right values can be supplied in the place of the operations that compute
  them.
* `Plan.accepts_iff`: a plan accepts arguments that hold its parameters.
* `Planner.compile_of_more`: what becomes of a compiled plan when more is supplied.
* `Planner.compileAndCall_merge`: feeding computed values back does not change an answer.
-/

namespace DemandPlan

open Requirements

variable {V E : Type} {r : Registry V E} {hints hints' wanted : List String} {args args' : Table V}
  {name : String}

/-! ## More hints -/

namespace Requirements

theorem producer_of_more (h : ∀ n ∈ hints, n ∈ hints') {op : Operation V E}
    (hp : producer r hints' name = some op) : producer r hints name = some op := by
  have hnot := not_mem_hints_of_producer hp
  rwa [producer_of_not_mem_hints (mt (h name) hnot), ← producer_of_not_mem_hints hnot]

theorem Reads.of_more (h : ∀ n ∈ hints, n ∈ hints') {input : String}
    (hr : Reads r hints' name input) : Reads r hints name input := by
  obtain ⟨op, hp, hi⟩ := hr
  exact ⟨op, producer_of_more h hp, hi⟩

/-- With more hints the walk meets nothing new. -/
theorem Needed.of_more (h : ∀ n ∈ hints, n ∈ hints') (hn : Needed r hints' wanted name) :
    Needed r hints wanted name := by
  induction hn with
  | wanted hw => exact .wanted hw
  | input _ hr ih => exact .input ih (hr.of_more h)

/-- With more hints there are fewer ways down along the inputs, so they end all the more. -/
theorem Grounded.of_more (h : ∀ n ∈ hints, n ∈ hints') (hg : Grounded r hints name) :
    Grounded r hints' name :=
  Subrelation.accessible (fun hr => Reads.of_more h hr) hg

theorem mem_operations_of_more (h : ∀ n ∈ hints, n ∈ hints') {op : Operation V E}
    (hop : op ∈ (find r wanted hints').operations) : op ∈ (find r wanted hints).operations := by
  obtain ⟨hn, hp⟩ := mem_operations_iff.1 hop
  exact mem_operations_iff.2 ⟨hn.of_more h, producer_of_more h hp⟩

theorem operations_subperm (h : ∀ n ∈ hints, n ∈ hints') :
    (find r wanted hints').operations.Subperm (find r wanted hints).operations :=
  operations_nodup.subperm fun _ => mem_operations_of_more h

/-- A parameter that there was not with fewer hints is one of the new hints. -/
theorem mem_params_of_more (h : ∀ n ∈ hints, n ∈ hints')
    (hn : name ∈ (find r wanted hints').params) :
    name ∈ hints' ∨ name ∈ (find r wanted hints).params := by
  obtain ⟨hneeded, hp⟩ := mem_params_iff.1 hn
  by_cases hm : name ∈ hints'
  · exact .inl hm
  · refine .inr (mem_params_iff.2 ⟨hneeded.of_more h, ?_⟩)
    rwa [producer_of_not_mem_hints (mt (h name) hm), ← producer_of_not_mem_hints hm]

end Requirements

/-! ## Right values -/

/-- **Supplied values.** If all that is supplied is right, names keep their values. -/
theorem Evaluates.of_supplied (hgiven : ∀ n ∈ args, n ∈ args')
    (hright : ∀ n v, args'.find? n = some v → Evaluates r args.keys args n (.ok v)) {v : V}
    (h : Evaluates r args.keys args name (.ok v)) : Evaluates r args'.keys args' name (.ok v) := by
  have hg := h.grounded
  induction hg generalizing v with
  | intro name _ ih =>
    cases hf : args'.find? name with
    | some w =>
      obtain rfl : w = v := Except.ok.inj ((hright name w hf).unique h)
      exact .given (producer_of_mem_hints (Table.mem_of_find? hf)) hf
    | none =>
      have hnot' : name ∉ args'.keys := Table.find?_eq_none_iff.1 hf
      have hnot : name ∉ args.keys := mt (hgiven name) hnot'
      cases hp : producer r args.keys name with
      | none =>
        -- It is neither supplied nor computed, and then it had no value before.
        have hx := h.of_producer_none hp
        rw [Table.find?_eq_none_iff.2 hnot] at hx
        cases hx
      | some op =>
        obtain ⟨vs, hvs, hout⟩ := h.exists_inputs hp
        have hp' : producer r args'.keys name = some op := by
          rwa [producer_of_not_mem_hints hnot', ← producer_of_not_mem_hints hnot]
        have hinputs : List.Forall₂ (fun i v => Evaluates r args'.keys args' i (.ok v))
            op.inputs vs :=
          Outcome.forall₂_imp_mem hvs fun i hi w hw => ih i ⟨op, hp, hi⟩ hw
        exact .computed_ok hp' hinputs hout

theorem Answers.of_supplied (hgiven : ∀ n ∈ args, n ∈ args')
    (hright : ∀ n v, args'.find? n = some v → Evaluates r args.keys args n (.ok v)) {t : Table V}
    (h : Answers r args.keys wanted args t) : Answers r args'.keys wanted args' t where
  keys := h.keys
  values e he := (h.values e he).of_supplied hgiven hright

/-- The arguments with an answer are right. -/
theorem Answers.right_merge {s : Table V} (hs : Answers r args.keys wanted args s) {v : V}
    (hv : (args.merge s).find? name = some v) : Evaluates r args.keys args name (.ok v) := by
  rw [Table.find?_merge, Option.or_eq_some_iff] at hv
  rcases hv with hv | ⟨-, hv⟩
  · exact hs.values _ (Table.find?_eq_some_iff.1 hv)
  · exact .given (producer_of_mem_hints (Table.mem_of_find? hv)) hv

/-! ## Compiled plans -/

/-- The arguments are enough for a plan: a call on them does not report missing ones. -/
def Plan.Accepts (plan : Plan V E) (registered : List (Operation V E)) (args : Table V) : Prop :=
  ∀ missing blocked, (plan.call registered args).run.outcome ≠
    .error (.reported (.missingArguments missing blocked))

theorem Plan.accepts_iff {plan : Plan V E} (h : ofQuery r wanted hints = .ok plan)
    (hn : wanted.Nodup) (registered : List (Operation V E)) :
    plan.Accepts registered args ↔ ∀ n ∈ plan.record.params, n ∈ args := by
  constructor
  · intro ha
    rw [← missing_eq_nil_iff]
    by_contra hne
    refine ha (plan.missing args) (blockedOutputs registered (plan.missing args)) ?_
    rw [call_of_missing (consulted_of_ofQuery h) hne]
    rfl
  · intro ha missing blocked hout
    rcases error_of_call h hn ha registered hout with ⟨e, he⟩ | he <;> cases he

namespace Planner

variable {p p' p'' : Planner V E}

/-- **Supplying more never breaks a query.** Let two planners have the same registry, whatever they
have been asked, and let the second one be given more hints. It requires no other operations, and
its walk meets no other names. If the first one does not report a cycle, neither does the second.
And if the plan of the first one accepts arguments for its hints, the plan of the second one accepts
arguments for its own. -/
theorem compile_of_more (hp : Over r p) (hp' : Over r p') (wanted hints hints' : List String)
    (hmore : ∀ n ∈ hints, n ∈ hints') :
    let x := ((compile wanted hints).run.run p).1
    let x' := ((compile wanted hints').run.run p').1
    (∀ op ∈ (find r wanted hints').operations, op ∈ (find r wanted hints).operations) ∧
    (∀ n ∈ (reach r hints' wanted []).map Prod.fst,
      n ∈ (reach r hints wanted []).map Prod.fst) ∧
    (¬ReportsCycle p wanted hints → ¬ReportsCycle p' wanted hints') ∧
    ∀ plan, x = .ok plan → ∃ plan', x' = .ok plan' ∧
      ∀ (registered registered' : List (Operation V E)) (args args' : Table V),
        (∀ n, n ∈ args ↔ n ∈ hints) → (∀ n, n ∈ args' ↔ n ∈ hints') →
        plan.value.Accepts registered args → plan'.value.Accepts registered' args' := by
  intro x x'
  have hgrounded (h : ∀ n, Needed r hints wanted n → Grounded r hints n) :
      ∀ n, Needed r hints' wanted n → Grounded r hints' n :=
    fun n hn => (h n (hn.of_more hmore)).of_more hmore
  refine ⟨fun op => mem_operations_of_more hmore, fun n hn => ?_, fun hc => ?_, fun plan hx => ?_⟩
  · exact mem_map_reach_iff.2 ((mem_map_reach_iff.1 hn).of_more hmore)
  · rw [hp.reportsCycle_iff, not_not] at hc
    rw [hp'.reportsCycle_iff, not_not]
    exact hgrounded hc
  · obtain ⟨plan', hx'⟩ := hp'.exists_plan_iff.2 (hgrounded (hp.exists_plan_iff.1 ⟨plan, hx⟩))
    refine ⟨plan', hx', fun registered registered' args args' hargs hargs' ha => ?_⟩
    have hq := hp.ofQuery_of_ok hx
    have hq' := hp'.ofQuery_of_ok hx'
    rw [Plan.accepts_iff hq (Names.distinct_nodup wanted), Plan.params_of_ofQuery hq,
      params_find_distinct] at ha
    rw [Plan.accepts_iff hq' (Names.distinct_nodup wanted), Plan.params_of_ofQuery hq',
      params_find_distinct]
    intro n hn
    rw [hargs']
    rcases mem_params_of_more hmore hn with hn | hn
    · exact hn
    · exact hmore n ((hargs n).1 (ha n hn))

/-- The theorem at hints of which one is computed otherwise and one is not needed. -/
theorem compile_of_more_of_cut :
    let op (output : String) (inputs : List String) : Operation Nat Unit :=
      { output, inputs, isAsync := false
        impl :=
          { label := output, style := .plain, pauses := 0, apply := fun vs => .ok vs.sum } }
    let r : Registry Nat Unit :=
      { operations := [op "d" ["c", "b"], op "b" ["a"], op "c" ["x"]], nodup := by decide }
    let p : Planner Nat Unit := { registry := r }
    let args : Table Nat := { entries := [("a", 1), ("x", 2)] }
    let args' : Table Nat := { entries := [("z", 4), ("c", 3), ("x", 2), ("a", 1)] }
    let p' := p.after [.calculate ["d"] args]
    ∃ plan plan', ((compile ["d"] ["a", "x"]).run.run p).1 = .ok plan ∧
      ((compile ["d"] ["a", "x", "c", "z"]).run.run p').1 = .ok plan' ∧
      plan.value.record.params = ["a", "x"] ∧ plan'.value.record.params = ["a", "c"] ∧
      plan.value.Accepts [] args ∧ plan'.value.Accepts [] args' := by
  intro op r p args args' p'
  have hp : Over r p := ⟨rfl, r, {}, [], rfl⟩
  have hp' : Over r p' := ⟨by unfold p'; cbv, r, {}, [.calculate ["d"] args], rfl⟩
  have hok : ((compile ["d"] ["a", "x"]).run.run p).1.toOption.isSome = true := by cbv
  have hparams : (find r (Names.distinct ["d"]) ["a", "x"]).params = ["a", "x"] := by cbv
  have hparams' : (find r (Names.distinct ["d"]) ["a", "x", "c", "z"]).params = ["a", "c"] := by cbv
  cases hx : ((compile ["d"] ["a", "x"]).run.run p).1 with
  | error f => rw [hx] at hok; cases hok
  | ok plan =>
    obtain ⟨-, -, -, hplan⟩ :=
      compile_of_more hp hp' ["d"] ["a", "x"] ["a", "x", "c", "z"] (by decide)
    obtain ⟨plan', hx', haccepts⟩ := hplan plan hx
    have hq := hp.ofQuery_of_ok hx
    have hq' := hp'.ofQuery_of_ok hx'
    have ha : plan.value.Accepts [] args := by
      rw [Plan.accepts_iff hq (Names.distinct_nodup _), Plan.params_of_ofQuery hq, hparams]
      decide
    refine ⟨plan, plan', rfl, hx', ?_, ?_, ha, haccepts [] [] args args' ?_ ?_ ha⟩
    · exact (Plan.params_of_ofQuery hq).trans hparams
    · exact (Plan.params_of_ofQuery hq').trans hparams'
    · simp [Table.mem_def, Table.keys, args]
    · simp [Table.mem_def, Table.keys, args', or_comm, or_left_comm]

/-- **Feeding computed values back.** Let two queries have been compiled for the names of some
arguments and called on them, and let both have given answers. If the first one is compiled and
called again, with the answer to the second one among the arguments, it gives the same answer, with
its names in the same order. Only operations are called that have been called the first time. -/
theorem compileAndCall_merge (hp : Over r p) (hp' : Over r p') (hp'' : Over r p'')
    {wanted extra : List String} {args t s : Table V}
    (ht : (compileAndCall p wanted args.keys args).run.outcome = .ok t)
    (hs : (compileAndCall p' extra args.keys args).run.outcome = .ok s) :
    let more := args.merge s
    let i := compileAndCall p wanted args.keys args
    let j := compileAndCall p'' wanted more.keys more
    j.run.outcome = .ok t ∧
      i.run.openings.Perm ((find r wanted args.keys).operations.map Operation.openingEvent) ∧
      j.run.openings.Perm ((find r wanted more.keys).operations.map Operation.openingEvent) ∧
      (find r wanted more.keys).operations.Subperm (find r wanted args.keys).operations := by
  intro more i j
  have hmore : ∀ n ∈ args, n ∈ more := fun n hn => Table.mem_merge.2 (.inl hn)
  have hanswers := hp.outcome_eq_ok_iff.1 ht
  have hextra := hp'.outcome_eq_ok_iff.1 hs
  have hj : j.run.outcome = .ok t :=
    hp''.outcome_eq_ok_iff.2 (hanswers.of_supplied hmore fun n v => hextra.right_merge)
  exact ⟨hj, hp.openings_perm ht, hp''.openings_perm hj, operations_subperm hmore⟩

/-- The theorem at an intermediate value, a value that is not needed and an argument, all of which
are fed back to a query with an asynchronous operation. -/
theorem compileAndCall_merge_of_intermediate :
    let op (output : String) (inputs : List String) (isAsync : Bool) : Operation Nat Unit :=
      { output, inputs, isAsync
        impl :=
          { label := output, style := if isAsync then .coroutine else .plain, pauses := 1
            apply := fun vs => .ok vs.sum } }
    let r : Registry Nat Unit :=
      { operations := [op "b" ["a"] false, op "c" ["b", "b"] true, op "d" ["c", "a"] false,
          op "e" ["c"] false]
        nodup := by decide }
    let p : Planner Nat Unit := { registry := r }
    let args : Table Nat := { entries := [("a", 1)] }
    let s : Table Nat := { entries := [("e", 2), ("c", 2), ("a", 1)] }
    let t : Table Nat := { entries := [("d", 3), ("b", 1)] }
    let i := compileAndCall p ["d", "b"] ["a"] args
    let j := compileAndCall p ["d", "b"] ["a", "e", "c"] (args.merge s)
    i.run = { trace := [.call "b", .start "c", .finish "c", .call "d"], outcome := .ok t } ∧
      j.run = { trace := [.call "b", .call "d"], outcome := .ok t } ∧
      (find r ["d", "b"] ["a", "e", "c"]).operations.Subperm
        (find r ["d", "b"] ["a"]).operations := by
  intro op r p args s t i j
  have hp : Over r p := ⟨rfl, r, {}, [], rfl⟩
  have hi : i.run =
      { trace := [.call "b", .start "c", .finish "c", .call "d"], outcome := .ok t } := by
    unfold i args
    cbv
  have hs : (compileAndCall p ["e", "c", "a", "c"] args.keys args).run.outcome = .ok s := by
    unfold args
    cbv
  have hj : j.run.trace = [.call "b", .call "d"] := by
    unfold j args
    cbv
  obtain ⟨hsame, -, -, hsub⟩ := compileAndCall_merge hp hp hp (congrArg Run.outcome hi) hs
  exact ⟨hi, Run.ext hj hsame, hsub⟩

end Planner

end DemandPlan
