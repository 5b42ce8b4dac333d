import DemandPlan.Proofs.Calls

/-!
# Queries put together

A query for the names of two lists needs what the two queries need, no more and no less. There is a
cycle in it just in case there is one in one of them, and it is answered just in case both are
answered. The answer is theirs, put together.

* `needed_append_iff`: the names of two lists need what the one or the other needs.
* `params_append`, `mem_operations_append`: so do the parameters and the operations.
* `Answers.restrict_perm`: the parts of an answer are answers.
* `Planner.compile_append`: compiled plans of two queries and of both together.
-/

namespace DemandPlan

variable {V E : Type}

open Requirements

variable {r : Registry V E} {hints wanted wanted' : List String} {args t t' : Table V}

/-! ## What both need -/

namespace Requirements

theorem needed_append_iff {n : String} : Needed r hints (wanted ++ wanted') n ↔
    Needed r hints wanted n ∨ Needed r hints wanted' n := by
  constructor
  · intro h
    induction h with
    | wanted hw => exact (List.mem_append.1 hw).imp .wanted .wanted
    | input _ hr ih => exact ih.imp (.input · hr) (.input · hr)
  · rintro (h | h)
    · exact h.trans fun n hn => .wanted (List.mem_append_left _ hn)
    · exact h.trans fun n hn => .wanted (List.mem_append_right _ hn)

theorem params_append (r : Registry V E) (hints wanted wanted' : List String) :
    (find r (wanted ++ wanted') hints).params =
      Names.sorted (Names.distinct
        ((find r wanted hints).params ++ (find r wanted' hints).params)) := by
  refine Names.eq_of_ascending params_nodup (Names.sorted_nodup (Names.distinct_nodup _))
    (Names.sorted_pairwise _) (Names.sorted_pairwise _) fun n => ?_
  rw [Names.mem_sorted, Names.mem_distinct, List.mem_append, mem_params_iff, mem_params_iff,
    mem_params_iff, needed_append_iff, or_and_right]

theorem mem_operations_append {op : Operation V E} :
    op ∈ (find r (wanted ++ wanted') hints).operations ↔
      op ∈ (find r wanted hints).operations ∨ op ∈ (find r wanted' hints).operations := by
  rw [mem_operations_iff, mem_operations_iff, mem_operations_iff, needed_append_iff, or_and_right]

end Requirements

/-! ## What both answer -/

namespace Answers

/-- Of an answer, the part about some of the wanted names is the answer to a query for these, but
for the order of the names. -/
theorem restrict_perm (h : Answers r hints wanted args t) (h' : Answers r hints wanted' args t')
    (hsub : ∀ n ∈ wanted', n ∈ wanted) : (t.restrict wanted').entries.Perm t'.entries := by
  refine Table.entries_perm fun e => ?_
  have hw : e.1 ∈ wanted' → e.1 ∈ wanted := hsub e.1
  rw [h'.mem_entries_iff, Table.restrict, List.mem_filter, h.mem_entries_iff, decide_eq_true_eq]
  tauto

/-- If the names come first, it is the answer in its order. -/
theorem restrict_eq (h : Answers r hints (wanted ++ wanted') args t)
    (h' : Answers r hints wanted args t') : t.restrict wanted = t' := by
  refine unique ⟨?_, fun e he => ?_⟩ h'
  · rw [Table.keys_restrict, h.keys, Names.filter_distinct_append]
  · exact h.values e (List.mem_filter.1 he).1

end Answers

namespace Planner

variable {p p₁ p₂ : Planner V E}

/-- **Queries put together.** Let three planners have the same registry, whatever they have been
asked, and be given the same hints. The first one is asked for the names of two lists, the others
for those of one list each. The parameters of the first query are those of the others, in ascending
order, and so are the operations. The first query is refused for a cycle just in case one of the
others is. On any arguments, its plan gives an answer just in case the plans of the others do, and
the part of the answer that is about the names of one list is the answer of the plan for these. -/
theorem compile_append (hp : Over r p) (hp₁ : Over r p₁) (hp₂ : Over r p₂)
    (wanted₁ wanted₂ hints : List String) :
    let q := find r (wanted₁ ++ wanted₂) hints
    let q₁ := find r wanted₁ hints
    let q₂ := find r wanted₂ hints
    q.params = Names.sorted (Names.distinct (q₁.params ++ q₂.params)) ∧
    (∀ op, op ∈ q.operations ↔ op ∈ q₁.operations ∨ op ∈ q₂.operations) ∧
    (ReportsCycle p (wanted₁ ++ wanted₂) hints ↔
      ReportsCycle p₁ wanted₁ hints ∨ ReportsCycle p₂ wanted₂ hints) ∧
    ∀ args : Table V,
      let both := compileAndCall p (wanted₁ ++ wanted₂) hints args
      let first := compileAndCall p₁ wanted₁ hints args
      let second := compileAndCall p₂ wanted₂ hints args
      ((∃ t, both.run.outcome = .ok t) ↔
        (∃ t₁, first.run.outcome = .ok t₁) ∧ ∃ t₂, second.run.outcome = .ok t₂) ∧
      ∀ t t₁ t₂, both.run.outcome = .ok t → first.run.outcome = .ok t₁ →
        second.run.outcome = .ok t₂ →
        t.restrict wanted₁ = t₁ ∧ (t.restrict wanted₂).entries.Perm t₂.entries := by
  intro q q₁ q₂
  refine ⟨params_append r hints wanted₁ wanted₂, fun op => mem_operations_append, ?_,
    fun args => ?_⟩
  · rw [hp.reportsCycle_iff, hp₁.reportsCycle_iff, hp₂.reportsCycle_iff, ← not_and_or,
      ← forall_and]
    refine not_congr (forall_congr' fun n => ?_)
    rw [needed_append_iff, or_imp]
  · intro both first second
    refine ⟨?_, fun t t₁ t₂ ht ht₁ ht₂ => ?_⟩
    · simp only [both, first, second, hp.outcome_eq_ok_iff, hp₁.outcome_eq_ok_iff,
        hp₂.outcome_eq_ok_iff, Answers.exists_iff, List.forall_mem_append]
    · have h := hp.outcome_eq_ok_iff.1 ht
      have h₁ := hp₁.outcome_eq_ok_iff.1 ht₁
      have h₂ := hp₂.outcome_eq_ok_iff.1 ht₂
      exact ⟨h.restrict_eq h₁, h.restrict_perm h₂ fun n => List.mem_append_right _⟩

/-- The theorem at queries that overlap, and at one with a cycle. -/
theorem compile_append_of_overlap :
    let op (output : String) (inputs : List String) (isAsync : Bool) : Operation Nat Unit :=
      { output, inputs, isAsync
        impl :=
          { label := output, style := if isAsync then .coroutine else .plain, pauses := 1
            apply := fun vs => .ok vs.sum } }
    let r : Registry Nat Unit :=
      { operations := [op "b" ["a"] false, op "c" ["b", "z"] true, op "d" ["b", "y"] false,
          op "x" ["x"] false]
        nodup := by decide }
    let p : Planner Nat Unit := { registry := r }
    let p₁ := p.after [.compile ["d"] [], .forget]
    let args : Table Nat := { entries := [("z", 3), ("y", 2), ("a", 1)] }
    (find r (["c", "a"] ++ ["d", "c"]) []).params = ["a", "y", "z"] ∧
      (∃ t, (compileAndCall p (["c", "a"] ++ ["d", "c"]) [] args).run.outcome = .ok t ∧
        t.restrict ["c", "a"] = { entries := [("c", 4), ("a", 1)] } ∧
        (t.restrict ["d", "c"]).entries.Perm [("d", 3), ("c", 4)]) ∧
      (ReportsCycle p (["x"] ++ ["c"]) [] ↔ ReportsCycle p₁ ["x"] [] ∨ ReportsCycle p ["c"] []) := by
  intro op r p p₁ args
  have hp : Over r p := ⟨rfl, r, {}, [], rfl⟩
  have hp₁ : Over r p₁ := ⟨by unfold p₁; cbv, r, {}, [.compile ["d"] [], .forget], rfl⟩
  have hfirst : (compileAndCall p₁ ["c", "a"] [] args).run.outcome =
      .ok { entries := [("c", 4), ("a", 1)] } := by
    unfold p₁ args
    cbv
  have hsecond : (compileAndCall p ["d", "c"] [] args).run.outcome =
      .ok { entries := [("d", 3), ("c", 4)] } := by
    unfold args
    cbv
  obtain ⟨hparams, -, -, hcall⟩ := compile_append hp hp₁ hp ["c", "a"] ["d", "c"] []
  obtain ⟨-, -, hcycle, -⟩ := compile_append hp hp₁ hp ["x"] ["c"] []
  obtain ⟨hiff, hparts⟩ := hcall args
  obtain ⟨t, ht⟩ := hiff.2 ⟨⟨_, hfirst⟩, _, hsecond⟩
  obtain ⟨heq, hperm⟩ := hparts t _ _ ht hfirst hsecond
  exact ⟨hparams.trans (by cbv), ⟨t, ht, heq, hperm⟩, hcycle⟩

end Planner

end DemandPlan
