import DemandPlan.Proofs.Stopping

/-!
# Cycles are detected alike

Cycles are met in three places: the layering is stuck at them, the search looks for them, and direct
evaluation comes back to a name that is being computed. The three agree on whether there is a cycle.
What the search and the evaluation name lies among the outputs at which the layering is stuck; these
are all that need a cycle.

* `ofQuery_error_iff`: the layering is stuck just in case the search finds a cycle.
* `evaluate_error_iff`: if nothing else is wrong, evaluation reports a cycle just in case the
  layering is stuck.
* `detectors_agree`: all of it.
-/

namespace DemandPlan.Cycle

open Relation Requirements Evaluation

variable {V E : Type} {r : Registry V E} {wanted hints : List String} {args : Table V}

/-! ## Layering and search -/

/-- The layering is stuck just in case the search finds a cycle. -/
theorem ofQuery_error_iff : (∃ outputs, Schedule.ofQuery r wanted hints = .error (.cycle outputs)) ↔
    ∃ cycle, find? (find r wanted hints).operations = some cycle := by
  rw [← Option.ne_none_iff_exists', ne_eq, find?_eq_none_iff, ← Schedule.ofQuery_isOk_iff]
  cases h : Schedule.ofQuery r wanted hints with
  | ok s => simp
  | error e =>
    obtain ⟨outputs, rfl, -⟩ := Schedule.ofQuery_error h
    simp [Error.cycleAmong]

/-- The layering is stuck at all names of a cycle. -/
theorem mem_outputs_of_circle {outputs cycle : List String}
    (h : Schedule.ofQuery r wanted hints = .error (.cycle outputs))
    (hcircle : Circle (DependsOn (find r wanted hints).operations) cycle) :
    ∀ n ∈ cycle, n ∈ outputs := by
  intro n hn
  obtain ⟨stuck, he, -, hstuck⟩ := Schedule.ofQuery_error h
  obtain rfl : outputs = Names.sorted stuck := Error.cycle.inj he
  obtain ⟨hneeded, hc⟩ := needed_of_circle hcircle hn
  exact Names.mem_sorted.2 ((hstuck n).2 ⟨hneeded, fun hg => hg.irrefl hc⟩)

/-! ## Direct evaluation -/

/-- Without a schedule there is no answer. -/
theorem exists_error_of_ofQuery {e : Error} (h : Schedule.ofQuery r wanted args.keys = .error e) :
    ∃ f, (evaluate r wanted args).outcome = .error f := by
  cases ht : (evaluate r wanted args).outcome with
  | error f => exact ⟨f, rfl⟩
  | ok t =>
    have hanswers : Answers r args.keys wanted args t :=
      (evaluateFrom_ok right_args (fun _ => .wanted) .empty ht).1
    obtain ⟨s, hs⟩ := Schedule.ofQuery_isOk_iff.2 fun n => hanswers.grounded
    rw [h] at hs
    cases hs

/-- If nothing else is wrong, evaluation reports a cycle just in case there is no schedule. -/
theorem evaluate_error_iff (ha : ∀ n ∈ (find r wanted args.keys).params, n ∈ args)
    (hsync : ∀ op ∈ (find r wanted args.keys).operations, op.isAsync = false)
    (hs : ∀ op ∈ (find r wanted args.keys).operations, op.Succeeds r args.keys args) :
    (∃ outputs, (evaluate r wanted args).outcome = .error (.reported (.cycle outputs))) ↔
      ∃ outputs, Schedule.ofQuery r wanted args.keys = .error (.cycle outputs) := by
  constructor
  · rintro ⟨outputs, h⟩
    obtain ⟨cycle, hcircle, -⟩ := circle_of_evaluate h
    obtain ⟨n, hn⟩ := hcircle.exists_mem
    exact ofQuery_error_iff.2 (find?_eq_some_iff.2 ⟨n, needed_of_circle hcircle hn⟩)
  · rintro ⟨outputs, h⟩
    obtain ⟨f, hf⟩ := exists_error_of_ofQuery h
    obtain ⟨name, x, hleft, hstops, rfl⟩ := evaluate_error hf
    have hn : Needed r args.keys wanted name := .wanted hleft.mem
    rcases hstops.of_succeeds hn hsync hs with ⟨m, rfl⟩ | ⟨cycle, -, rfl⟩
    · obtain ⟨hm, hr, hnot⟩ := hstops.of_missing hn
      have hparam := mem_params_iff.2 ⟨hm, (producer_of_not_mem_hints hnot).trans hr⟩
      exact absurd (ha m hparam) hnot
    · exact ⟨Names.sorted cycle, hf⟩

/-- **Cycles are detected alike.** The operations of a query cannot be laid out just in case the
search finds a cycle among them, and just in case one of them depends on itself; what the search
finds lies among the outputs at which the layering is stuck. Then direct evaluation on arguments for
the hints ends without an answer, and if it reports a cycle, these are the names of a circle, all of
them among those outputs. If moreover no parameter is missing, no operation is asynchronous and no
implementation fails, evaluation reports a cycle just in case there is one. -/
theorem detectors_agree (r : Registry V E) (wanted hints : List String) :
    let q := find r wanted hints
    let schedule := Schedule.ofOperations q.operations (q.params ++ hints)
    ((∃ outputs, schedule = .error (.cycle outputs)) ↔ ∃ cycle, find? q.operations = some cycle) ∧
    ((∃ cycle, find? q.operations = some cycle) ↔
      ∃ op ∈ q.operations, TransGen (DependsOn q.operations) op.output op.output) ∧
    (∀ outputs cycle, schedule = .error (.cycle outputs) → find? q.operations = some cycle →
      ∀ n ∈ cycle, n ∈ outputs) ∧
    ∀ args : Table V, (∀ n, n ∈ hints ↔ n ∈ args) →
      let direct := evaluate r wanted args
      (∀ outputs, schedule = .error (.cycle outputs) →
        (∃ f, direct.outcome = .error f) ∧
        ∀ outputs', direct.outcome = .error (.reported (.cycle outputs')) →
          (∃ cycle, Circle (DependsOn q.operations) cycle ∧ outputs' = Names.sorted cycle) ∧
            ∀ n ∈ outputs', n ∈ outputs) ∧
      ((∀ n ∈ q.params, n ∈ args) → (∀ op ∈ q.operations, op.isAsync = false) →
        (∀ op ∈ q.operations, op.Succeeds r args.keys args) →
        ((∃ outputs, direct.outcome = .error (.reported (.cycle outputs))) ↔
          ∃ outputs, schedule = .error (.cycle outputs))) := by
  intro q schedule
  refine ⟨ofQuery_error_iff, find?_eq_some_iff_dependsOn, fun outputs cycle h hfind =>
    mem_outputs_of_circle h (circle_dependsOn hfind), ?_⟩
  intro args hargs direct
  -- Evaluation takes the names of the arguments for hints.
  have hq : q = find r wanted args.keys := find_congr_hints hargs
  have hschedule : schedule = Schedule.ofQuery r wanted args.keys :=
    Schedule.ofQuery_congr (sameNeeds_of_hints hargs)
  rw [hq, hschedule]
  refine ⟨fun outputs h => ⟨exists_error_of_ofQuery h, fun outputs' h' => ?_⟩, evaluate_error_iff⟩
  obtain ⟨cycle, hcircle, rfl⟩ := circle_of_evaluate h'
  exact ⟨⟨cycle, hcircle, rfl⟩, fun n hn =>
    mem_outputs_of_circle h hcircle n (Names.mem_sorted.1 hn)⟩

/-- The theorem at a query for an output that reads two operations which read each other. -/
theorem detectors_agree_of_mutual :
    let add (output : String) (inputs : List String) : Operation Nat Unit :=
      { output, inputs, isAsync := false
        impl := { label := output, style := .plain, pauses := 0, apply := fun vs => .ok vs.sum } }
    let r : Registry Nat Unit :=
      { operations := [add "a" ["x", "b"], add "b" ["a"], add "c" ["b"]], nodup := by decide }
    let q := find r ["c"] ["x"]
    ∃ cycle outputs, find? q.operations = some cycle ∧
      Schedule.ofOperations q.operations (q.params ++ ["x"]) = .error (.cycle outputs) ∧
      (∀ n ∈ cycle, n ∈ outputs) ∧
      ∃ outputs', (evaluate r ["c"] { entries := [("x", 1)] }).outcome =
          .error (.reported (.cycle outputs')) ∧ ∀ n ∈ outputs', n ∈ outputs := by
  intro add r q
  obtain ⟨hlayer, -, hcycle, hdirect⟩ := detectors_agree r ["c"] ["x"]
  have hfind : find? q.operations = some ["b", "a"] := by
    unfold q
    cbv
  obtain ⟨outputs, hschedule⟩ := hlayer.2 ⟨_, hfind⟩
  have hop : ∀ op ∈ q.operations, op.isAsync = false ∧
      op.Succeeds r ["x"] { entries := [("x", 1)] } := by
    intro op h
    have hmem := mem_registry h
    simp only [r, List.mem_cons, List.not_mem_nil, or_false] at hmem
    rcases hmem with rfl | rfl | rfl <;> exact ⟨rfl, fun vs _ => ⟨vs.sum, rfl⟩⟩
  have hparams : q.params = ["x"] := by
    unfold q
    cbv
  obtain ⟨hstuck, hreported⟩ := hdirect { entries := [("x", 1)] } fun _ => Iff.rfl
  obtain ⟨outputs', h⟩ := (hreported (by rw [hparams]; decide) (fun op h => (hop op h).1)
    fun op h => (hop op h).2).2 ⟨outputs, hschedule⟩
  exact ⟨_, outputs, hfind, hschedule, hcycle _ _ hschedule hfind, outputs', h,
    ((hstuck outputs hschedule).2 outputs' h).2⟩

end DemandPlan.Cycle
