import DemandPlan.Proofs.Plan

/-!
# The plan of a query

Walk, layering, layout and linking put together: a query without cycles has a plan, and calling it
on arguments that hold its parameters gives the wanted names their meaning.

* `Plan.ofQuery_isOk_iff`: there is a plan just in case every name is computed in finitely many
  steps.
* `Plan.call_ofQuery`: what a call of the plan does, in terms of the values of the names.
* `Plan.outcome_call_eq_ok_iff`: a call gives the answer to the query and nothing else.
* `Plan.call_congr`: arguments that are no parameters do not show.
-/

namespace DemandPlan

open Requirements Record

variable {V E : Type} {r : Registry V E} {hints wanted : List String} {args : Table V}

/-- Everything that the plan of a query reads is there. -/
theorem Schedule.complete_ofQuery {s : Schedule V E} (h : Schedule.ofQuery r wanted hints = .ok s) :
    Complete s (find r wanted hints).params wanted := by
  obtain ⟨hrun, hperm, -⟩ := Schedule.ofQuery_ok h
  have houtputs := hperm.map Operation.output
  refine ⟨List.nodup_append.2 ⟨params_nodup, houtputs.nodup_iff.2 outputs_nodup, ?_⟩, hrun, ?_⟩
  · rintro n hn _ hout rfl
    exact (mem_outputs_iff.1 (houtputs.mem_iff.1 hout)).2 (mem_params_iff.1 hn).2
  · intro n hn
    have hneeded : Needed r hints wanted n := .wanted hn
    rw [layoutNames, List.mem_append, houtputs.mem_iff, mem_params_iff, mem_outputs_iff,
      and_iff_right hneeded, and_iff_right hneeded]
    exact Classical.em _

theorem Schedule.isAsync_eq_any {s : Schedule V E} (h : ∀ w ∈ s.waves, w.Grouped) :
    s.isAsync = s.operations.any Operation.isAsync := by
  unfold isAsync operations
  rw [List.any_flatMap, Bool.eq_iff_iff, List.any_eq_true, List.any_eq_true]
  refine exists_congr fun w => and_congr_right fun hw => ?_
  obtain ⟨hsync, hasync⟩ := h w hw
  rw [List.any_eq_true]
  constructor
  · intro hne
    obtain ⟨op, hop⟩ := List.exists_mem_of_ne_nil w.async (by simpa using hne)
    exact ⟨op, List.mem_append_right _ hop, hasync op hop⟩
  · rintro ⟨op, hop, ha⟩
    rcases List.mem_append.1 hop with hop | hop
    · rw [hsync op hop] at ha
      cases ha
    · simpa using List.ne_nil_of_mem hop

namespace Plan

/-- The plan of a query, if there is one. -/
def ofQuery (r : Registry V E) (wanted hints : List String) : Except Error (Plan V E) :=
  (Schedule.ofQuery r wanted hints).map fun s => laidOut s (find r wanted hints).params wanted

theorem ofQuery_eq_ok_iff {plan : Plan V E} : ofQuery r wanted hints = .ok plan ↔
    ∃ s, Schedule.ofQuery r wanted hints = .ok s ∧
      plan = laidOut s (find r wanted hints).params wanted := by
  unfold ofQuery
  cases Schedule.ofQuery r wanted hints with
  | error e => simp [Except.map]
  | ok s => simp [Except.map, eq_comm]

theorem ofQuery_isOk_iff : (∃ plan, ofQuery r wanted hints = .ok plan) ↔
    ∀ n, Needed r hints wanted n → Grounded r hints n := by
  rw [← Schedule.ofQuery_isOk_iff]
  constructor
  · rintro ⟨plan, h⟩
    obtain ⟨s, hs, -⟩ := ofQuery_eq_ok_iff.1 h
    exact ⟨s, hs⟩
  · rintro ⟨s, hs⟩
    exact ⟨_, ofQuery_eq_ok_iff.2 ⟨s, hs, rfl⟩⟩

/-- A query with an answer has a plan. -/
theorem exists_ofQuery_of_answers {t : Table V} (h : Answers r hints wanted args t) :
    ∃ plan, ofQuery r wanted hints = .ok plan :=
  ofQuery_isOk_iff.2 fun _ => h.grounded

theorem params_of_ofQuery {plan : Plan V E} (h : ofQuery r wanted hints = .ok plan) :
    plan.record.params = (find r wanted hints).params := by
  obtain ⟨s, -, rfl⟩ := ofQuery_eq_ok_iff.1 h
  rfl

theorem returns_of_ofQuery {plan : Plan V E} (h : ofQuery r wanted hints = .ok plan) :
    plan.record.returns = Names.distinct wanted := by
  obtain ⟨s, -, rfl⟩ := ofQuery_eq_ok_iff.1 h
  rfl

/-- The plan of a query names outputs that are registered when it is called. -/
theorem consulted_of_ofQuery {plan : Plan V E} (h : ofQuery r wanted hints = .ok plan) :
    plan.consulted = .registered := by
  obtain ⟨s, -, rfl⟩ := ofQuery_eq_ok_iff.1 h
  rfl

/-- The plan of a query is asynchronous just in case one of its operations is. -/
theorem isAsync_of_ofQuery {plan : Plan V E} (h : ofQuery r wanted hints = .ok plan) :
    plan.record.isAsync = (find r wanted hints).operations.any Operation.isAsync := by
  obtain ⟨s, hs, rfl⟩ := ofQuery_eq_ok_iff.1 h
  obtain ⟨-, hperm, hgroup⟩ := Schedule.ofQuery_ok hs
  exact (Schedule.isAsync_eq_any hgroup).trans (hperm.any_eq)

/-! ## Calls -/

theorem missing_eq_nil_iff {plan : Plan V E} :
    plan.missing args = [] ↔ ∀ n ∈ plan.record.params, n ∈ args := by
  simp [missing, List.filter_eq_nil_iff]

/-- All parameters are there just in case the call is not refused. -/
theorem check_eq_ok_iff {plan : Plan V E} (registered : List (Operation V E)) :
    plan.check registered args = .ok () ↔ ∀ n ∈ plan.record.params, n ∈ args := by
  unfold check
  simp only [List.isEmpty_iff, ← missing_eq_nil_iff]
  split
  · next h => exact iff_of_true rfl h
  · next h => exact iff_of_false (fun h => nomatch h) h

theorem call_of_params {plan : Plan V E} {registered : List (Operation V E)}
    (h : ∀ n ∈ plan.record.params, n ∈ args) :
    plan.call registered args =
      { awaited := plan.record.isAsync, run := plan.runFrom args .empty plan.record.body } := by
  rw [call, (check_eq_ok_iff registered).2 h]

/-- A call without all parameters is refused before anything runs. -/
theorem call_of_missing {plan : Plan V E} (hc : plan.consulted = .registered)
    (h : plan.missing args ≠ []) (registered : List (Operation V E)) :
    plan.call registered args =
      { awaited := false
        run := .failure (.reported (missingArguments registered (plan.missing args))) } := by
  have hcheck : plan.check registered args =
      .error (missingArguments registered (plan.missing args)) := by
    rw [check, hc]
    exact if_neg (by simpa using h)
  rw [call, hcheck]

/-- A call that gives outputs has not been refused. -/
theorem params_of_outcome_eq_ok {plan : Plan V E} {registered : List (Operation V E)} {t : Table V}
    (h : (plan.call registered args).run.outcome = .ok t) :
    ∀ n ∈ plan.record.params, n ∈ args := by
  rw [← check_eq_ok_iff registered]
  rw [call] at h
  split at h
  · cases h
  · assumption

/-- **Calls of a plan.** On arguments that hold the parameters, a call does what the schedule of the
query does on the values of the names and gives the values of the wanted ones. -/
theorem call_ofQuery {plan : Plan V E} (h : ofQuery r wanted hints = .ok plan)
    (hn : wanted.Nodup) (ha : ∀ n ∈ plan.record.params, n ∈ args)
    {value : String → Except (Trouble E) V} (hv : Solves r hints wanted args value)
    (registered : List (Operation V E)) :
    ∃ s, Schedule.ofQuery r wanted hints = .ok s ∧ plan.call registered args =
      { awaited := plan.record.isAsync
        run := s.runIn value >>= fun _ => pure (valuesIn value wanted) } := by
  rw [call_of_params ha]
  obtain ⟨s, hs, rfl⟩ := ofQuery_eq_ok_iff.1 h
  obtain ⟨-, hperm, hgroup⟩ := Schedule.ofQuery_ok hs
  refine ⟨s, hs, ?_⟩
  rw [runFrom_body (Schedule.complete_ofQuery hs) hn hgroup
    (fun op hop => hv.output_eq (hperm.mem_iff.1 hop)) fun n hp => ?_]
  obtain ⟨v, hfound⟩ := Option.isSome_iff_exists.1 (Table.find?_isSome_iff.2 (ha n hp))
  exact ⟨v, hfound, hv.param_eq hp hfound⟩

/-! ## The values of the outputs -/

variable {value : String → Except (Trouble E) V}

theorem entries_valuesIn (hn : wanted.Nodup) :
    (valuesIn value wanted).entries = wanted.filterMap fun n =>
      match value n with
      | .ok v => some (n, v)
      | .error _ => none := by
  refine Table.entries_ofList (hn.sublist ?_)
  clear hn
  induction wanted with
  | nil => exact List.Sublist.slnil
  | cons n wanted ih =>
    rw [List.filterMap_cons]
    cases value n with
    | error _ => exact ih.cons _
    | ok v => exact ih.cons_cons _

theorem mem_valuesIn (hn : wanted.Nodup) {e : String × V}
    (he : e ∈ (valuesIn value wanted).entries) : value e.1 = .ok e.2 := by
  rw [entries_valuesIn hn, List.mem_filterMap] at he
  obtain ⟨n, -, he⟩ := he
  cases hv : value n with
  | error _ => rw [hv] at he; cases he
  | ok v =>
    rw [hv] at he
    obtain rfl := Option.some.inj he
    exact hv

theorem keys_valuesIn (hn : wanted.Nodup) (hv : ∀ n ∈ wanted, ∃ v, value n = .ok v) :
    (valuesIn value wanted).keys = wanted := by
  rw [Table.keys, entries_valuesIn hn]
  clear hn
  induction wanted with
  | nil => rfl
  | cons n wanted ih =>
    obtain ⟨v, hv'⟩ := hv n List.mem_cons_self
    rw [List.filterMap_cons]
    simp only [hv', List.map_cons]
    rw [ih fun m hm => hv m (List.mem_cons_of_mem _ hm)]

theorem answers_valuesIn (hv : Solves r hints wanted args value) (hn : wanted.Nodup)
    (hok : ∀ w ∈ wanted, ∃ v, value w = .ok v) :
    Answers r hints wanted args (valuesIn value wanted) where
  keys := by rw [keys_valuesIn hn hok, Names.distinct_eq_self hn]
  values e he := by
    have hmem : e.1 ∈ (valuesIn value wanted).keys := List.mem_map_of_mem he
    rw [keys_valuesIn hn hok] at hmem
    exact mem_valuesIn hn he ▸ hv e.1 (.wanted hmem)

/-- A call on arguments that hold the parameters gives outputs just in case every operation of the
query has a value. -/
theorem outcome_call_ofQuery {plan : Plan V E} (h : ofQuery r wanted hints = .ok plan)
    (hn : wanted.Nodup) (ha : ∀ n ∈ plan.record.params, n ∈ args)
    (hv : Solves r hints wanted args value)
    (registered : List (Operation V E)) {t : Table V} :
    (plan.call registered args).run.outcome = .ok t ↔
      (∀ op ∈ (find r wanted hints).operations, ∃ v, value op.output = .ok v) ∧
        t = valuesIn value wanted := by
  obtain ⟨s, hs, hcall⟩ := call_ofQuery h hn ha hv registered
  obtain ⟨hrun, hperm, -⟩ := Schedule.ofQuery_ok hs
  have hcalls : (s.runIn value).outcome = .ok () ↔
      ∀ op ∈ (find r wanted hints).operations, ∃ v, value op.output = .ok v := by
    rw [Schedule.outcome_runIn_eq_ok_iff, Schedule.operations, Schedule.calls_ok_iff hrun]
    · exact forall_congr' fun op => by rw [← Schedule.operations, hperm.mem_iff]
    · intro n hp
      obtain ⟨v, hfound⟩ := Option.isSome_iff_exists.1
        (Table.find?_isSome_iff.2 (ha n (params_of_ofQuery h ▸ hp)))
      exact ⟨v, hv.param_eq hp hfound⟩
    · exact fun op hop => hv.output_eq (hperm.mem_iff.1 hop)
  rw [hcall, Run.outcome_bind_eq_ok_iff, ← hcalls]
  simp only [Run.pure_outcome, Except.ok.injEq]
  constructor
  · rintro ⟨_, hok, ht⟩
    exact ⟨hok, ht.symm⟩
  · rintro ⟨hok, ht⟩
    exact ⟨(), hok, ht.symm⟩

/-- **What a call gives.** The plan of a query gives the answer to the query, if all wanted names
have values, and nothing else. -/
theorem outcome_call_eq_ok_iff {plan : Plan V E} (h : ofQuery r wanted hints = .ok plan)
    (hn : wanted.Nodup) (registered : List (Operation V E)) {t : Table V} :
    (plan.call registered args).run.outcome = .ok t ↔ Answers r hints wanted args t := by
  obtain ⟨value, hv⟩ := exists_solution args (ofQuery_isOk_iff.1 ⟨plan, h⟩)
  have hanswers : (∀ n, Needed r hints wanted n → ∃ v, value n = .ok v) →
      Answers r hints wanted args (valuesIn value wanted) := fun hok =>
    answers_valuesIn hv hn fun w hw => hok w (.wanted hw)
  constructor
  · intro ht
    have ha := params_of_outcome_eq_ok ht
    obtain ⟨hops, rfl⟩ := (outcome_call_ofQuery h hn ha hv registered).1 ht
    -- The arguments give the parameters and the operations, which have all succeeded, the rest.
    refine hanswers fun n hneeded => ?_
    cases hp : producer r hints n with
    | none =>
      have hparam := mem_params_iff.2 ⟨hneeded, hp⟩
      obtain ⟨v, hfound⟩ := Table.mem_iff_exists_find?.1 (ha n (params_of_ofQuery h ▸ hparam))
      exact ⟨v, hv.param_eq hparam hfound⟩
    | some op =>
      obtain rfl := output_of_producer hp
      exact hops op (mem_operations_iff.2 ⟨hneeded, hp⟩)
  · intro ht
    have hok : ∀ n, Needed r hints wanted n → ∃ v, value n = .ok v := by
      intro n hneeded
      obtain ⟨v, hev⟩ := Evaluates.needed_ok ht.wanted_ok hneeded
      exact ⟨v, (hv n hneeded).unique hev⟩
    have ha : ∀ n ∈ plan.record.params, n ∈ args := by
      intro n hparam
      obtain ⟨hneeded, hp⟩ := mem_params_iff.1 (params_of_ofQuery h ▸ hparam)
      obtain ⟨v, hev⟩ := Evaluates.needed_ok ht.wanted_ok hneeded
      by_contra hnot
      have := hev.of_producer_none hp
      rw [Table.find?_eq_none_iff.2 hnot] at this
      cases this
    obtain rfl := ht.unique (hanswers hok)
    exact (outcome_call_ofQuery h hn ha hv registered).2
      ⟨fun op hop => hok _ (mem_operations_iff.1 hop).1, rfl⟩

/-- A call that gives outputs has called each operation of the query once. -/
theorem openings_call_ofQuery {plan : Plan V E} (h : ofQuery r wanted hints = .ok plan)
    (hn : wanted.Nodup) (registered : List (Operation V E)) {t : Table V}
    (ht : (plan.call registered args).run.outcome = .ok t) :
    (plan.call registered args).run.openings.Perm
      ((find r wanted hints).operations.map Operation.openingEvent) := by
  obtain ⟨value, hv⟩ := exists_solution args (ofQuery_isOk_iff.1 ⟨plan, h⟩)
  obtain ⟨s, hs, hcall⟩ := call_ofQuery h hn (params_of_outcome_eq_ok ht) hv registered
  obtain ⟨-, hperm, -⟩ := Schedule.ofQuery_ok hs
  rw [hcall] at ht ⊢
  obtain ⟨_, hok, -⟩ := Run.outcome_bind_eq_ok_iff.1 ht
  rw [Run.openings_bind_of_ok hok]
  exact (List.Perm.of_eq (List.append_nil _)).trans
    ((Schedule.openings_runIn_perm hok).trans (hperm.map _))

/-! ## Arguments that do not show -/

section Congr

variable {args' : Table V}

theorem bindAll_congr {bindings : Table String} (slots : Table V)
    (h : ∀ n ∈ bindings.keys, args.find? n = args'.find? n) :
    bindAll (E := E) args bindings slots = bindAll args' bindings slots := by
  rw [Table.keys, List.forall_mem_map] at h
  rw [bindAll, bindAll, Table.toList]
  generalize bindings.entries = es at h
  induction es generalizing slots with
  | nil => rfl
  | cons e es ih =>
    have hreq : require (E := E) args e.1 = require args' e.1 := by
      rw [require, require, h e List.mem_cons_self]
    rw [List.foldlM_cons, List.foldlM_cons, hreq]
    cases require (E := E) args' e.1 with
    | error f => rfl
    | ok v => exact ih _ fun e he => h e (List.mem_cons_of_mem _ he)

theorem runFrom_congr {plan : Plan V E} {steps : List Step} (slots : Table V)
    (h : ∀ bindings, .bind bindings ∈ steps → ∀ n ∈ bindings.keys, args.find? n = args'.find? n) :
    plan.runFrom args slots steps = plan.runFrom args' slots steps := by
  induction steps generalizing slots with
  | nil => rfl
  | cons st steps ih =>
    have ih := fun slots => ih slots fun b hb => h b (List.mem_cons_of_mem _ hb)
    cases st with
    | bind bindings =>
      rw [runFrom, runFrom, step, step, bindAll_congr slots (h bindings List.mem_cons_self)]
      · simp only [ih]
      all_goals
        intro t h
        cases h
    | invoke c => simp only [runFrom, step, ih]
    | await c => simp only [runFrom, step, ih]
    | gather cs => simp only [runFrom, step, ih]
    | result returns => simp only [runFrom, step]

/-- The first step of a plan reads the parameters; no later step looks at the arguments. -/
theorem keys_of_bind_mem {s : Schedule V E} {params returns : List String}
    {consulted : Consulted V E} {bindings : Table String} (hp : params.Nodup)
    (h : .bind bindings ∈ (laidOut s params returns consulted).record.body) :
    bindings.keys = params := by
  have hbody : (laidOut s params returns consulted).record.body =
      .bind (numbered 0 params) :: (s.waves.flatMap (stepsIn (layoutNames s params)) ++
        [.result (resultIn (layoutNames s params) returns)]) := rfl
  have hsteps : ∀ w : Wave V E, .bind bindings ∉ stepsIn (layoutNames s params) w := by
    intro w
    unfold stepsIn asyncSteps
    split <;> simp
  rw [hbody, List.mem_cons, List.mem_append, List.mem_flatMap] at h
  rcases h with h | ⟨w, -, h⟩ | h
  · cases h
    exact keys_numbered hp 0
  · exact absurd h (hsteps w)
  · simp at h

/-- **Pruned arguments.** Arguments that agree on the parameters are answered alike. -/
theorem call_congr {plan : Plan V E} (h : ofQuery r wanted hints = .ok plan)
    (ha : ∀ n ∈ plan.record.params, args.find? n = args'.find? n)
    (registered : List (Operation V E)) :
    plan.call registered args = plan.call registered args' := by
  have hmissing : plan.missing args = plan.missing args' := by
    refine List.filter_congr fun n hn => ?_
    have hmem : n ∈ args ↔ n ∈ args' := by
      rw [← Table.find?_isSome_iff, ← Table.find?_isSome_iff, ha n hn]
    simp [hmem]
  have hcheck : plan.check registered args = plan.check registered args' := by
    rw [check, check, hmissing]
  have hrun : plan.runFrom args .empty plan.record.body =
      plan.runFrom args' .empty plan.record.body := by
    obtain ⟨s, -, rfl⟩ := ofQuery_eq_ok_iff.1 h
    refine runFrom_congr _ fun bindings hb n hn => ha n ?_
    rwa [keys_of_bind_mem params_nodup hb] at hn
  rw [call, call, hcheck, hrun]

end Congr

end Plan

end DemandPlan
