import DemandPlan.Proofs.Query

/-!
# Declarations

How a query is laid out depends on how its operations are declared: on their outputs, their inputs
and whether they are asynchronous. What the implementations do does not show in the record, nor do
operations that the query does not reach, nor the order of registration.

* `Operation.declared`: an operation without what its implementation does.
* `Requirements.AlikeFor`: registries that declare alike whatever a query reaches.
* `Plan.record_ofQuery_congr`: such registries give a query the same record.
-/

namespace DemandPlan

variable {V E : Type}

/-! ## Implementations do not show -/

namespace Operation

/-- The operation as it is declared, with an implementation that does nothing. -/
def declared (op : Operation V E) : Operation Unit Unit :=
  { output := op.output, inputs := op.inputs, isAsync := op.isAsync
    impl := { label := "", style := .plain, pauses := 0, apply := fun _ => .ok () } }

@[simp] theorem declared_output (op : Operation V E) : op.declared.output = op.output := rfl

@[simp] theorem declared_inputs (op : Operation V E) : op.declared.inputs = op.inputs := rfl

@[simp] theorem declared_isAsync (op : Operation V E) : op.declared.isAsync = op.isAsync := rfl

@[simp] theorem map_output_declared (ops : List (Operation V E)) :
    (ops.map declared).map output = ops.map output := by
  simp [Function.comp_def]

theorem sorted_map_declared (ops : List (Operation V E)) :
    sorted (ops.map declared) = (sorted ops).map declared :=
  (List.map_mergeSort (f := declared) fun _ _ _ _ => rfl).symm

end Operation

namespace Wave

/-- The wave with its operations as they are declared. -/
def declared (w : Wave V E) : Wave Unit Unit :=
  { sync := w.sync.map Operation.declared, async := w.async.map Operation.declared }

theorem operations_declared (w : Wave V E) :
    w.declared.operations = w.operations.map Operation.declared :=
  List.map_append.symm

theorem ofReady_map_declared (ready : List (Operation V E)) :
    ofReady (ready.map Operation.declared) = (ofReady ready).declared := by
  unfold ofReady declared
  simp [Operation.sorted_map_declared, List.filter_map, Function.comp_def]

end Wave

namespace Schedule

/-- The schedule with its operations as they are declared. -/
def declared (s : Schedule V E) : Schedule Unit Unit := { waves := s.waves.map Wave.declared }

theorem operations_declared (s : Schedule V E) :
    s.declared.operations = s.operations.map Operation.declared := by
  simp [operations, declared, List.flatMap_map, List.map_flatMap, Wave.operations_declared]

theorem isAsync_declared (s : Schedule V E) : s.declared.isAsync = s.isAsync := by
  simp [isAsync, declared, Wave.declared, List.any_map, Function.comp_def]

theorem ready_map_declared (available : List String) (ops : List (Operation V E)) :
    ready available (ops.map Operation.declared) = (ready available ops).map Operation.declared :=
  List.filter_map

theorem unready_map_declared (available : List String) (ops : List (Operation V E)) :
    unready available (ops.map Operation.declared) =
      (unready available ops).map Operation.declared :=
  List.filter_map

/-- The layering does not look at implementations. -/
theorem layer_map_declared (available : List String) (ops : List (Operation V E)) :
    layer available (ops.map Operation.declared) =
      (layer available ops).map (List.map Wave.declared) := by
  fun_induction layer available ops with
  | case1 available ops he =>
    rw [List.isEmpty_iff.1 he, List.map_nil, layer]
    rfl
  | case2 available ops he hr =>
    have he' : ¬(ops.map Operation.declared).isEmpty = true := by rwa [List.isEmpty_map]
    have hr' : ready available (ops.map Operation.declared) = [] := by
      rw [ready_map_declared, hr, List.map_nil]
    rw [layer, if_neg he', dif_pos hr', Operation.map_output_declared]
    rfl
  | case3 available ops he hr _ ih =>
    have hr' : ready available (ops.map Operation.declared) ≠ [] := by
      rwa [ready_map_declared, ne_eq, List.map_eq_nil_iff]
    rw [layer_of_ready hr', unready_map_declared, ready_map_declared,
      Operation.map_output_declared, ih, Wave.ofReady_map_declared]
    cases layer (available ++ (ready available ops).map Operation.output)
      (unready available ops) <;> rfl

end Schedule

namespace Record

theorem layoutNames_declared (s : Schedule V E) (params : List String) :
    layoutNames s.declared params = layoutNames s params := by
  rw [layoutNames, Schedule.operations_declared, Operation.map_output_declared]
  rfl

theorem stepsIn_declared (names : List String) (w : Wave V E) :
    stepsIn names w.declared = stepsIn names w := by
  have hcall : callIn names ∘ Operation.declared = callIn (V := V) (E := E) names := rfl
  simp only [stepsIn, Wave.declared, List.map_map, hcall]
  rfl

/-- Implementations do not show in a record. -/
theorem laidOut_declared (s : Schedule V E) (params returns : List String) :
    laidOut s.declared params returns = laidOut s params returns := by
  have hsteps : s.declared.waves.flatMap (stepsIn (layoutNames s params)) =
      s.waves.flatMap (stepsIn (layoutNames s params)) := by
    simp [Schedule.declared, List.flatMap_map, stepsIn_declared]
  unfold laidOut
  rw [Schedule.operations_declared, Operation.map_output_declared, Schedule.isAsync_declared,
    layoutNames_declared, hsteps]

end Record

/-! ## Registries that declare a query alike -/

/-- Registries with the same declaration of a name: neither has one, or both have one with the same
inputs in the same order, both synchronous or both asynchronous. -/
def Registry.DeclareAlike (r r' : Registry V E) (name : String) : Prop :=
  (r.lookup name).map (fun op => (op.inputs, op.isAsync)) =
    (r'.lookup name).map fun op => (op.inputs, op.isAsync)

instance (r r' : Registry V E) (name : String) : Decidable (r.DeclareAlike r' name) :=
  inferInstanceAs (Decidable ((r.lookup name).map (fun op => (op.inputs, op.isAsync)) =
    (r'.lookup name).map fun op => (op.inputs, op.isAsync)))

theorem Registry.DeclareAlike.map_declared {r r' : Registry V E} {name : String}
    (h : r.DeclareAlike r' name) :
    (r.lookup name).map Operation.declared = (r'.lookup name).map Operation.declared := by
  unfold DeclareAlike at h
  cases hop : r.lookup name with
  | none =>
    cases hop' : r'.lookup name with
    | none => rfl
    | some op' => rw [hop, hop'] at h; cases h
  | some op =>
    cases hop' : r'.lookup name with
    | none => rw [hop, hop'] at h; cases h
    | some op' =>
      rw [hop, hop'] at h
      obtain ⟨hinputs, hasync⟩ := Prod.mk.inj (Option.some.inj h)
      have houtput : op.output = op'.output :=
        (output_of_lookup hop).trans (output_of_lookup hop').symm
      simp [Operation.declared, houtput, hinputs, hasync]

namespace Requirements

variable {r r' : Registry V E} {hints wanted : List String}

/-- Registries with the same declarations of the names that a query reaches beyond the hints. -/
def AlikeFor (r r' : Registry V E) (wanted hints : List String) : Prop :=
  ∀ n, Needed r hints wanted n → n ∉ hints → r.DeclareAlike r' n

theorem AlikeFor.of_wanted {wanted' : List String} (hw : ∀ n, n ∈ wanted ↔ n ∈ wanted')
    (h : AlikeFor r r' wanted hints) : AlikeFor r r' wanted' hints :=
  fun n hn => h n ((needed_congr hw).2 hn)

/-- What the walk meets, with the operations as they are declared. -/
def metAsDeclared (r : Registry V E) (hints stack visited : List String) :
    List (String × Option (Operation Unit Unit)) :=
  (reach r hints stack visited).map fun m => (m.1, m.2.map Operation.declared)

theorem find_params (r : Registry V E) (wanted hints : List String) : (find r wanted hints).params =
    Names.sorted (((metAsDeclared r hints wanted []).filter fun m => m.2.isNone).map Prod.fst) := by
  simp [find, metAsDeclared, List.filter_map, Function.comp_def]

theorem map_declared_find_operations (r : Registry V E) (wanted hints : List String) :
    (find r wanted hints).operations.map Operation.declared =
      (metAsDeclared r hints wanted []).filterMap Prod.snd := by
  simp [find, metAsDeclared, List.map_filterMap, List.filterMap_map]

theorem map_declared_producer {n : String} (h : n ∉ hints → r.DeclareAlike r' n) :
    (producer r hints n).map Operation.declared = (producer r' hints n).map Operation.declared := by
  by_cases hn : n ∈ hints
  · rw [producer_of_mem_hints hn, producer_of_mem_hints hn]
  · rw [producer_of_not_mem_hints hn, producer_of_not_mem_hints hn, (h hn).map_declared]

/-- The walk depends on the declarations of the names that it meets only. -/
theorem metAsDeclared_congr {stack visited : List String}
    (h : ∀ m ∈ reach r hints stack visited, m.1 ∉ hints → r.DeclareAlike r' m.1) :
    metAsDeclared r hints stack visited = metAsDeclared r' hints stack visited := by
  unfold metAsDeclared
  fun_induction reach r hints stack visited with
  | case1 => rw [reach]
  | case2 visited name stack hv ih => rw [ih h, reach_cons_of_mem hv]
  | case3 visited name stack hv hp ih =>
    have hp' := map_declared_producer (h _ List.mem_cons_self)
    rw [hp, Option.map_none, eq_comm, Option.map_eq_none_iff] at hp'
    rw [reach_cons_of_none hv hp', List.map_cons, List.map_cons,
      ih fun m hm => h m (List.mem_cons_of_mem _ hm)]
  | case4 visited name stack hv op hp _ ih =>
    have hp' := map_declared_producer (h _ List.mem_cons_self)
    rw [hp, Option.map_some, eq_comm, Option.map_eq_some_iff] at hp'
    obtain ⟨op', hp', hop⟩ := hp'
    have hinputs : op'.inputs = op.inputs := by simpa using congrArg Operation.inputs hop
    rw [reach_cons_of_some hv hp', List.map_cons, List.map_cons, hinputs,
      ih fun m hm => h m (List.mem_cons_of_mem _ hm)]
    simp only [Option.map_some, hop]

theorem AlikeFor.met_eq (h : AlikeFor r r' wanted hints) :
    metAsDeclared r hints wanted [] = metAsDeclared r' hints wanted [] :=
  metAsDeclared_congr fun m hm => h m.1 (mem_reach_iff.1 hm).1

theorem AlikeFor.params_eq (h : AlikeFor r r' wanted hints) :
    (find r wanted hints).params = (find r' wanted hints).params := by
  rw [find_params, find_params, h.met_eq]

theorem AlikeFor.map_declared_operations (h : AlikeFor r r' wanted hints) :
    (find r wanted hints).operations.map Operation.declared =
      (find r' wanted hints).operations.map Operation.declared := by
  rw [map_declared_find_operations, map_declared_find_operations, h.met_eq]

end Requirements

open Requirements

variable {r r' : Registry V E} {hints wanted : List String}

theorem Schedule.map_declared_ofQuery (r : Registry V E) (wanted hints : List String) :
    (ofQuery r wanted hints).map declared =
      match layer ((find r wanted hints).params ++ hints)
        ((find r wanted hints).operations.map Operation.declared) with
      | .ok waves => .ok { waves }
      | .error outputs => .error (.cycleAmong outputs) := by
  rw [ofQuery_eq, layer_map_declared]
  cases layer ((find r wanted hints).params ++ hints) (find r wanted hints).operations <;> rfl

/-- **Schedules of declarations.** Registries that declare a query alike give it the same schedule
but for the implementations, or refuse it for the same cycle. -/
theorem Schedule.declared_ofQuery_congr (h : AlikeFor r r' wanted hints) :
    (ofQuery r wanted hints).map declared = (ofQuery r' wanted hints).map declared := by
  rw [map_declared_ofQuery, map_declared_ofQuery, h.params_eq, h.map_declared_operations]

/-- **Records of declarations.** Registries that declare a query alike give it the same record, or
refuse it for the same cycle. -/
theorem Plan.record_ofQuery_congr (h : AlikeFor r r' wanted hints) :
    (ofQuery r wanted hints).map record = (ofQuery r' wanted hints).map record := by
  have hrecord : ∀ r : Registry V E, (ofQuery r wanted hints).map record =
      ((Schedule.ofQuery r wanted hints).map Schedule.declared).map fun s =>
        Record.laidOut s (find r wanted hints).params wanted := by
    intro r
    unfold ofQuery
    cases Schedule.ofQuery r wanted hints with
    | error e => rfl
    | ok s => exact congrArg _ (Record.laidOut_declared s _ _).symm
  rw [hrecord, hrecord, Schedule.declared_ofQuery_congr h, h.params_eq]

end DemandPlan
