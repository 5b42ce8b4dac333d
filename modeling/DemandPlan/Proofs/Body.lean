import DemandPlan.Proofs.Course

/-!
# The body of a compiled plan

The body of a compiled plan is in single-assignment form: every slot is written once, and whatever a
step reads has been written by the steps before it. So the plan never looks up a slot that is not
there.

* `Step.writes`, `Step.reads`: the slots that a step writes and reads.
* `ReadsWritten`: what is read has been written before, step by step.
* `Record.SingleAssignment`: the form of a body that runs a schedule.
* `Record.singleAssignment_laidOut`: the layout of a schedule has this form.
* `Planner.compile_single_assignment`: so has every compiled plan.
-/

namespace DemandPlan

open Requirements

variable {V E : Type}

/-! ## Writing and reading -/

namespace Step

/-- The slots that a step writes; a fan-out writes those of its calls. -/
def writes : Step → List String
  | .bind bindings => bindings.values
  | .invoke c | .await c => [c.slot]
  | .gather cs => cs.map Call.slot
  | .result _ => []

/-- The slots that a step reads. -/
def reads : Step → List String
  | .bind _ => []
  | .invoke c | .await c => c.args
  | .gather cs => cs.flatMap Call.args
  | .result returns => returns.values

/-- Whether a step waits. -/
def Waits (st : Step) : Prop := st.kind = .await ∨ st.kind = .gather

end Step

/-- Whatever a step reads has been written before: by an earlier step, or it is among the slots that
are there from the beginning. -/
def ReadsWritten (written : List String) : List Step → Prop
  | [] => True
  | st :: steps => (∀ slot ∈ st.reads, slot ∈ written) ∧ ReadsWritten (written ++ st.writes) steps

theorem readsWritten_append {written : List String} {steps steps' : List Step} :
    ReadsWritten written (steps ++ steps') ↔ ReadsWritten written steps ∧
      ReadsWritten (written ++ steps.flatMap Step.writes) steps' := by
  induction steps generalizing written with
  | nil => simp [ReadsWritten]
  | cons st steps ih =>
    rw [List.cons_append, ReadsWritten, ReadsWritten, ih, and_assoc, List.flatMap_cons,
      List.append_assoc]

theorem ReadsWritten.mono {written written' : List String} {steps : List Step}
    (h : ReadsWritten written steps) (hsub : ∀ slot ∈ written, slot ∈ written') :
    ReadsWritten written' steps := by
  induction steps generalizing written written' with
  | nil => trivial
  | cons st steps ih =>
    refine ⟨fun slot hslot => hsub slot (h.1 slot hslot), ih h.2 fun slot hslot => ?_⟩
    rcases List.mem_append.1 hslot with hslot | hslot
    · exact List.mem_append_left _ (hsub slot hslot)
    · exact List.mem_append_right _ hslot

/-- What a step reads has been written by the steps before it. -/
theorem ReadsWritten.of_split {before after : List Step} {st : Step}
    (h : ReadsWritten [] (before ++ st :: after)) :
    ∀ slot ∈ st.reads, slot ∈ before.flatMap Step.writes := by
  obtain ⟨-, hreads, -⟩ := readsWritten_append.1 h
  exact hreads

namespace Record

/-! ## The form of a body -/

/-- A call that runs an operation, the slots of its names being looked up in a table. -/
def Runs (slots : Table String) (op : Operation V E) (c : Call) : Prop :=
  slots.find? op.output = some c.slot ∧
    List.Forall₂ (fun i slot => slots.find? i = some slot) op.inputs c.args

/-- The steps of a wave: its synchronous calls one by one, and then at most one step that waits for
the asynchronous ones. -/
inductive RunsWave (slots : Table String) (w : Wave V E) : List Step → Prop
  | sync {invoked : List Call} : List.Forall₂ (Runs slots) w.sync invoked → w.async = [] →
    RunsWave slots w (invoked.map .invoke)
  | await {invoked : List Call} {waited : Call} : List.Forall₂ (Runs slots) w.sync invoked →
    List.Forall₂ (Runs slots) w.async [waited] →
    RunsWave slots w (invoked.map .invoke ++ [.await waited])
  | gather {invoked waited : List Call} : List.Forall₂ (Runs slots) w.sync invoked →
    List.Forall₂ (Runs slots) w.async waited → 2 ≤ waited.length →
    RunsWave slots w (invoked.map .invoke ++ [.gather waited])

/-- **Single assignment.** The form of a record that runs a schedule. -/
structure SingleAssignment (s : Schedule V E) (r : Record) : Prop where
  /-- The parameters are bound, the waves are run, and the outputs are collected. -/
  body : ∃ steps results, r.body = .bind r.bindings :: steps.flatten ++ [.result results] ∧
    List.Forall₂ (RunsWave r.slotOf) s.waves steps
  /-- The parameters and then the outputs, wave by wave, have the slots `v0`, `v1` and so on. -/
  slots : r.slotOf.entries = (r.params ++ s.operations.map Operation.output).zipIdx.map
    fun e => (e.1, slotName e.2)
  bound : r.bindings.keys = r.params
  /-- Each of these slots is written once, in this order. -/
  written : r.body.flatMap Step.writes = (List.range r.slotOf.size).map slotName
  once : (r.body.flatMap Step.writes).Nodup
  /-- What a step reads has been written by the steps before it. -/
  closed : ∀ before st after, r.body = before ++ st :: after →
    ∀ slot ∈ st.reads, slot ∈ before.flatMap Step.writes
  isAsync : r.isAsync = true ↔ ∃ st ∈ r.body, st.Waits

/-! ## The layout of a schedule -/

variable {names : List String}

/-- The slots of different names are numbered. -/
theorem map_slotIn (h : names.Nodup) :
    names.map (slotIn names) = (List.range names.length).map slotName := by
  refine List.ext_getElem (by simp) fun i hi _ => ?_
  have hlt : i < names.length := by simpa using hi
  simp only [List.getElem_map, List.getElem_range, slotIn, h.idxOf_getElem i hlt]

theorem writes_asyncSteps (cs : List Call) :
    (asyncSteps cs).flatMap Step.writes = cs.map Call.slot := by
  match cs with
  | [] => rfl
  | [c] => rfl
  | c :: c' :: cs => exact List.append_nil _

theorem readsWritten_asyncSteps {written : List String} {cs : List Call}
    (h : ∀ c ∈ cs, ∀ slot ∈ c.args, slot ∈ written) : ReadsWritten written (asyncSteps cs) := by
  match cs, h with
  | [], _ => trivial
  | [c], h => exact ⟨h c List.mem_cons_self, trivial⟩
  | c :: c' :: cs, h => exact ⟨List.forall_mem_flatMap.2 h, trivial⟩

/-- A wave writes the slots of its outputs. -/
theorem writes_stepsIn (names : List String) (w : Wave V E) :
    (stepsIn names w).flatMap Step.writes = w.outputs.map (slotIn names) := by
  rw [stepsIn, List.flatMap_append, writes_asyncSteps, Wave.outputs, Wave.operations,
    List.map_append, List.map_append, List.flatMap_map, List.map_map, List.map_map, List.map_map,
    ← List.flatMap_singleton' (w.sync.map _), List.flatMap_map]
  rfl

/-- A wave reads the slots of its inputs, and no others. -/
theorem readsWritten_stepsIn {written : List String} {w : Wave V E}
    (h : ∀ op ∈ w.operations, ∀ i ∈ op.inputs, slotIn names i ∈ written) :
    ReadsWritten written (stepsIn names w) := by
  have hcall : ∀ op ∈ w.operations, ∀ slot ∈ (callIn names op).args, slot ∈ written :=
    fun op hop => List.forall_mem_map.2 (h op hop)
  have hinvokes : ∀ ops : List (Operation V E), (∀ op ∈ ops, op ∈ w.operations) →
      ReadsWritten written (ops.map fun op => .invoke (callIn names op)) := by
    intro ops hops
    induction ops with
    | nil => trivial
    | cons op ops ih =>
      rw [List.forall_mem_cons] at hops
      exact ⟨hcall op hops.1, (ih hops.2).mono fun _ => List.mem_append_left _⟩
  refine readsWritten_append.2 ⟨hinvokes _ fun _ => List.mem_append_left _,
    (readsWritten_asyncSteps (List.forall_mem_map.2 fun op hop => ?_)).mono
      fun _ => List.mem_append_left _⟩
  exact hcall op (List.mem_append_right _ hop)

/-- Waves that can run read what has been written. -/
theorem readsWritten_waves {waves : List (Wave V E)} {available written : List String}
    (h : Schedule.Runnable available waves) (hw : ∀ n ∈ available, slotIn names n ∈ written) :
    ReadsWritten written (waves.flatMap (stepsIn names)) := by
  induction waves generalizing available written with
  | nil => trivial
  | cons w waves ih =>
    rw [List.flatMap_cons, readsWritten_append, writes_stepsIn]
    refine ⟨readsWritten_stepsIn fun op hop i hi => hw i (h.1 op hop i hi), ih h.2 fun n hn => ?_⟩
    rcases List.mem_append.1 hn with hn | hn
    · exact List.mem_append_left _ (hw n hn)
    · exact List.mem_append_right _ (List.mem_map_of_mem hn)

theorem exists_waits_asyncSteps_iff {cs : List Call} :
    (∃ st ∈ asyncSteps cs, st.Waits) ↔ cs ≠ [] := by
  match cs with
  | [] => simp [asyncSteps]
  | [c] => simp [asyncSteps, Step.Waits, Step.kind]
  | c :: c' :: cs => simp [asyncSteps, Step.Waits, Step.kind]

theorem exists_waits_stepsIn_iff (names : List String) {w : Wave V E} :
    (∃ st ∈ stepsIn names w, st.Waits) ↔ w.async ≠ [] := by
  have hinvoke : ¬∃ st ∈ w.sync.map fun op => Step.invoke (callIn names op), st.Waits := by
    simp [Step.Waits, Step.kind]
  simp only [stepsIn, List.mem_append, or_and_right, exists_or]
  rw [or_iff_right hinvoke, exists_waits_asyncSteps_iff, ne_eq, List.map_eq_nil_iff]

variable {s : Schedule V E} {params returns : List String}

/-- The slots of a layout. -/
theorem slotOf_laidOut (h : Complete s params returns) :
    (laidOut s params returns).slotOf = numbered 0 (layoutNames s params) := h.slots_eq

theorem find?_slotOf (h : Complete s params returns) {n : String} (hn : n ∈ layoutNames s params) :
    (laidOut s params returns).slotOf.find? n = some (slotIn (layoutNames s params) n) := by
  rw [slotOf_laidOut h, find?_numbered h.nodup 0 hn, Nat.zero_add]
  rfl

theorem runs_callIn (h : Complete s params returns) {op : Operation V E} (hop : op ∈ s.operations) :
    Runs (laidOut s params returns).slotOf op (callIn (layoutNames s params) op) := by
  refine ⟨find?_slotOf h (Complete.output_mem hop), ?_⟩
  rw [callIn, List.forall₂_map_right_iff, List.forall₂_same]
  exact fun i hi => find?_slotOf h (h.input_mem hop hi)

theorem runsWave_stepsIn (h : Complete s params returns) {w : Wave V E} (hw : w ∈ s.waves) :
    RunsWave (laidOut s params returns).slotOf w (stepsIn (layoutNames s params) w) := by
  have hcalls : ∀ ops : List (Operation V E), (∀ op ∈ ops, op ∈ w.operations) →
      List.Forall₂ (Runs (laidOut s params returns).slotOf) ops
        (ops.map (callIn (layoutNames s params))) := by
    intro ops hops
    rw [List.forall₂_map_right_iff, List.forall₂_same]
    exact fun op hop => runs_callIn h (List.mem_flatMap.2 ⟨w, hw, hops op hop⟩)
  have hsync := hcalls w.sync fun _ => List.mem_append_left _
  have hasync := hcalls w.async fun _ => List.mem_append_right _
  have hinvokes : (w.sync.map fun op => Step.invoke (callIn (layoutNames s params) op)) =
      (w.sync.map (callIn (layoutNames s params))).map .invoke := (List.map_map ..).symm
  rw [stepsIn, hinvokes]
  cases hops : w.async with
  | nil =>
    rw [List.map_nil, asyncSteps, List.append_nil]
    exact .sync hsync hops
  | cons op ops =>
    rw [hops] at hasync
    cases ops with
    | nil => exact .await hsync (hops ▸ hasync)
    | cons op' ops => exact .gather hsync (hops ▸ hasync) (by simp)

theorem body_laidOut (s : Schedule V E) (params returns : List String) :
    (laidOut s params returns).body =
      .bind (numbered 0 params) :: (s.waves.flatMap (stepsIn (layoutNames s params)) ++
        [.result (resultIn (layoutNames s params) returns)]) := rfl

theorem writes_waves (names : List String) (s : Schedule V E) :
    (s.waves.flatMap (stepsIn names)).flatMap Step.writes =
      (s.operations.map Operation.output).map (slotIn names) := by
  rw [List.flatMap_assoc, Schedule.operations, List.map_flatMap, List.map_flatMap]
  exact List.flatMap_congr fun w _ => writes_stepsIn names w

/-- Binding the parameters and running the waves writes the slots of all names. -/
theorem values_append_writes_waves (h : Complete s params returns) :
    (numbered 0 params).values ++
        (s.waves.flatMap (stepsIn (layoutNames s params))).flatMap Step.writes =
      (layoutNames s params).map (slotIn (layoutNames s params)) := by
  rw [writes_waves, layoutNames, values_numbered (List.nodup_append.1 h.nodup).1, ← List.map_append]

theorem writes_laidOut (h : Complete s params returns) :
    (laidOut s params returns).body.flatMap Step.writes =
      (layoutNames s params).map (slotIn (layoutNames s params)) := by
  rw [body_laidOut, List.flatMap_cons, List.flatMap_append, List.flatMap_singleton, Step.writes,
    Step.writes, List.append_nil, values_append_writes_waves h]

theorem readsWritten_laidOut (h : Complete s params returns) (hn : returns.Nodup) :
    ReadsWritten [] (laidOut s params returns).body := by
  have hparams : ∀ n ∈ params, slotIn (layoutNames s params) n ∈ (numbered 0 params).values := by
    intro n hmem
    rw [layoutNames, values_numbered (List.nodup_append.1 h.nodup).1]
    exact List.mem_map_of_mem hmem
  have hresult : ∀ slot ∈ (resultIn (layoutNames s params) returns).values,
      slot ∈ (layoutNames s params).map (slotIn (layoutNames s params)) := by
    rw [Table.values, Plan.entries_resultIn hn, List.map_map]
    exact List.forall_mem_map.2 fun n hmem => List.mem_map_of_mem (h.returns_mem n hmem)
  rw [body_laidOut]
  refine ⟨List.forall_mem_nil _, readsWritten_append.2
    ⟨readsWritten_waves h.runnable hparams, ?_, trivial⟩⟩
  rw [List.nil_append, Step.writes, values_append_writes_waves h]
  exact hresult

theorem isAsync_iff_exists_waits (s : Schedule V E) (params returns : List String) :
    s.isAsync = true ↔ ∃ st ∈ (laidOut s params returns).body, st.Waits := by
  have hbind : ∀ bindings, ¬(Step.bind bindings).Waits := by simp [Step.Waits, Step.kind]
  have hresult : ∀ results, ¬(Step.result results).Waits := by simp [Step.Waits, Step.kind]
  have hwaves : s.isAsync = true ↔ ∃ w ∈ s.waves, w.async ≠ [] := by
    simp [Schedule.isAsync]
  rw [hwaves, body_laidOut]
  simp only [← exists_waits_stepsIn_iff (layoutNames s params), List.mem_cons,
    List.mem_append, List.mem_flatMap, List.not_mem_nil, or_false]
  constructor
  · rintro ⟨w, hw, st, hst, hwaits⟩
    exact ⟨st, .inr (.inl ⟨w, hw, hst⟩), hwaits⟩
  · rintro ⟨st, rfl | ⟨w, hw, hst⟩ | rfl, hwaits⟩
    · exact absurd hwaits (hbind _)
    · exact ⟨w, hw, st, hst, hwaits⟩
    · exact absurd hwaits (hresult _)

/-- **The layout of a schedule is in single-assignment form.** -/
theorem singleAssignment_laidOut (h : Complete s params returns) (hn : returns.Nodup) :
    SingleAssignment s (laidOut s params returns) where
  body := by
    refine ⟨s.waves.map (stepsIn (layoutNames s params)), _, rfl, ?_⟩
    rw [List.forall₂_map_right_iff, List.forall₂_same]
    exact fun w hw => runsWave_stepsIn h hw
  slots := by
    rw [slotOf_laidOut h, numbered, Table.entries_ofList (by rw [map_fst_numbered]; exact h.nodup)]
    rfl
  bound := keys_numbered (List.nodup_append.1 h.nodup).1 0
  written := by
    rw [writes_laidOut h, map_slotIn h.nodup, slotOf_laidOut h, Table.size,
      entries_numbered h.nodup [], List.length_map]
  once := by
    rw [writes_laidOut h]
    exact h.nodup.map_on fun a ha b _ hab => (slotIn_inj ha).1 hab
  closed := fun before st after hsplit => (hsplit ▸ readsWritten_laidOut h hn).of_split
  isAsync := isAsync_iff_exists_waits s params returns

end Record

namespace Planner

/-- **Compiled plans are in single-assignment form.** Let a planner that has answered any requests
before compile a plan. The operations that the query needs are laid out in waves, and the record
runs them: first the parameters are bound, which are in ascending order, then the waves are run, and
then the outputs are collected. Every slot is written once, before it is read, and the plan is
asynchronous just in case some step waits. So a call on arguments that hold the parameters never
looks up anything that is not there and, if the plan is synchronous, never comes to a step that
would have to wait. -/
theorem compile_single_assignment (r : Registry V E) (config : Config)
    (before : List (Request V E)) {wanted hints : List String} {plan : Stamped (Plan V E)}
    {p p' : Planner V E} (hp : p = ({ registry := r, config } : Planner V E).after before)
    (h : (compile wanted hints).run.run p = (.ok plan, p')) :
    let q := find p.registry (Names.distinct wanted) hints
    (∃ s, Schedule.ofOperations q.operations (q.params ++ hints) = .ok s ∧
      s.operations.Perm q.operations ∧ (∀ w ∈ s.waves, w.Grouped) ∧
      plan.value.record.SingleAssignment s) ∧
    plan.value.record.params = q.params ∧ q.params.Pairwise (· < ·) ∧
    ∀ (registered : List (Operation V E)) (args : Table V),
      (∀ n ∈ plan.value.record.params, n ∈ args) →
      let outcome := (plan.value.call registered args).run.outcome
      (∀ key, outcome ≠ .error (.noSuchKey key)) ∧
        ∀ kind, outcome ≠ .error (.asynchronousStep kind) := by
  intro q
  have hplan := ofQuery_of_compile (hp ▸ coherent_after_of_fresh r config before) h
  have hn := Names.distinct_nodup wanted
  refine ⟨?_, Plan.params_of_ofQuery hplan, ?_, fun registered args ha => ⟨fun key hf => ?_,
    fun kind hf => ?_⟩⟩
  · obtain ⟨s, hs, he⟩ := Plan.ofQuery_eq_ok_iff.1 hplan
    obtain ⟨-, hperm, hgroup⟩ := Schedule.ofQuery_ok hs
    rw [he]
    exact ⟨s, hs, hperm, hgroup, Record.singleAssignment_laidOut (Schedule.complete_ofQuery hs) hn⟩
  · refine ((Names.sorted_pairwise _).and params_nodup).imp ?_
    exact fun ⟨hle, hne⟩ => String.not_le.1 fun hge => hne (String.le_antisymm hle hge)
  · obtain ⟨e, he⟩ | he := Plan.error_of_call hplan hn ha registered hf <;> cases he
  · obtain ⟨e, he⟩ | he := Plan.error_of_call hplan hn ha registered hf <;> cases he

/-- The theorem at a plan of two waves, with calls of all kinds. -/
theorem compile_single_assignment_of_two_waves :
    let op (output : String) (inputs : List String) (isAsync : Bool) : Operation Nat Unit :=
      { output, inputs, isAsync
        impl :=
          { label := output, style := if isAsync then .coroutine else .plain, pauses := 0
            apply := fun vs => .ok vs.sum } }
    let r : Registry Nat Unit :=
      { operations := [op "d" ["a", "b"] true, op "b" ["x"] true, op "a" ["x"] true,
          op "c" ["y"] false]
        nodup := by decide }
    let p : Planner Nat Unit := { registry := r }
    let args : Table Nat := { entries := [("y", 2), ("x", 1)] }
    ∃ plan p', (compile ["d", "c"] []).run.run p = (.ok plan, p') ∧
      plan.value.record.body =
        [.bind { entries := [("x", "v0"), ("y", "v1")] }, .invoke ⟨"v2", ["v1"]⟩,
          .gather [⟨"v3", ["v0"]⟩, ⟨"v4", ["v0"]⟩], .await ⟨"v5", ["v3", "v4"]⟩,
          .result { entries := [("d", "v5"), ("c", "v2")] }] ∧
      (∃ s : Schedule Nat Unit, plan.value.record.SingleAssignment s) ∧
      ∀ key, (plan.value.call [] args).run.outcome ≠ .error (.noSuchKey key) := by
  intro op r p args
  have hrecord : (((compile ["d", "c"] []).run.run p).1.toOption.map
      fun plan => (plan.value.record.params, plan.value.record.body)) =
        some (["x", "y"],
          [.bind { entries := [("x", "v0"), ("y", "v1")] }, .invoke ⟨"v2", ["v1"]⟩,
            .gather [⟨"v3", ["v0"]⟩, ⟨"v4", ["v0"]⟩], .await ⟨"v5", ["v3", "v4"]⟩,
            .result { entries := [("d", "v5"), ("c", "v2")] }]) := by cbv
  generalize h : (compile ["d", "c"] []).run.run p = result at hrecord
  obtain ⟨_ | plan, p'⟩ := result
  · cases hrecord
  · obtain ⟨hparams, hbody⟩ := Prod.mk.inj (Option.some.inj hrecord)
    obtain ⟨⟨s, -, -, -, hform⟩, -, -, hcall⟩ := compile_single_assignment r {} [] rfl h
    have ha : ∀ n ∈ plan.value.record.params, n ∈ args := by
      rw [hparams]
      decide
    exact ⟨plan, p', rfl, hbody, ⟨s, hform⟩, (hcall [] args ha).1⟩

end Planner

end DemandPlan
