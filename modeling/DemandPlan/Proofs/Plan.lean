import DemandPlan.Proofs.Layout
import DemandPlan.Proofs.Meaning
import DemandPlan.Proofs.Run

/-!
# Running a plan

A plan does what its schedule says: going through the steps over a table of slots is going through
the waves, each operation being called on the values of its inputs.

* `Holds`: the slots hold the values of the names that are available.
* `runFrom_wave`: the steps of a wave do what the wave does, and then the slots hold more.
* `runFrom_body`: the whole body, from empty slots to the table of outputs.
-/

namespace DemandPlan

variable {V E : Type}

/-! ## Operations and waves on values -/

namespace Operation

/-- The values of the inputs, when they have values. -/
def argumentsIn (value : String → Except (Trouble E) V) (op : Operation V E) : List V :=
  match op.inputs.mapM value with
  | .ok vs => vs
  | .error _ => []

/-- What a call of the operation on the values of its inputs shows. -/
def activityIn (value : String → Except (Trouble E) V) (op : Operation V E) :
    Activity (Failure E) V :=
  op.activity (op.argumentsIn value)

/-- The operation's output has the value that a call on the values of its inputs gives. -/
def Consistent (value : String → Except (Trouble E) V) (op : Operation V E) : Prop :=
  value op.output = op.inputs.mapM value >>= fun vs => (op.outcome vs).mapError .failed

variable {value : String → Except (Trouble E) V} {op : Operation V E}

theorem mapM_inputs (h : ∀ i ∈ op.inputs, ∃ v, value i = .ok v) :
    op.inputs.mapM value = .ok (op.argumentsIn value) := by
  obtain ⟨vs, hvs⟩ := Outcome.mapM_ok_of_forall h
  rw [argumentsIn, hvs]

theorem Consistent.eq (hc : op.Consistent value) (h : ∀ i ∈ op.inputs, ∃ v, value i = .ok v) :
    value op.output = (op.activityIn value).outcome.mapError .failed := by
  unfold Consistent at hc
  rw [hc, mapM_inputs h]
  rfl

/-- The output has a value just in case the call succeeds, with that value. -/
theorem Consistent.ok_iff (hc : op.Consistent value) (h : ∀ i ∈ op.inputs, ∃ v, value i = .ok v)
    {v : V} : value op.output = .ok v ↔ (op.activityIn value).outcome = .ok v := by
  rw [hc.eq h]
  cases (op.activityIn value).outcome <;> simp [Except.mapError]

end Operation

/-- What a wave does: the synchronous calls one by one, then the asynchronous ones all at once. -/
def Wave.runIn (value : String → Except (Trouble E) V) (w : Wave V E) : Run (Failure E) Unit := do
  Run.all (w.sync.map fun op => (op.activityIn value).run)
  let _ ← FanOut.gather (w.async.map fun op => op.activityIn value)
  return ()

/-- What a schedule does: its waves one after the other. -/
def Schedule.runIn (value : String → Except (Trouble E) V) (s : Schedule V E) :
    Run (Failure E) Unit :=
  Run.all (s.waves.map (Wave.runIn value))

namespace Wave

variable {value : String → Except (Trouble E) V} {w : Wave V E}

theorem outcome_runIn_eq_ok_iff : (w.runIn value).outcome = .ok () ↔
    ∀ op ∈ w.operations, ∃ v, (op.activityIn value).outcome = .ok v := by
  have hsync : (Run.all (w.sync.map fun op => (op.activityIn value).run)).outcome = .ok () ↔
      ∀ op ∈ w.sync, ∃ v, (op.activityIn value).outcome = .ok v := by
    rw [Run.outcome_all_eq_ok_iff, List.forall_mem_map]
    rfl
  have hasync : (∃ vs, (FanOut.gather (w.async.map fun op => op.activityIn value)).outcome =
      .ok vs) ↔ ∀ op ∈ w.async, ∃ v, (op.activityIn value).outcome = .ok v := by
    simp only [FanOut.gather_outcome, List.mapM_map]
    constructor
    · rintro ⟨vs, hvs⟩ op hop
      obtain ⟨v, -, hv⟩ := Outcome.exists_ok_of_mapM hvs hop
      exact ⟨v, hv⟩
    · exact Outcome.mapM_ok_of_forall
  rw [operations, List.forall_mem_append, ← hsync, ← hasync]
  constructor
  · intro h
    obtain ⟨_, h, h'⟩ := Run.outcome_bind_eq_ok_iff.1 h
    obtain ⟨vs, hvs, -⟩ := Run.outcome_bind_eq_ok_iff.1 h'
    exact ⟨h, vs, hvs⟩
  · rintro ⟨h, vs, hvs⟩
    exact Run.outcome_bind_eq_ok_iff.2 ⟨(), h, Run.outcome_bind_eq_ok_iff.2 ⟨vs, hvs, rfl⟩⟩

/-- A wave that succeeds has called each of its operations once. -/
theorem openings_runIn_perm (h : (w.runIn value).outcome = .ok ()) :
    (w.runIn value).openings.Perm (w.operations.map Operation.openingEvent) := by
  have hone : ∀ ops : List (Operation V E),
      (ops.flatMap fun op => (op.activityIn value).run.openings)
      = ops.map Operation.openingEvent := by
    intro ops
    rw [List.map_eq_flatMap]
    exact List.flatMap_congr fun op _ => op.openings_activity _
  obtain ⟨_, hsync, hasync⟩ := Run.outcome_bind_eq_ok_iff.1 h
  obtain ⟨vs, hvs, -⟩ := Run.outcome_bind_eq_ok_iff.1 hasync
  have heq : (w.runIn value).openings =
      (Run.all (w.sync.map fun op => (op.activityIn value).run)).openings ++
        (FanOut.gather (w.async.map fun op => op.activityIn value)).openings := by
    rw [runIn, Run.openings_bind_of_ok hsync, Run.openings_bind_of_ok hvs]
    exact congrArg _ (List.append_nil _)
  rw [heq, Run.openings_all hsync, List.flatMap_map, hone, operations, List.map_append]
  refine List.Perm.append_left _ ((FanOut.openings_gather_perm _).trans (List.Perm.of_eq ?_))
  rw [List.flatMap_map, hone]

end Wave

namespace Schedule

variable {value : String → Except (Trouble E) V} {s : Schedule V E}

theorem outcome_runIn_eq_ok_iff : (s.runIn value).outcome = .ok () ↔
    ∀ op ∈ s.operations, ∃ v, (op.activityIn value).outcome = .ok v := by
  rw [runIn, Run.outcome_all_eq_ok_iff, List.forall_mem_map, operations, List.forall_mem_flatMap]
  refine forall₂_congr fun w _ => ?_
  rw [← Wave.outcome_runIn_eq_ok_iff]
  exact ⟨fun ⟨_, h⟩ => h, fun h => ⟨(), h⟩⟩

/-- A schedule that succeeds has called each of its operations once. -/
theorem openings_runIn_perm (h : (s.runIn value).outcome = .ok ()) :
    (s.runIn value).openings.Perm (s.operations.map Operation.openingEvent) := by
  have hall : ∀ w ∈ s.waves, (w.runIn value).outcome = .ok () := by
    rw [runIn, Run.outcome_all_eq_ok_iff, List.forall_mem_map] at h
    intro w hw
    obtain ⟨_, hw⟩ := h w hw
    exact hw
  rw [runIn, Run.openings_all h, List.flatMap_map, operations, List.map_flatMap]
  exact List.Perm.flatMap_left _ fun w hw => Wave.openings_runIn_perm (hall w hw)

end Schedule

/-- In waves that can run, the calls succeed just in case the outputs have values. -/
theorem Schedule.calls_ok_iff {value : String → Except (Trouble E) V} {waves : List (Wave V E)}
    {available : List String} (hr : Runnable available waves)
    (ha : ∀ n ∈ available, ∃ v, value n = .ok v)
    (hc : ∀ op ∈ waves.flatMap Wave.operations, op.Consistent value) :
    (∀ op ∈ waves.flatMap Wave.operations, ∃ v, (op.activityIn value).outcome = .ok v) ↔
      ∀ op ∈ waves.flatMap Wave.operations, ∃ v, value op.output = .ok v := by
  induction waves generalizing available with
  | nil => simp
  | cons w waves ih =>
    rw [List.flatMap_cons] at hc
    rw [List.flatMap_cons, List.forall_mem_append, List.forall_mem_append]
    have hwave : (∀ op ∈ w.operations, ∃ v, (op.activityIn value).outcome = .ok v) ↔
        ∀ op ∈ w.operations, ∃ v, value op.output = .ok v :=
      forall₂_congr fun op hop => exists_congr fun v =>
        ((hc op (List.mem_append_left _ hop)).ok_iff fun i hi => ha i (hr.1 op hop i hi)).symm
    rw [hwave]
    refine and_congr_right fun hout => ih hr.2 (fun n hn => ?_) fun op hop =>
      hc op (List.mem_append_right _ hop)
    rcases List.mem_append.1 hn with hn | hn
    · exact ha n hn
    · obtain ⟨op, hop, rfl⟩ := List.mem_map.1 hn
      exact hout op hop

/-! ## Slots -/

namespace Plan

open Record

variable {names : List String} {value : String → Except (Trouble E) V}

/-- Every available name has a value, and its slot holds it. -/
def Holds (names : List String) (value : String → Except (Trouble E) V) (available : List String)
    (slots : Table V) : Prop :=
  ∀ n ∈ available, n ∈ names ∧ ∃ v, value n = .ok v ∧ slots.find? (slotIn names n) = some v

/-- The slots after the values of some names have been put into theirs. -/
def fill (names : List String) (value : String → Except (Trouble E) V) (slots : Table V)
    (outputs : List String) : Table V :=
  outputs.foldl (fun slots n =>
    match value n with
    | .ok v => slots.insert (slotIn names n) v
    | .error _ => slots) slots

theorem fill_cons_of_ok {slots : Table V} {n : String} {v : V} (h : value n = .ok v)
    (outputs : List String) :
    fill names value slots (n :: outputs) =
      fill names value (slots.insert (slotIn names n) v) outputs := by
  simp only [fill, List.foldl_cons, h]

variable {available : List String} {slots : Table V}

theorem Holds.nil (slots : Table V) : Holds names value [] slots := fun _ h => nomatch h

/-- Another value is put into its slot. -/
theorem Holds.insert (h : Holds names value available slots) {n : String} (hn : n ∈ names) {v : V}
    (hv : value n = .ok v) :
    Holds names value (available ++ [n]) (slots.insert (slotIn names n) v) := by
  intro m hm
  rw [Table.find?_insert]
  rcases List.mem_append.1 hm with hm | hm
  · obtain ⟨hmem, w, hw, hslot⟩ := h m hm
    refine ⟨hmem, w, hw, ?_⟩
    split
    · next hs =>
      obtain rfl := (slotIn_inj hmem).1 hs
      rw [hv, Except.ok.injEq] at hw
      rw [hw]
    · exact hslot
  · obtain rfl := List.mem_singleton.1 hm
    exact ⟨hn, v, hv, if_pos rfl⟩

theorem Holds.fill (h : Holds names value available slots) {outputs : List String}
    (hn : ∀ n ∈ outputs, n ∈ names) (hv : ∀ n ∈ outputs, ∃ v, value n = .ok v) :
    Holds names value (available ++ outputs) (fill names value slots outputs) := by
  induction outputs generalizing available slots with
  | nil => rwa [List.append_nil]
  | cons n outputs ih =>
    obtain ⟨v, hv'⟩ := hv n List.mem_cons_self
    rw [fill_cons_of_ok hv', List.append_cons]
    exact ih (h.insert (hn n List.mem_cons_self) hv')
      (fun m hm => hn m (List.mem_cons_of_mem _ hm)) fun m hm => hv m (List.mem_cons_of_mem _ hm)

theorem Holds.mono {available' : List String} (h : Holds names value available slots)
    (hsub : ∀ n ∈ available', n ∈ available) : Holds names value available' slots :=
  fun n hn => h n (hsub n hn)

theorem Holds.require_eq (h : Holds names value available slots) {n : String}
    (hn : n ∈ available) {v : V} (hv : value n = .ok v) :
    require (E := E) slots (slotIn names n) = .ok v := by
  obtain ⟨-, w, hw, hslot⟩ := h n hn
  rw [hv, Except.ok.injEq] at hw
  rw [require, hslot, hw]

/-! ## Steps -/

section Steps

variable {s : Schedule V E} {params returns : List String} {consulted : Consulted V E}
  {args : Table V}

/-- The facts about an operation that a wave is about to call. -/
structure Callable (s : Schedule V E) (value : String → Except (Trouble E) V)
    (available : List String) (op : Operation V E) : Prop where
  mem : op ∈ s.operations
  inputs_mem : ∀ i ∈ op.inputs, i ∈ available
  consistent : op.Consistent value

theorem Holds.inputs_ok (hh : Holds names value available slots) {op : Operation V E}
    (hop : ∀ i ∈ op.inputs, i ∈ available) : ∀ i ∈ op.inputs, ∃ v, value i = .ok v := by
  intro i hi
  obtain ⟨-, v, hv, -⟩ := hh i (hop i hi)
  exact ⟨v, hv⟩

/-- The call of an operation finds its implementation and the values of its inputs. -/
theorem prepare_callIn (hc : Complete s params returns)
    (hh : Holds (layoutNames s params) value available slots) {op : Operation V E}
    (hop : Callable s value available op) :
    (laidOut s params returns consulted).prepare slots (callIn (layoutNames s params) op) =
      .ok (op.impl, op.argumentsIn value) := by
  have hargs : op.inputs.mapM (fun i => require (E := E) slots (slotIn (layoutNames s params) i)) =
      .ok (op.argumentsIn value) :=
    Outcome.mapM_ok_imp (Operation.mapM_inputs (hh.inputs_ok hop.inputs_mem))
      fun i hi v hv => hh.require_eq (hop.inputs_mem i hi) hv
  unfold prepare
  rw [callIn, require, find?_formulas hc hop.mem, List.mapM_map]
  show (do
    let args ← op.inputs.mapM (fun i => require (E := E) slots (slotIn (layoutNames s params) i))
    return (op.impl, args) : Except (Failure E) _) = _
  rw [hargs]
  rfl

/-- A waited call of an asynchronous operation. -/
theorem activity_callIn (hc : Complete s params returns)
    (hh : Holds (layoutNames s params) value available slots) {op : Operation V E}
    (hop : Callable s value available op) (ha : op.isAsync = true) :
    (laidOut s params returns consulted).activity slots (callIn (layoutNames s params) op) =
      op.activityIn value := by
  rw [activity, prepare_callIn hc hh hop]
  exact (Operation.activity_of_async ha _).symm

/-- The synchronous calls of a wave, and then whatever follows. -/
theorem runFrom_invokes (hc : Complete s params returns) {ops : List (Operation V E)}
    (hops : ∀ op ∈ ops, Callable s value available op ∧ op.isAsync = false)
    (hh : Holds (layoutNames s params) value available slots) (rest : List Step) :
    (laidOut s params returns consulted).runFrom args slots
        (ops.map (fun op => .invoke (callIn (layoutNames s params) op)) ++ rest) =
      Run.all (ops.map fun op => (op.activityIn value).run) >>= fun _ =>
        (laidOut s params returns consulted).runFrom args
          (fill (layoutNames s params) value slots (ops.map Operation.output)) rest := by
  induction ops generalizing slots with
  | nil =>
    rw [List.map_nil, List.nil_append, List.map_nil, Run.all, pure_bind]
    rfl
  | cons op ops ih =>
    obtain ⟨hop, hsync⟩ := hops op List.mem_cons_self
    have hstep : (laidOut s params returns consulted).step args slots
        (.invoke (callIn (layoutNames s params) op)) =
          (op.activityIn value).run >>= fun v =>
            pure (slots.insert (slotIn (layoutNames s params) op.output) v) := by
      rw [step, prepare_callIn hc hh hop, Run.ofExcept_ok_bind]
      simp only [Operation.call_eq_run hsync]
      rfl
    -- A call that succeeds gives the output its value, so the next call finds it in its slot.
    have hrun : ∀ v, (op.activityIn value).run.outcome = .ok v → value op.output = .ok v :=
      fun v hv => (hop.consistent.ok_iff (hh.inputs_ok hop.inputs_mem)).2 hv
    have hcons : (laidOut s params returns consulted).runFrom args slots
        ((op :: ops).map (fun op => .invoke (callIn (layoutNames s params) op)) ++ rest) =
          (op.activityIn value).run >>= fun v =>
            (laidOut s params returns consulted).runFrom args
              (slots.insert (slotIn (layoutNames s params) op.output) v)
              (ops.map (fun op => .invoke (callIn (layoutNames s params) op)) ++ rest) := by
      rw [List.map_cons, List.cons_append, runFrom, hstep, bind_assoc]
      · simp only [pure_bind]
      · intro t h
        cases h
    rw [hcons, List.map_cons, Run.all, bind_assoc]
    refine Run.bind_congr fun v hv => ?_
    have hh' := (hh.insert (Complete.output_mem hop.mem) (hrun v hv)).mono
      fun n hn => List.mem_append_left _ hn
    rw [ih (fun op hop => hops op (List.mem_cons_of_mem _ hop)) hh', List.map_cons,
      fill_cons_of_ok (hrun v hv)]

/-- Values that are put into the slots of their calls, one by one. -/
theorem store_eq_fill {ops : List (Operation V E)} {vs : List V}
    (h : List.Forall₂ (fun op v => value op.output = .ok v) ops vs) :
    store slots (ops.map (callIn names)) vs =
      fill names value slots (ops.map Operation.output) := by
  induction h generalizing slots with
  | nil => rfl
  | cons hv _ ih =>
    rw [List.map_cons, List.map_cons, fill_cons_of_ok hv, ← ih]
    rfl

/-- The asynchronous calls of a wave, and then whatever follows. -/
theorem runFrom_asyncSteps (hc : Complete s params returns) {ops : List (Operation V E)}
    (hops : ∀ op ∈ ops, Callable s value available op ∧ op.isAsync = true)
    (hasync : ops ≠ [] → s.isAsync = true)
    (hh : Holds (layoutNames s params) value available slots) (rest : List Step) :
    (laidOut s params returns consulted).runFrom args slots
        (asyncSteps (ops.map (callIn (layoutNames s params))) ++ rest) =
      FanOut.gather (ops.map fun op => op.activityIn value) >>= fun _ =>
        (laidOut s params returns consulted).runFrom args
          (fill (layoutNames s params) value slots (ops.map Operation.output)) rest := by
  have hact : ∀ op ∈ ops, (laidOut s params returns consulted).activity slots
      (callIn (layoutNames s params) op) = op.activityIn value :=
    fun op hop => activity_callIn hc hh (hops op hop).1 (hops op hop).2
  have hval : ∀ op ∈ ops, ∀ v, (op.activityIn value).outcome = .ok v → value op.output = .ok v :=
    fun op hop v hv =>
      ((hops op hop).1.consistent.ok_iff (hh.inputs_ok (hops op hop).1.inputs_mem)).2 hv
  -- No call has no step, one call is waited for alone, and several are fanned out.
  match ops, hops, hasync, hact, hval with
  | [], _, _, _, _ =>
    rw [List.map_nil, List.map_nil, FanOut.gather_nil, pure_bind]
    rfl
  | [op], hops, hasync, hact, hval =>
    have hrec : (laidOut s params returns consulted).record.isAsync = true :=
      hasync (List.cons_ne_nil _ _)
    rw [List.map_singleton, List.map_singleton, FanOut.gather_singleton, asyncSteps,
      List.singleton_append, runFrom, step, if_pos hrec, hact op List.mem_cons_self]
    · simp only [bind_assoc, pure_bind]
      refine Run.bind_congr fun v hv => ?_
      rw [List.map_singleton, fill_cons_of_ok (hval op List.mem_cons_self v hv)]
      rfl
    · intro t h
      cases h
  | op :: op' :: ops, hops, hasync, hact, hval =>
    have hrec : (laidOut s params returns consulted).record.isAsync = true :=
      hasync (List.cons_ne_nil _ _)
    have hacts : ((op :: op' :: ops).map (callIn (layoutNames s params))).map
        ((laidOut s params returns consulted).activity slots) =
          (op :: op' :: ops).map fun op => op.activityIn value := by
      rw [List.map_map]
      exact List.map_congr_left hact
    rw [show asyncSteps ((op :: op' :: ops).map (callIn (layoutNames s params))) =
      [.gather ((op :: op' :: ops).map (callIn (layoutNames s params)))] from rfl,
      List.singleton_append, runFrom, step, if_pos hrec, hacts]
    · simp only [bind_assoc, pure_bind]
      refine Run.bind_congr fun vs hvs => ?_
      rw [FanOut.gather_outcome, List.mapM_map, Outcome.mapM_eq_ok_iff] at hvs
      rw [store_eq_fill (Outcome.forall₂_imp_mem hvs hval)]
    · intro t h
      cases h

theorem fill_append (outputs outputs' : List String) :
    fill names value slots (outputs ++ outputs') =
      fill names value (fill names value slots outputs) outputs' := by
  simp only [fill, List.foldl_append]

/-- **The steps of a wave** do what the wave does, and then the slots hold its values too. -/
theorem runFrom_wave (hc : Complete s params returns) {w : Wave V E} (hw : w ∈ s.waves)
    (hg : w.Grouped) (hops : ∀ op ∈ w.operations, Callable s value available op)
    (hh : Holds (layoutNames s params) value available slots) (rest : List Step) :
    (laidOut s params returns consulted).runFrom args slots
        (stepsIn (layoutNames s params) w ++ rest) =
      w.runIn value >>= fun _ =>
        (laidOut s params returns consulted).runFrom args
          (fill (layoutNames s params) value slots w.outputs) rest := by
  have hsync : ∀ op ∈ w.sync, Callable s value available op ∧ op.isAsync = false :=
    fun op hop => ⟨hops op (List.mem_append_left _ hop), hg.1 op hop⟩
  have hasync : ∀ op ∈ w.async, Callable s value available op ∧ op.isAsync = true :=
    fun op hop => ⟨hops op (List.mem_append_right _ hop), hg.2 op hop⟩
  have hkind : w.async ≠ [] → s.isAsync = true := fun hne => by
    rw [Schedule.isAsync, List.any_eq_true]
    exact ⟨w, hw, by simpa using hne⟩
  rw [stepsIn, List.append_assoc, runFrom_invokes hc hsync hh, Wave.runIn, bind_assoc]
  refine Run.bind_congr fun _ hall => ?_
  rw [Run.outcome_all_eq_ok_iff, List.forall_mem_map] at hall
  -- The synchronous calls come first: the others find the slots filled with their outputs.
  have hh' : Holds (layoutNames s params) value available
      (fill (layoutNames s params) value slots (w.sync.map Operation.output)) := by
    refine (hh.fill (fun n hn => ?_) fun n hn => ?_).mono fun n hn => List.mem_append_left _ hn
    · obtain ⟨op, hop, rfl⟩ := List.mem_map.1 hn
      exact Complete.output_mem (hsync op hop).1.mem
    · obtain ⟨op, hop, rfl⟩ := List.mem_map.1 hn
      obtain ⟨v, hv⟩ := hall op hop
      exact ⟨v, ((hsync op hop).1.consistent.ok_iff
        (hh.inputs_ok (hsync op hop).1.inputs_mem)).2 hv⟩
  rw [runFrom_asyncSteps hc hasync hkind hh', ← fill_append, ← List.map_append, bind_assoc]
  simp only [pure_bind]
  rfl

/-- All waves, from the names that are available before the first of them. -/
theorem runFrom_waves (hc : Complete s params returns) {waves : List (Wave V E)}
    (hmem : ∀ w ∈ waves, w ∈ s.waves) (hg : ∀ w ∈ waves, w.Grouped)
    (hops : ∀ op ∈ s.operations, op.Consistent value)
    (hr : Schedule.Runnable available waves)
    (hh : Holds (layoutNames s params) value available slots) (rest : List Step) :
    (laidOut s params returns consulted).runFrom args slots
        (waves.flatMap (stepsIn (layoutNames s params)) ++ rest) =
      Run.all (waves.map (Wave.runIn value)) >>= fun _ =>
        (laidOut s params returns consulted).runFrom args
          (fill (layoutNames s params) value slots (waves.flatMap Wave.outputs)) rest := by
  induction waves generalizing available slots with
  | nil =>
    rw [List.map_nil, Run.all, pure_bind]
    rfl
  | cons w waves ih =>
    have hw : w ∈ s.waves := hmem w List.mem_cons_self
    have hcall : ∀ op ∈ w.operations, Callable s value available op := fun op hop =>
      have hin : op ∈ s.operations := List.mem_flatMap.2 ⟨w, hw, hop⟩
      ⟨hin, hr.1 op hop, hops op hin⟩
    rw [List.flatMap_cons, List.append_assoc,
      runFrom_wave hc hw (hg w List.mem_cons_self) hcall hh, List.map_cons, Run.all, bind_assoc]
    refine Run.bind_congr fun _ hok => ?_
    rw [Wave.outcome_runIn_eq_ok_iff] at hok
    -- The next wave may read what this one has computed, too.
    have hh' : Holds (layoutNames s params) value (available ++ w.outputs)
        (fill (layoutNames s params) value slots w.outputs) := by
      refine hh.fill (fun n hn => ?_) fun n hn => ?_
      · obtain ⟨op, hop, rfl⟩ := List.mem_map.1 hn
        exact Complete.output_mem (hcall op hop).mem
      · obtain ⟨op, hop, rfl⟩ := List.mem_map.1 hn
        obtain ⟨v, hv⟩ := hok op hop
        exact ⟨v, ((hcall op hop).consistent.ok_iff (hh.inputs_ok (hcall op hop).inputs_mem)).2 hv⟩
    rw [ih (fun w hw => hmem w (List.mem_cons_of_mem _ hw))
      (fun w hw => hg w (List.mem_cons_of_mem _ hw)) hr.2 hh', List.flatMap_cons, fill_append]

/-! ## The whole body -/

/-- The values of some names, as far as they have values. -/
def valuesIn (value : String → Except (Trouble E) V) (names : List String) : Table V :=
  Table.ofList (names.filterMap fun n =>
    match value n with
    | .ok v => some (n, v)
    | .error _ => none)

/-- The parameters are copied into their slots. -/
theorem bindAll_eq {bindings : Table String} {params : List String}
    (hb : bindings.entries = params.map fun n => (n, slotIn names n))
    (ha : ∀ n ∈ params, ∃ v, args.find? n = some v ∧ value n = .ok v) :
    bindAll (E := E) args bindings slots = .ok (fill names value slots params) := by
  rw [bindAll, Table.toList, hb]
  clear hb
  induction params generalizing slots with
  | nil => rfl
  | cons n params ih =>
    obtain ⟨v, hav, hv⟩ := ha n List.mem_cons_self
    have hreq : require (E := E) args n = .ok v := by rw [require, hav]
    rw [List.map_cons, List.foldlM_cons, fill_cons_of_ok hv, hreq]
    exact ih fun m hm => ha m (List.mem_cons_of_mem _ hm)

/-- The outputs are read from their slots. -/
theorem collect_eq (hn : returns.Nodup) (hh : Holds names value available slots)
    (hsub : ∀ n ∈ returns, n ∈ available) :
    collect (E := E) slots (resultIn names returns) = .ok (valuesIn value returns) := by
  have hkeys : ((returns.map fun n => (n, slotIn names n)).map Prod.fst).Nodup := by
    simpa [Function.comp_def] using hn
  have hvalues : ∀ {ns : List String}, (∀ n ∈ ns, n ∈ available) →
      ns.mapM (fun n => do return (n, ← require (E := E) slots (slotIn names n))) =
        .ok (ns.filterMap fun n =>
          match value n with
          | .ok v => some (n, v)
          | .error _ => none) := by
    intro ns hns
    induction ns with
    | nil => rfl
    | cons n ns ih =>
      obtain ⟨-, v, hv, -⟩ := hh n (hns n List.mem_cons_self)
      have hreq := hh.require_eq (hns n List.mem_cons_self) hv
      rw [List.filterMap_cons, Outcome.mapM_cons_of_ok (v := (n, v)) (by rw [hreq]; rfl),
        ih fun m hm => hns m (List.mem_cons_of_mem _ hm), hv]
      rfl
  rw [collect, Table.toList, resultIn, Table.entries_ofList hkeys, List.mapM_map]
  exact (congrArg (· >>= fun values => .ok (Table.ofList values)) (hvalues hsub)).trans rfl

/-- **The body of a plan.** On arguments that hold all parameters, it does what the schedule does
and then gives the values of the wanted outputs. -/
theorem runFrom_body (hc : Complete s params returns) (hn : returns.Nodup)
    (hg : ∀ w ∈ s.waves, w.Grouped) (hops : ∀ op ∈ s.operations, op.Consistent value)
    (ha : ∀ n ∈ params, ∃ v, args.find? n = some v ∧ value n = .ok v) :
    (laidOut s params returns consulted).runFrom args .empty
        (laidOut s params returns consulted).record.body =
      s.runIn value >>= fun _ => pure (valuesIn value returns) := by
  have hnames : ∀ n ∈ params, n ∈ layoutNames s params := fun n hn => List.mem_append_left _ hn
  have hbind : bindAll (E := E) args (numbered 0 params) .empty =
      .ok (fill (layoutNames s params) value .empty params) :=
    bindAll_eq (entries_numbered (List.nodup_append.1 hc.nodup).1 _) ha
  have hparams : Holds (layoutNames s params) value params
      (fill (layoutNames s params) value .empty params) := by
    have h := (Holds.nil .empty).fill hnames fun n hn => by
      obtain ⟨v, -, hv⟩ := ha n hn
      exact ⟨v, hv⟩
    rwa [List.nil_append] at h
  have hbody : (laidOut s params returns consulted).record.body =
      .bind (numbered 0 params) :: (s.waves.flatMap (stepsIn (layoutNames s params)) ++
        [.result (resultIn (layoutNames s params) returns)]) := rfl
  rw [hbody, runFrom, step, hbind, Run.ofExcept_ok_bind]
  · rw [runFrom_waves hc (fun _ hw => hw) hg hops hc.runnable hparams, Schedule.runIn]
    refine Run.bind_congr fun _ hok => ?_
    have hok : (s.runIn value).outcome = .ok () := hok
    rw [Schedule.outcome_runIn_eq_ok_iff, Schedule.operations,
      Schedule.calls_ok_iff hc.runnable (fun n hn => ?_) hops] at hok
    · have houtputs : s.waves.flatMap Wave.outputs = s.operations.map Operation.output :=
        (List.map_flatMap ..).symm
      have hall : Holds (layoutNames s params) value (layoutNames s params) (fill
          (layoutNames s params) value (fill (layoutNames s params) value .empty params)
          (s.waves.flatMap Wave.outputs)) := by
        rw [houtputs]
        refine hparams.fill (fun n hn => List.mem_append_right _ hn) fun n hn => ?_
        obtain ⟨op, hop, rfl⟩ := List.mem_map.1 hn
        exact hok op hop
      rw [runFrom, step, collect_eq hn hall hc.returns_mem]
      rfl
    · obtain ⟨v, -, hv⟩ := ha n hn
      exact ⟨v, hv⟩
  · intro t h
    cases h

end Steps

end Plan

end DemandPlan
