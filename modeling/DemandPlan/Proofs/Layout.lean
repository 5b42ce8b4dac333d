import DemandPlan.Plan.Basic
import DemandPlan.Proofs.Outcome
import DemandPlan.Proofs.Schedule

/-!
# The record of a schedule

What the layout of a schedule is, in one piece, when the schedule can be run on its parameters:
every name has a slot of its own, and no look-up of a slot fails.

* `slotIn_inj`: different names have different slots.
* `Plan.ofSchedule_eq`: the plan of a schedule that can be run.
-/

namespace DemandPlan

variable {V E : Type}

namespace Record

/-! ## Slots -/

theorem slotName_inj {m n : Nat} (h : slotName m = slotName n) : m = n := by
  have hchars := congrArg String.toList h
  simp only [slotName, String.toList_append, List.append_cancel_left_eq] at hchars
  have hdigits : Nat.toDigits 10 m = Nat.toDigits 10 n := by
    rw [← Nat.toList_repr, ← Nat.toList_repr]
    exact hchars
  rw [← Nat.ofDigitChars_ten_toDigits (n := m), hdigits, Nat.ofDigitChars_ten_toDigits]

/-- The slot of a name among all names of a plan. -/
def slotIn (names : List String) (name : String) : String := slotName (names.idxOf name)

theorem slotIn_inj {names : List String} {a b : String} (ha : a ∈ names) :
    slotIn names a = slotIn names b ↔ a = b :=
  ⟨fun h => (List.idxOf_inj ha).1 (slotName_inj h), fun h => h ▸ rfl⟩

theorem map_fst_numbered (start : Nat) (names : List String) :
    ((names.zipIdx start).map fun e => (e.1, slotName e.2)).map Prod.fst = names := by
  rw [List.map_map]
  exact List.zipIdx_map_fst start names

theorem keys_numbered {names : List String} (h : names.Nodup) (start : Nat) :
    (numbered start names).keys = names := by
  rw [Table.keys, numbered, Table.entries_ofList (by rwa [map_fst_numbered]), map_fst_numbered]

theorem numbered_append {names names' : List String} (h : (names ++ names').Nodup) (start : Nat) :
    (numbered start names).merge (numbered (start + names.length) names') =
      numbered start (names ++ names') := by
  have hcat : ((names ++ names').zipIdx start).map (fun e => (e.1, slotName e.2)) =
      (names.zipIdx start).map (fun e => (e.1, slotName e.2)) ++
        (names'.zipIdx (start + names.length)).map fun e => (e.1, slotName e.2) := by
    rw [List.zipIdx_append, List.map_append]
  unfold numbered
  rw [Table.merge_ofList, hcat]
  rw [← hcat, map_fst_numbered]
  exact h

theorem find?_numbered {names : List String} (h : names.Nodup) (start : Nat) {name : String}
    (hn : name ∈ names) :
    (numbered start names).find? name = some (slotName (start + names.idxOf name)) := by
  rw [Table.find?_eq_some_iff, numbered, Table.entries_ofList (by rwa [map_fst_numbered])]
  refine List.mem_map.2 ⟨(name, start + names.idxOf name), ?_, rfl⟩
  have hlt : names.idxOf name < names.length := List.idxOf_lt_length_iff.2 hn
  rw [List.mk_mem_zipIdx_iff_le_and_getElem?_sub]
  simp only [Nat.le_add_right, Nat.add_sub_cancel_left, true_and]
  rw [List.getElem?_eq_getElem hlt, List.getElem_idxOf hlt]

/-- Names at the front of all names, with their slots. -/
theorem entries_numbered {names : List String} (h : names.Nodup) (others : List String) :
    (numbered 0 names).entries = names.map fun n => (n, slotIn (names ++ others) n) := by
  rw [numbered, Table.entries_ofList (by rwa [map_fst_numbered])]
  refine List.ext_getElem (by simp) fun i hi hi' => ?_
  have hlt : i < names.length := by simpa using hi'
  simp only [List.getElem_map, List.getElem_zipIdx, Nat.zero_add, slotIn]
  rw [List.idxOf_append_of_mem (List.getElem_mem hlt), h.idxOf_getElem i hlt]

theorem values_numbered {names : List String} (h : names.Nodup) (others : List String) :
    (numbered 0 names).values = names.map (slotIn (names ++ others)) := by
  rw [Table.values, entries_numbered h others, List.map_map]
  rfl

/-- Names at the end of all names, with their slots. -/
theorem entries_numbered_append {names names' : List String} (h : (names ++ names').Nodup) :
    (numbered names.length names').entries =
      names'.map fun n => (n, slotIn (names ++ names') n) := by
  obtain ⟨-, hn, hdisjoint⟩ := List.nodup_append.1 h
  rw [numbered, Table.entries_ofList (by rwa [map_fst_numbered])]
  refine List.ext_getElem (by simp) fun i hi hi' => ?_
  have hlt : i < names'.length := by simpa using hi'
  have hnot : names'[i] ∉ names := fun hin => hdisjoint _ hin _ (List.getElem_mem hlt) rfl
  simp only [List.getElem_map, List.getElem_zipIdx, slotIn]
  rw [List.idxOf_append_of_notMem hnot, hn.idxOf_getElem i hlt, Nat.add_comm]

/-! ## Steps -/

/-- The call that runs an operation, when every name has its slot. -/
def callIn (names : List String) (op : Operation V E) : Call :=
  { slot := slotIn names op.output, args := op.inputs.map (slotIn names) }

/-- The steps that run a wave, when every name has its slot. -/
def stepsIn (names : List String) (w : Wave V E) : List Step :=
  w.sync.map (fun op => .invoke (callIn names op)) ++ asyncSteps (w.async.map (callIn names))

/-- The slots of the outputs, when every name has its slot. -/
def resultIn (names returns : List String) : Table String :=
  Table.ofList (returns.map fun n => (n, slotIn names n))

theorem slotFor_numbered {names : List String} (h : names.Nodup) {name : String}
    (hn : name ∈ names) : slotFor (numbered 0 names) name = .ok (slotIn names name) := by
  rw [slotFor, find?_numbered h 0 hn, Nat.zero_add]
  rfl

theorem callFor_numbered {names : List String} (h : names.Nodup) {op : Operation V E}
    (ho : op.output ∈ names) (hi : ∀ i ∈ op.inputs, i ∈ names) :
    callFor (numbered 0 names) op = .ok (callIn names op) := by
  unfold callFor
  rw [slotFor_numbered h ho, Outcome.mapM_eq_ok_map fun i hin => slotFor_numbered h (hi i hin)]
  rfl

theorem stepsFor_numbered {names : List String} (h : names.Nodup) {w : Wave V E}
    (hw : ∀ op ∈ w.operations, op.output ∈ names ∧ ∀ i ∈ op.inputs, i ∈ names) :
    stepsFor (numbered 0 names) w = .ok (stepsIn names w) := by
  have hall : ∀ op ∈ w.operations, callFor (numbered 0 names) op = .ok (callIn names op) :=
    fun op hop => callFor_numbered h (hw op hop).1 (hw op hop).2
  unfold stepsFor
  rw [Outcome.mapM_eq_ok_map fun op hop => hall op (List.mem_append_left _ hop),
    Outcome.mapM_eq_ok_map fun op hop => hall op (List.mem_append_right _ hop)]
  show Except.ok _ = Except.ok _
  rw [List.map_map]
  rfl

theorem resultFor_numbered {names returns : List String} (h : names.Nodup)
    (hr : ∀ n ∈ returns, n ∈ names) :
    resultFor (numbered 0 names) returns = .ok (resultIn names returns) := by
  unfold resultFor
  rw [Outcome.mapM_eq_ok_map (g := fun n => (n, slotIn names n)) fun n hn => by
    rw [slotFor_numbered h (hr n hn)]
    rfl]
  rfl

/-! ## The record -/

/-- All names of a plan: the parameters, then what is computed, wave by wave. -/
def layoutNames (s : Schedule V E) (params : List String) : List String :=
  params ++ s.operations.map Operation.output

/-- The record of a schedule, when every name has its slot. -/
def laidOut (s : Schedule V E) (params returns : List String) : Record where
  formulas := numbered params.length (s.operations.map Operation.output)
  params := params
  returns := Names.distinct returns
  isAsync := s.isAsync
  body := .bind (numbered 0 params) :: s.waves.flatMap (stepsIn (layoutNames s params)) ++
    [.result (resultIn (layoutNames s params) returns)]

/-- Everything that a plan reads is there: its operations have distinct outputs, which are no
parameters, its waves can run, and the wanted outputs are parameters or computed. -/
structure Complete (s : Schedule V E) (params returns : List String) : Prop where
  nodup : (layoutNames s params).Nodup
  runnable : Schedule.Runnable params s.waves
  returns_mem : ∀ n ∈ returns, n ∈ layoutNames s params

theorem mem_of_runnable {waves : List (Wave V E)} {available : List String}
    (h : Schedule.Runnable available waves) {op : Operation V E}
    (hop : op ∈ waves.flatMap Wave.operations) {i : String} (hi : i ∈ op.inputs) :
    i ∈ available ++ (waves.flatMap Wave.operations).map Operation.output := by
  induction waves generalizing available with
  | nil => cases hop
  | cons w waves ih =>
    rw [List.flatMap_cons] at hop
    rw [List.flatMap_cons, List.map_append, ← List.append_assoc]
    rcases List.mem_append.1 hop with hop | hop
    · exact List.mem_append_left _ (List.mem_append_left _ (h.1 op hop i hi))
    · exact ih h.2 hop

namespace Complete

variable {s : Schedule V E} {params returns : List String}

theorem output_mem {op : Operation V E} (hop : op ∈ s.operations) :
    op.output ∈ layoutNames s params := List.mem_append_right _ (List.mem_map_of_mem hop)

theorem input_mem (h : Complete s params returns) {op : Operation V E} (hop : op ∈ s.operations)
    {i : String} (hi : i ∈ op.inputs) : i ∈ layoutNames s params :=
  mem_of_runnable h.runnable hop hi

theorem slots_eq (h : Complete s params returns) :
    (numbered 0 params).merge (numbered params.length (s.operations.map Operation.output)) =
      numbered 0 (layoutNames s params) := by
  have happ := numbered_append h.nodup 0
  rwa [Nat.zero_add] at happ

theorem ofSchedule_eq (h : Complete s params returns) :
    ofSchedule s params returns = .ok (laidOut s params returns) := by
  unfold ofSchedule
  simp only [h.slots_eq]
  rw [Outcome.mapM_eq_ok_map fun w hw => stepsFor_numbered h.nodup fun op hop => by
      have hop : op ∈ s.operations := List.mem_flatMap.2 ⟨w, hw, hop⟩
      exact ⟨output_mem hop, fun i hi => h.input_mem hop hi⟩,
    resultFor_numbered h.nodup h.returns_mem]
  rfl

end Complete

end Record

namespace Plan

open Record

/-- The plan of a schedule, when every name has its slot. -/
def laidOut (s : Schedule V E) (params returns : List String)
    (consulted : Consulted V E := .registered) : Plan V E where
  record := Record.laidOut s params returns
  formulas := Table.ofList
    (s.operations.map fun op => (slotIn (layoutNames s params) op.output, op.impl))
  consulted := consulted

variable {s : Schedule V E} {params returns : List String}

/-- **The plan of a schedule.** A schedule that can be run on its parameters has a plan. -/
theorem ofSchedule_eq (h : Complete s params returns) (consulted : Consulted V E) :
    ofSchedule s params returns consulted = .ok (laidOut s params returns consulted) := by
  have houtputs : (s.operations.map Operation.output).Nodup := (List.nodup_append.1 h.nodup).2.1
  have hslot : ∀ op ∈ s.operations,
      slotFor (Record.laidOut s params returns).formulas op.output =
        .ok (slotIn (layoutNames s params) op.output) := by
    intro op hop
    have hmem : op.output ∈ s.operations.map Operation.output := List.mem_map_of_mem hop
    have hnot : op.output ∉ params := fun hp =>
      (List.nodup_append.1 h.nodup).2.2 _ hp _ hmem rfl
    rw [Record.laidOut, slotFor, find?_numbered houtputs _ hmem, slotIn, layoutNames,
      List.idxOf_append_of_notMem hnot, Nat.add_comm]
  unfold ofSchedule
  rw [h.ofSchedule_eq]
  show (do
    let formulas ← s.operations.mapM fun op => do
      let slot ← slotFor (Record.laidOut s params returns).formulas op.output
      return (slot, op.impl)
    return _ : Except String (Plan V E)) = _
  rw [Outcome.mapM_eq_ok_map (g := fun op => (slotIn (layoutNames s params) op.output, op.impl))
    fun op hop => by rw [hslot op hop]; rfl]
  rfl

/-- The implementation of an operation is linked to the slot of its output. -/
theorem find?_formulas (h : Complete s params returns) {op : Operation V E}
    (hop : op ∈ s.operations) (consulted : Consulted V E) :
    (laidOut s params returns consulted).formulas.find? (slotIn (layoutNames s params) op.output) =
      some op.impl := by
  have hinj : ((s.operations.map fun op =>
      (slotIn (layoutNames s params) op.output, op.impl)).map Prod.fst).Nodup := by
    have houtputs := (List.nodup_append.1 h.nodup).2.1
    rw [List.map_map, show (Prod.fst ∘ fun op : Operation V E =>
      (slotIn (layoutNames s params) op.output, op.impl)) =
        slotIn (layoutNames s params) ∘ Operation.output from rfl, ← List.map_map]
    exact houtputs.map_on fun a ha b _ hab =>
      (slotIn_inj (List.mem_append_right params ha)).1 hab
  rw [Table.find?_eq_some_iff, laidOut, Table.entries_ofList hinj]
  exact List.mem_map.2 ⟨op, hop, rfl⟩

end Plan

end DemandPlan
