import DemandPlan.Plan.Link
import DemandPlan.Proofs.Record
import DemandPlan.Proofs.Run
import DemandPlan.Proofs.Shapes

/-!
# Linked plans

What is known of a plan that has been loaded. The checks that it has passed look at the last call of
each slot, so they say nothing of earlier calls of a slot that is called several times, nor of a
fan-out without calls.

* `linkOne_eq_missing_iff` and its companions: how one entry of a record fares.
* `linked_of_load`: every name that has a slot is registered, with the shape of the slot's last call.
* `waitsNowhere_of_load`: when the steps of a synchronous plan do not wait.
* `calledAsDeclared_of_load`: when the operations are called as they are declared.
-/

namespace DemandPlan

namespace Record

variable {r : Record}

/-! ## Repeated calls -/

/-- No step of the body waits. -/
def WaitsNowhere (r : Record) : Prop := ∀ st ∈ r.body, st.kind ≠ .await ∧ st.kind ≠ .gather

/-- No slot is both waited for and called at once. -/
def OneKindPerSlot (r : Record) : Prop :=
  ∀ c ∈ r.calls, ∀ c' ∈ r.calls, c.1.slot = c'.1.slot → c.2 = c'.2

/-- All calls of a slot have the same shape. -/
def OneShapePerSlot (r : Record) : Prop :=
  ∀ c ∈ r.calls, ∀ c' ∈ r.calls, c.1.slot = c'.1.slot → Call.shape c = Call.shape c'

instance : Decidable r.WaitsNowhere :=
  inferInstanceAs (Decidable (∀ st ∈ r.body, st.kind ≠ .await ∧ st.kind ≠ .gather))

instance : Decidable r.OneKindPerSlot :=
  inferInstanceAs (Decidable (∀ c ∈ r.calls, ∀ c' ∈ r.calls, c.1.slot = c'.1.slot → c.2 = c'.2))

instance : Decidable r.OneShapePerSlot :=
  inferInstanceAs (Decidable
    (∀ c ∈ r.calls, ∀ c' ∈ r.calls, c.1.slot = c'.1.slot → Call.shape c = Call.shape c'))

/-- In a body that does not wait no call is waited for. -/
theorem WaitsNowhere.kind_eq (h : r.WaitsNowhere) {c : Call × Bool} (hc : c ∈ r.calls) :
    c.2 = false := by
  obtain ⟨st, hst, hc⟩ := mem_calls.1 hc
  obtain ⟨hawait, hgather⟩ := h st hst
  cases st with
  | bind bindings => cases hc
  | invoke c' => exact List.mem_singleton.1 hc ▸ rfl
  | await c' => exact absurd rfl hawait
  | gather cs => exact absurd rfl hgather
  | result returns => cases hc

theorem waitsNowhere_iff (hlast : ∀ c, r.IsLastCall c → c.2 = false) :
    r.WaitsNowhere ↔ .gather [] ∉ r.body ∧ r.OneKindPerSlot := by
  constructor
  · intro h
    refine ⟨fun hempty => (h _ hempty).2 rfl, fun c hc c' hc' _ => ?_⟩
    rw [h.kind_eq hc, h.kind_eq hc']
  · rintro ⟨hempty, hone⟩ st hst
    have hkind : ∀ c ∈ st.calls, c.2 = false := by
      intro c hc
      have hc := mem_calls.2 ⟨st, hst, hc⟩
      obtain ⟨c', hc', hslot⟩ := exists_isLastCall hc
      exact (hone c hc c' hc'.mem hslot.symm).trans (hlast c' hc')
    cases st with
    | bind | invoke | result => exact ⟨nofun, nofun⟩
    | await c => cases hkind (c, true) List.mem_cons_self
    | gather cs =>
      cases cs with
      | nil => exact absurd hst hempty
      | cons c cs => cases hkind (c, true) List.mem_cons_self

end Record

namespace Plan

variable {V E : Type} {plan : Plan V E} {kind : Step.Kind}

/-! ## Steps that do not wait -/

theorem require_ne_error {α : Type} (t : Table α) (name : String) :
    require (E := E) t name ≠ .error (.asynchronousStep kind) := by
  unfold require
  split <;> simp

theorem prepare_ne_error (slots : Table V) (c : Call) :
    plan.prepare slots c ≠ .error (.asynchronousStep kind) :=
  Outcome.bind_ne_error (require_ne_error _ _) fun _ =>
    Outcome.bind_ne_error (Outcome.mapM_ne_error fun a _ => require_ne_error _ a) fun _ =>
      Outcome.pure_ne_error _

theorem call_ne_error (impl : Implementation V E) (args : List V) :
    (impl.call args).outcome ≠ .error (.asynchronousStep kind) := by
  have h : impl.outcome args ≠ .error (.asynchronousStep kind) := by
    unfold Implementation.outcome
    cases impl.apply args <;> simp [Except.mapError]
  unfold Implementation.call
  split <;> exact h

/-- Only a step that waits can fail because the plan is synchronous. -/
theorem step_ne_error {st : Step} (h : st.kind ≠ .await ∧ st.kind ≠ .gather) (args slots : Table V) :
    (plan.step args slots st).outcome ≠ .error (.asynchronousStep kind) := by
  cases st with
  | bind bindings =>
    refine Outcome.foldlM_ne_error (fun slots b => ?_) bindings.toList slots
    exact Outcome.bind_ne_error (require_ne_error args b.1) fun _ => Outcome.pure_ne_error _
  | invoke c =>
    refine Run.outcome_bind_ne_error (prepare_ne_error slots c) fun p => ?_
    exact Run.outcome_bind_ne_error (call_ne_error p.1 p.2) fun _ => Outcome.pure_ne_error _
  | await c => exact absurd rfl h.1
  | gather cs => exact absurd rfl h.2
  | result returns =>
    refine Outcome.bind_ne_error (Outcome.mapM_ne_error fun e _ => ?_) fun _ =>
      Outcome.pure_ne_error _
    exact Outcome.bind_ne_error (require_ne_error _ _) fun _ => Outcome.pure_ne_error _

theorem runFrom_ne_error {steps : List Step}
    (h : ∀ st ∈ steps, st.kind ≠ .await ∧ st.kind ≠ .gather) (args slots : Table V) :
    (plan.runFrom args slots steps).outcome ≠ .error (.asynchronousStep kind) := by
  induction steps generalizing slots with
  | nil => exact fun h => nomatch h
  | cons st steps ih =>
    have hstep : (plan.step args slots st).outcome ≠ .error (.asynchronousStep kind) :=
      step_ne_error (h st List.mem_cons_self) args slots
    have ih := ih fun st hst => h st (List.mem_cons_of_mem _ hst)
    cases st with
    | result returns => exact hstep
    | bind | invoke | await | gather => exact Run.outcome_bind_ne_error hstep ih

/-- A plan none of whose steps waits does not fail because it is synchronous. -/
theorem call_ne_asynchronousStep (h : plan.record.WaitsNowhere)
    (registered : List (Operation V E)) (args : Table V) :
    (plan.call registered args).run.outcome ≠ .error (.asynchronousStep kind) := by
  unfold call
  split
  · exact fun h => nomatch h
  · exact runFrom_ne_error h args .empty

/-! ## What linking checks -/

section Link

variable {registry : Registry V E} {r : Record} {source : Source}

theorem linkOne_eq_missing_iff {shapes : Table Shape} {name slot n : String} :
    linkOne shapes registry name slot = .missing n ↔ registry.lookup name = none ∧ n = name := by
  unfold linkOne
  cases registry.lookup name with
  | none => simp [eq_comm]
  | some op =>
    cases shapes.find? slot with
    | none => simp
    | some shape => by_cases h : shape = op.shape <;> simp [h]

theorem linkOne_eq_mismatched_iff {shapes : Table Shape} {name slot n : String} :
    linkOne shapes registry name slot = .mismatched n ↔ (∃ op shape, registry.lookup name = some op ∧
      shapes.find? slot = some shape ∧ shape ≠ op.shape) ∧ n = name := by
  unfold linkOne
  cases registry.lookup name with
  | none => simp
  | some op =>
    cases shapes.find? slot with
    | none => simp
    | some shape => by_cases h : shape = op.shape <;> simp [h, eq_comm]

theorem linkOne_eq_linked_iff {shapes : Table Shape} {name slot s : String}
    {impl : Implementation V E} :
    linkOne shapes registry name slot = .linked s impl ↔ (∃ op, registry.lookup name = some op ∧
      op.impl = impl ∧ ∀ shape, shapes.find? slot = some shape → shape = op.shape) ∧ s = slot := by
  unfold linkOne
  cases registry.lookup name with
  | none => simp
  | some op =>
    cases shapes.find? slot with
    | none => simp [and_comm, eq_comm]
    | some shape => by_cases h : shape = op.shape <;> simp [h, and_comm, eq_comm]

theorem linkOne_eq_linked {shapes : Table Shape} {name slot : String} {op : Operation V E}
    (h : registry.lookup name = some op)
    (hs : ∀ shape, shapes.find? slot = some shape → shape = op.shape) :
    linkOne shapes registry name slot = .linked slot op.impl :=
  linkOne_eq_linked_iff.2 ⟨⟨op, h, rfl, hs⟩, rfl⟩

/-- An entry that is neither missing nor mismatched is linked to an operation with the right
shape. -/
theorem lookup_of_linkOne {shapes : Table Shape} {name slot : String}
    (hmissing : ∀ n, linkOne shapes registry name slot ≠ .missing n)
    (hmismatched : ∀ n, linkOne shapes registry name slot ≠ .mismatched n) :
    ∃ op, registry.lookup name = some op ∧
      ∀ shape, shapes.find? slot = some shape → shape = op.shape := by
  cases hl : linkOne shapes registry name slot with
  | missing n => exact absurd hl (hmissing n)
  | mismatched n => exact absurd hl (hmismatched n)
  | linked s impl =>
    obtain ⟨⟨op, hop, -, hshape⟩, -⟩ := linkOne_eq_linked_iff.1 hl
    exact ⟨op, hop, hshape⟩

theorem link_of_links {links : List (String × Implementation V E)}
    (h : r.formulas.entries.map (fun e => linkOne r.callShapes registry e.1 e.2) =
      links.map fun l => .linked l.1 l.2) :
    link r registry = .ok { record := r, formulas := Table.ofList links } := by
  unfold link
  simp [Table.toList, h, List.filterMap_map]

/-- What is known of a plan that has been loaded: its record can be used, and every name that has a
slot is registered, with the shape of the last call of this slot. -/
structure Linked (registry : Registry V E) (plan : Plan V E) : Prop where
  check : plan.record.check = .ok ()
  lookup : ∀ e ∈ plan.record.formulas.entries, ∃ op, registry.lookup e.1 = some op ∧
    ∀ shape, plan.record.callShapes.find? e.2 = some shape → shape = op.shape

theorem linked_of_link (hcheck : r.check = .ok ()) (h : link r registry = .ok plan) :
    Linked registry plan := by
  unfold link at h
  dsimp only at h
  split at h
  · next hempty =>
    obtain rfl := Except.ok.inj h
    refine ⟨hcheck, fun e he => ?_⟩
    simp only [Bool.and_eq_true, List.isEmpty_iff, List.filterMap_eq_nil_iff, List.forall_mem_map]
      at hempty
    refine lookup_of_linkOne (fun n hn => ?_) fun n hn => ?_
    · have := hempty.1 e he
      rw [hn] at this
      cases this
    · have := hempty.2 e he
      rw [hn] at this
      cases this
  · cases h

theorem linked_of_load (h : load source registry = .ok plan) : Linked registry plan := by
  unfold load at h
  cases hr : Record.load source with
  | error e => rw [hr] at h; cases h
  | ok r =>
    rw [hr] at h
    exact linked_of_link (Record.load_eq_ok_iff.1 hr).2 h

theorem load_of_check (h : r.check = .ok ()) (registry : Registry V E) :
    load (.record r) registry = link r registry := by
  unfold load
  rw [Record.load_eq_ok_iff.2 ⟨rfl, h⟩]
  rfl

/-! ## Synchronous plans -/

/-- **Synchronous plans.** In a synchronous plan that has been loaded no last call is waited for. So
no step of its body waits, just in case there is no fan-out without calls and no slot is both waited
for and called at once; and then no run is stopped by a step that would have to wait. -/
theorem waitsNowhere_of_load (h : load source registry = .ok plan)
    (hs : plan.record.isAsync = false) :
    (∀ c, plan.record.IsLastCall c → c.2 = false) ∧
    (plan.record.WaitsNowhere ↔ .gather [] ∉ plan.record.body ∧ plan.record.OneKindPerSlot) ∧
    (plan.record.WaitsNowhere → ∀ (registered : List (Operation V E)) (args : Table V) kind,
      (plan.call registered args).run.outcome ≠ .error (.asynchronousStep kind)) := by
  have hlast := (Record.check_eq_ok_iff.1 (linked_of_load h).check).2.1 hs
  exact ⟨hlast, Record.waitsNowhere_iff hlast, fun hw registered args _ =>
    call_ne_asynchronousStep hw registered args⟩

/-- The theorem at a plan that calls its operation twice. -/
theorem waitsNowhere_of_load_of_repeated :
    let count : Operation Nat Unit :=
      { output := "y", inputs := ["x"], isAsync := false
        impl := { label := "count", style := .plain, pauses := 0, apply := fun vs => .ok vs.length } }
    let registry : Registry Nat Unit := { operations := [count] }
    let r : Record :=
      { formulas := { entries := [("y", "v1")] }
        params := ["x"]
        returns := ["y"]
        body := [.bind { entries := [("x", "v0")] }, .invoke ⟨"v1", ["v0"]⟩, .invoke ⟨"v1", ["v1"]⟩,
          .result { entries := [("y", "v1")] }] }
    ∃ plan, load (.record r) registry = .ok plan ∧ plan.record.isAsync = false ∧
      plan.record.WaitsNowhere := by
  intro count registry r
  have hcheck : r.check = .ok () := by decide +kernel
  have hload : load (.record r) registry =
      .ok { record := r, formulas := { entries := [("v1", count.impl)] } } :=
    (load_of_check hcheck registry).trans rfl
  obtain ⟨-, hiff, -⟩ := waitsNowhere_of_load hload rfl
  exact ⟨_, hload, rfl, hiff.2 ⟨by decide, by decide⟩⟩

/-- A synchronous plan that waits for a slot and then calls it at once is loaded all the same, and
its calls are stopped by the first of these steps. -/
theorem exists_load_and_asynchronousStep :
    let count : Operation Nat Unit :=
      { output := "y", inputs := ["x"], isAsync := false
        impl := { label := "count", style := .plain, pauses := 0, apply := fun vs => .ok vs.length } }
    let registry : Registry Nat Unit := { operations := [count] }
    let r : Record :=
      { formulas := { entries := [("y", "v1")] }
        params := ["x"]
        returns := ["y"]
        body := [.bind { entries := [("x", "v0")] }, .await ⟨"v1", ["v0"]⟩, .invoke ⟨"v1", ["v0"]⟩,
          .result { entries := [("y", "v1")] }] }
    ∃ plan, load (.record r) registry = .ok plan ∧ plan.record.isAsync = false ∧
      ¬plan.record.WaitsNowhere ∧
      (plan.call registry.operations { entries := [("x", 1)] }).run.outcome =
        .error (.asynchronousStep .await) := by
  intro count registry r
  have hcheck : r.check = .ok () := by decide +kernel
  have hload : load (.record r) registry =
      .ok { record := r, formulas := { entries := [("v1", count.impl)] } } :=
    (load_of_check hcheck registry).trans rfl
  exact ⟨_, hload, rfl, by decide, rfl⟩

/-! ## Calls and declarations -/

/-- Every name that has the slot of a call is registered, and the call has the shape with which the
operation is declared: one argument for each input, and waited for just in case the operation is
asynchronous. -/
def CalledAsDeclared (registry : Registry V E) (r : Record) (c : Call × Bool) : Prop :=
  ∀ name, r.formulas.find? name = some c.1.slot → ∃ op, registry.lookup name = some op ∧
    c.1.args.length = op.inputs.length ∧ c.2 = op.isAsync

theorem calledAsDeclared_iff {c : Call × Bool} : CalledAsDeclared registry r c ↔
    ∀ name, r.formulas.find? name = some c.1.slot → ∃ op, registry.lookup name = some op ∧
      Call.shape c = op.shape := by
  simp only [CalledAsDeclared, Call.shape, Operation.shape, Shape.mk.injEq]

theorem Linked.calledAsDeclared (h : Linked registry plan) {c : Call × Bool}
    (hc : plan.record.IsLastCall c) : CalledAsDeclared registry plan.record c := by
  refine calledAsDeclared_iff.2 fun name hname => ?_
  obtain ⟨op, hop, hshape⟩ := h.lookup _ (Table.find?_eq_some_iff.1 hname)
  exact ⟨op, hop, hshape _ (Record.find?_callShapes_eq_some_iff.2 ⟨c, hc, rfl, rfl⟩)⟩

/-- Calls of one slot that are both made as declared have the same shape, if the slot has a name. -/
theorem shape_eq_of_calledAsDeclared {c c' : Call × Bool} (hc : CalledAsDeclared registry r c)
    (hc' : CalledAsDeclared registry r c') (hslot : c.1.slot = c'.1.slot)
    (hname : c.1.slot ∈ r.formulas.values) : Call.shape c = Call.shape c' := by
  obtain ⟨⟨name, slot⟩, he, rfl⟩ := List.mem_map.1 hname
  have hfound := Table.find?_eq_some_iff.2 he
  obtain ⟨op, hop, hshape⟩ := calledAsDeclared_iff.1 hc name hfound
  obtain ⟨op', hop', hshape'⟩ := calledAsDeclared_iff.1 hc' name (hslot ▸ hfound)
  obtain rfl := Option.some.inj (hop.symm.trans hop')
  exact hshape.trans hshape'.symm

/-- **Calls as declared.** In a plan that has been loaded every last call is made as its operation is
declared. So every call is, just in case all calls of a slot have the same shape. -/
theorem calledAsDeclared_of_load (h : load source registry = .ok plan) :
    (∀ c, plan.record.IsLastCall c → CalledAsDeclared registry plan.record c) ∧
    ((∀ c ∈ plan.record.calls, CalledAsDeclared registry plan.record c) ↔
      plan.record.OneShapePerSlot) := by
  have hlinked := linked_of_load h
  have hnamed := (Record.check_eq_ok_iff.1 hlinked.check).2.2
  refine ⟨fun c hc => hlinked.calledAsDeclared hc, fun hall c hc c' hc' hslot => ?_,
    fun hone c hc => ?_⟩
  · exact shape_eq_of_calledAsDeclared (hall c hc) (hall c' hc') hslot (hnamed c hc)
  · obtain ⟨c', hc', hslot⟩ := Record.exists_isLastCall hc
    have hdeclared := calledAsDeclared_iff.1 (hlinked.calledAsDeclared hc')
    rw [hone c' hc'.mem c hc hslot, hslot] at hdeclared
    exact calledAsDeclared_iff.2 hdeclared

/-- The theorem at a plan in which two names share a slot that is called twice. -/
theorem calledAsDeclared_of_load_of_shared :
    let impl : Implementation Nat Unit :=
      { label := "count", style := .coroutine, pauses := 1, apply := fun vs => .ok vs.length }
    let first : Operation Nat Unit := { output := "b", inputs := ["a"], impl, isAsync := true }
    let second : Operation Nat Unit := { output := "c", inputs := ["b"], impl, isAsync := true }
    let registry : Registry Nat Unit := { operations := [first, second], nodup := by decide }
    let r : Record :=
      { formulas := { entries := [("b", "v1"), ("c", "v1")] }
        params := ["a"]
        returns := ["c"]
        isAsync := true
        body := [.bind { entries := [("a", "v0")] }, .gather [⟨"v1", ["v0"]⟩], .await ⟨"v1", ["v1"]⟩,
          .result { entries := [("c", "v1")] }] }
    ∃ plan, load (.record r) registry = .ok plan ∧ plan.record.calls.length = 2 ∧
      ∀ c ∈ plan.record.calls, CalledAsDeclared registry plan.record c := by
  intro impl first second registry r
  have hcheck : r.check = .ok () := by decide +kernel
  have hload : load (.record r) registry =
      .ok { record := r, formulas := { entries := [("v1", impl)] } } :=
    (load_of_check hcheck registry).trans rfl
  obtain ⟨-, hiff⟩ := calledAsDeclared_of_load hload
  exact ⟨_, hload, rfl, hiff.2 (by decide)⟩

/-- A plan is loaded although the first call of a slot has one argument too many. -/
theorem exists_load_and_not_calledAsDeclared :
    let count : Operation Nat Unit :=
      { output := "b", inputs := ["a"], isAsync := false
        impl := { label := "count", style := .plain, pauses := 0, apply := fun vs => .ok vs.length } }
    let registry : Registry Nat Unit := { operations := [count] }
    let r : Record :=
      { formulas := { entries := [("b", "v1")] }
        params := ["a"]
        returns := ["b"]
        body := [.bind { entries := [("a", "v0")] }, .invoke ⟨"v1", ["v0", "v0"]⟩,
          .invoke ⟨"v1", ["v0"]⟩, .result { entries := [("b", "v1")] }] }
    ∃ plan, load (.record r) registry = .ok plan ∧
      ∃ c ∈ plan.record.calls, ¬CalledAsDeclared registry plan.record c := by
  intro count registry r
  have hcheck : r.check = .ok () := by decide +kernel
  have hload : load (.record r) registry =
      .ok { record := r, formulas := { entries := [("v1", count.impl)] } } :=
    (load_of_check hcheck registry).trans rfl
  refine ⟨_, hload, (⟨"v1", ["v0", "v0"]⟩, false), List.mem_cons_self, fun h => ?_⟩
  obtain ⟨op, hop, harity, -⟩ := h "b" rfl
  obtain rfl : count = op := Option.some.inj hop
  cases harity

end Link

end Plan

end DemandPlan
