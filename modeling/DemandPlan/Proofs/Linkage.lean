import DemandPlan.Proofs.Body
import DemandPlan.Proofs.Linking

/-!
# What linking guarantees

A loaded record can be linked to a registry just in case every name that it maps to a slot is
registered, with the shape in which the slot is called. The error names all that do not fit. And
linking is complete: the checks of loading and of linking together leave no call without a formula,
so whatever a linked plan fails to find when it runs is a value.

* `link_cases`: how a record fares.
* `step_lacks`, `runFrom_stops`: where a run ends that does not find something.
* `load_links`: what is reported, and what a plan has that is not refused.
-/

namespace DemandPlan.Plan

variable {V E : Type} {registry : Registry V E} {r : Record} {plan : Plan V E}

/-! ## One record -/

/-- A name of a record that is not registered. -/
def Unregistered (registry : Registry V E) (r : Record) (name : String) : Prop :=
  name ∈ r.formulas ∧ registry.lookup name = none

/-- A name of a record that is registered, but with another number of inputs or of another kind than
the calls of its slot have, as far as the slot is called. -/
def Reshaped (registry : Registry V E) (r : Record) (name : String) : Prop :=
  ∃ slot op shape, r.formulas.find? name = some slot ∧ registry.lookup name = some op ∧
    r.callShapes.find? slot = some shape ∧
    (shape.arity ≠ op.inputs.length ∨ shape.awaited ≠ op.isAsync)

/-- A report on all names of a record that do not fit. -/
structure Reports (registry : Registry V E) (r : Record) (missing mismatched : List String) :
    Prop where
  mem_missing_iff : ∀ name, name ∈ missing ↔ Unregistered registry r name
  mem_mismatched_iff : ∀ name, name ∈ mismatched ↔ Reshaped registry r name
  missing_ascending : missing.Pairwise (· < ·)
  mismatched_ascending : mismatched.Pairwise (· < ·)

/-- How the entries of a record fare, in order. -/
def links (registry : Registry V E) (r : Record) : List (Link V E) :=
  r.formulas.entries.map fun e => linkOne r.callShapes registry e.1 e.2

theorem mem_links_iff {l : Link V E} : l ∈ links registry r ↔
    ∃ name slot, r.formulas.find? name = some slot ∧
      linkOne r.callShapes registry name slot = l := by
  simp only [links, List.mem_map, Prod.exists, ← Table.find?_eq_some_iff]

theorem missing_mem_links_iff {name : String} :
    .missing name ∈ links registry r ↔ Unregistered registry r name := by
  simp only [mem_links_iff, linkOne_eq_missing_iff, Unregistered, Table.mem_iff_exists_find?]
  constructor
  · rintro ⟨_, slot, hslot, hnone, rfl⟩
    exact ⟨⟨slot, hslot⟩, hnone⟩
  · rintro ⟨⟨slot, hslot⟩, hnone⟩
    exact ⟨name, slot, hslot, hnone, rfl⟩

theorem mismatched_mem_links_iff {name : String} :
    .mismatched name ∈ links registry r ↔ Reshaped registry r name := by
  simp only [mem_links_iff, linkOne_eq_mismatched_iff]
  constructor
  · rintro ⟨_, slot, hslot, ⟨op, shape, hop, hshape, hne⟩, rfl⟩
    refine ⟨slot, op, shape, hslot, hop, hshape, not_and_or.1 fun ⟨ha, hk⟩ => hne ?_⟩
    rw [Operation.shape, ← ha, ← hk]
  · rintro ⟨slot, op, shape, hslot, hop, hshape, hne⟩
    refine ⟨name, slot, hslot, ⟨op, shape, hop, hshape, ?_⟩, rfl⟩
    rintro rfl
    exact hne.elim (fun h => h rfl) fun h => h rfl

/-- Of the entries that fare in some way each has its own name. -/
theorem pairwise_sorted_links {f : Link V E → Option String}
    (hf : ∀ name slot n, f (linkOne r.callShapes registry name slot) = some n → n = name) :
    (Names.sorted ((links registry r).filterMap f)).Pairwise (· < ·) := by
  have hnodup : ((links registry r).filterMap f).Nodup := by
    rw [links, List.filterMap_map]
    refine List.Pairwise.filterMap _ (fun e e' hne n hn n' hn' => ?_)
      (List.pairwise_map.1 r.formulas.nodup)
    rw [hf _ _ n hn, hf _ _ n' hn']
    exact hne
  exact Names.pairwise_lt (Names.sorted_nodup hnodup) (Names.sorted_pairwise _)

/-- Linking sorts the entries by how they fare. -/
theorem link_eq (r : Record) (registry : Registry V E) :
    ∃ (missing? mismatched? : Link V E → Option String)
      (linked? : Link V E → Option (String × Implementation V E)),
      (∀ l n, missing? l = some n ↔ l = .missing n) ∧
      (∀ l n, mismatched? l = some n ↔ l = .mismatched n) ∧
      (∀ l e, linked? l = some e ↔ l = .linked e.1 e.2) ∧
      link r registry =
        let missing := (links registry r).filterMap missing?
        let mismatched := (links registry r).filterMap mismatched?
        if missing.isEmpty && mismatched.isEmpty then
          .ok { record := r, formulas := Table.ofList ((links registry r).filterMap linked?) }
        else .error (.unlinkable missing mismatched) := by
  refine ⟨_, _, _, fun l n => ?_, fun l n => ?_, fun l e => ?_, rfl⟩
  · cases l <;> simp
  · cases l <;> simp
  · cases l <;> simp [Prod.ext_iff]

theorem mem_filterMap_iff {α : Type} {f : Link V E → Option α} {g : α → Link V E}
    (hf : ∀ l a, f l = some a ↔ l = g a) {ls : List (Link V E)} {a : α} :
    a ∈ ls.filterMap f ↔ g a ∈ ls := by
  simp [List.mem_filterMap, hf]

/-- **How a record fares.** It is refused with a report on all names that do not fit, or it is linked
to the operations of its names. -/
theorem link_cases (r : Record) (registry : Registry V E) :
    (∃ missing mismatched, link r registry = .error (.linkage missing mismatched) ∧
      (∃ name, Unregistered registry r name ∨ Reshaped registry r name) ∧
      Reports registry r missing mismatched) ∨
    ∃ formulas : List (String × Implementation V E),
      link r registry = .ok { record := r, formulas := Table.ofList formulas } ∧
      (∀ name, ¬Unregistered registry r name ∧ ¬Reshaped registry r name) ∧
      ∀ e, e ∈ formulas ↔ .linked e.1 e.2 ∈ links registry r := by
  obtain ⟨missing?, mismatched?, linked?, hmissing, hmismatched, hlinked, heq⟩ := link_eq r registry
  have hm (name : String) : name ∈ (links registry r).filterMap missing? ↔
      Unregistered registry r name := (mem_filterMap_iff hmissing).trans missing_mem_links_iff
  have hs (name : String) : name ∈ (links registry r).filterMap mismatched? ↔
      Reshaped registry r name := (mem_filterMap_iff hmismatched).trans mismatched_mem_links_iff
  rw [heq]
  dsimp only
  split
  · next hempty =>
    simp only [Bool.and_eq_true, List.isEmpty_iff, List.eq_nil_iff_forall_not_mem, hm, hs] at hempty
    exact .inr ⟨_, rfl, fun name => ⟨hempty.1 name, hempty.2 name⟩, fun e =>
      mem_filterMap_iff (g := fun e : String × Implementation V E => .linked e.1 e.2) hlinked⟩
  · next hempty =>
    simp only [Bool.and_eq_true, List.isEmpty_iff, List.eq_nil_iff_forall_not_mem, hm, hs] at hempty
    refine .inl ⟨_, _, rfl, ?_, fun name => Names.mem_sorted.trans (hm name),
      fun name => Names.mem_sorted.trans (hs name), ?_, ?_⟩
    · by_contra hnone
      exact hempty ⟨fun name h => hnone ⟨name, .inl h⟩, fun name h => hnone ⟨name, .inr h⟩⟩
    · exact pairwise_sorted_links fun _ _ _ h => (linkOne_eq_missing_iff.1 ((hmissing _ _).1 h)).2
    · exact pairwise_sorted_links fun _ _ _ h =>
        (linkOne_eq_mismatched_iff.1 ((hmismatched _ _).1 h)).2

/-- If every name of a record fits, every slot of a name has the implementation of one of its
names. -/
theorem exists_find?_of_links {formulas : List (String × Implementation V E)}
    (hfit : ∀ name, ¬Unregistered registry r name ∧ ¬Reshaped registry r name)
    (hformulas : ∀ e, e ∈ formulas ↔ .linked e.1 e.2 ∈ links registry r) {slot : String}
    (hslot : slot ∈ r.formulas.values) :
    ∃ name op, r.formulas.find? name = some slot ∧ registry.lookup name = some op ∧
      (Table.ofList formulas).find? slot = some op.impl := by
  -- The entry of the name was linked, as the other two ways to fare are excluded.
  have hkey : slot ∈ formulas.map Prod.fst := by
    obtain ⟨⟨name, slot⟩, he, rfl⟩ := List.mem_map.1 hslot
    have hmem : linkOne r.callShapes registry name slot ∈ links registry r :=
      mem_links_iff.2 ⟨name, slot, Table.find?_eq_some_iff.2 he, rfl⟩
    cases hl : linkOne r.callShapes registry name slot with
    | missing n => exact absurd (missing_mem_links_iff.1 (hl ▸ hmem)) (hfit n).1
    | mismatched n => exact absurd (mismatched_mem_links_iff.1 (hl ▸ hmem)) (hfit n).2
    | linked s impl =>
      obtain ⟨-, rfl⟩ := linkOne_eq_linked_iff.1 hl
      exact List.mem_map.2 ⟨(s, impl), (hformulas _).2 (hl ▸ hmem), rfl⟩
  obtain ⟨impl, himpl⟩ := Table.mem_iff_exists_find?.1 (Table.mem_ofList.2 hkey)
  -- Of the names that share the slot the last one counts.
  obtain ⟨before, after, rfl, -⟩ := Table.find?_ofList_eq_some_iff.1 himpl
  obtain ⟨name, s, hname, hl⟩ := mem_links_iff.1 ((hformulas (slot, impl)).1 (by simp))
  obtain ⟨⟨op, hop, rfl, -⟩, rfl⟩ := linkOne_eq_linked_iff.1 hl
  exact ⟨name, op, hname, hop, himpl⟩

/-! ## Values that are not found -/

section Lacking

variable {args slots : Table V} {key : String} {f : Failure E} {c : Call} {st : Step}

/-- A step needs a value that is not there: an argument, or the value of a slot. -/
inductive Lacks (args slots : Table V) (key : String) : Step → Prop
  | argument {bindings : Table String} :
    key ∈ bindings → key ∉ args → Lacks args slots key (.bind bindings)
  | slot {st : Step} : key ∈ st.reads → key ∉ slots → Lacks args slots key st

theorem require_eq_error_iff {α : Type} {t : Table α} {name : String} :
    require t name = .error f ↔ name ∉ t ∧ f = .noSuchKey name := by
  rw [← Table.find?_eq_none_iff, require]
  cases t.find? name <;> simp [eq_comm]

/-- A call whose slot has a formula can be prepared unless a value is not there. -/
theorem lacks_of_prepare (hc : c.slot ∈ plan.formulas)
    (h : plan.prepare slots c = .error (.noSuchKey key)) : key ∈ c.args ∧ key ∉ slots := by
  rcases Outcome.bind_eq_error_iff.1 h with h | ⟨impl, -, h⟩
  · exact absurd hc (require_eq_error_iff.1 h).1
  rcases Outcome.bind_eq_error_iff.1 h with h | ⟨vs, -, h⟩
  · obtain ⟨a, hleft, ha⟩ := Outcome.mapM_eq_error_iff.1 h
    obtain ⟨hslots, hkey⟩ := require_eq_error_iff.1 ha
    obtain rfl := Failure.noSuchKey.inj hkey
    exact ⟨hleft.mem, hslots⟩
  · exact absurd h (Outcome.pure_ne_error _)

theorem lacks_of_activity (hc : c.slot ∈ plan.formulas)
    (h : (plan.activity slots c).outcome = .error (.noSuchKey key)) :
    key ∈ c.args ∧ key ∉ slots := by
  unfold activity at h
  split at h
  · rcases Implementation.raised_or_notAwaitable_of_activity h with ⟨e, he⟩ | he
    · cases he
    · cases he
  · next f hf => exact lacks_of_prepare hc (hf.trans (congrArg _ (Except.error.inj h)))

/-- **One step.** If all its calls have formulas, a step that does not find something needs a value
that is not there. -/
theorem step_lacks (hst : ∀ c ∈ st.calls, c.1.slot ∈ plan.formulas)
    (h : (plan.step args slots st).outcome = .error (.noSuchKey key)) : Lacks args slots key st := by
  -- In every step, what is not there is told apart from what an implementation raises: that is
  -- never a missing key.
  cases st with
  | bind bindings =>
    obtain ⟨slots', b, hb, h⟩ := Outcome.exists_of_foldlM_eq_error h
    rcases Outcome.bind_eq_error_iff.1 h with h | ⟨v, -, h⟩
    · obtain ⟨hargs, hkey⟩ := require_eq_error_iff.1 h
      obtain rfl := Failure.noSuchKey.inj hkey
      exact .argument (List.mem_map_of_mem hb) hargs
    · exact absurd h (Outcome.pure_ne_error _)
  | invoke c =>
    have hc : c.slot ∈ plan.formulas := hst (c, false) List.mem_cons_self
    rcases Run.outcome_bind_eq_error_iff.1 h with h | ⟨⟨impl, vs⟩, -, h⟩
    · obtain ⟨hkey, hslots⟩ := lacks_of_prepare hc h
      exact .slot hkey hslots
    rcases Run.outcome_bind_eq_error_iff.1 h with h | ⟨v, -, h⟩
    · rw [Implementation.outcome_call] at h
      obtain ⟨e, he⟩ := Implementation.exists_raised_of_outcome h
      cases he
    · cases h
  | await c =>
    have hc : c.slot ∈ plan.formulas := hst (c, true) List.mem_cons_self
    rw [step] at h
    split at h
    · rcases Run.outcome_bind_eq_error_iff.1 h with h | ⟨v, -, h⟩
      · obtain ⟨hkey, hslots⟩ := lacks_of_activity hc h
        exact .slot hkey hslots
      · cases h
    · cases h
  | gather cs =>
    rw [step] at h
    split at h
    · rcases Run.outcome_bind_eq_error_iff.1 h with h | ⟨vs, -, h⟩
      · rw [FanOut.gather_outcome] at h
        obtain ⟨a, hleft, ha⟩ := Outcome.mapM_eq_error_iff.1 h
        obtain ⟨c, hc, rfl⟩ := List.mem_map.1 hleft.mem
        obtain ⟨hkey, hslots⟩ := lacks_of_activity (hst (c, true) (List.mem_map_of_mem hc)) ha
        exact .slot (List.mem_flatMap.2 ⟨c, hc, hkey⟩) hslots
      · cases h
    · cases h
  | result returns =>
    rcases Outcome.bind_eq_error_iff.1 h with h | ⟨values, -, h⟩
    · obtain ⟨e, hleft, he⟩ := Outcome.mapM_eq_error_iff.1 h
      rcases Outcome.bind_eq_error_iff.1 he with he | ⟨v, -, he⟩
      · obtain ⟨hslots, hkey⟩ := require_eq_error_iff.1 he
        obtain rfl := Failure.noSuchKey.inj hkey
        exact .slot (List.mem_map_of_mem hleft.mem) hslots
      · exact absurd he (Outcome.pure_ne_error _)
    · exact absurd h (Outcome.pure_ne_error _)

/-- The first steps of a plan lead from some slots to others. -/
inductive Leads (p : Plan V E) (args : Table V) : Table V → List Step → Table V → Prop
  | nil (slots : Table V) : Leads p args slots [] slots
  | cons {slots slots' slots'' : Table V} {st : Step} {steps : List Step} :
    st.kind ≠ .result → (p.step args slots st).outcome = .ok slots' →
    Leads p args slots' steps slots'' → Leads p args slots (st :: steps) slots''

/-- **A run.** It fails in one of its steps. -/
theorem runFrom_stops {steps : List Step} (h : (plan.runFrom args slots steps).outcome = .error f) :
    ∃ before st after slots', steps = before ++ st :: after ∧ plan.Leads args slots before slots' ∧
      (plan.step args slots' st).outcome = .error f := by
  induction steps generalizing slots with
  | nil => cases h
  | cons st steps ih =>
    -- A result ends the run, so that it has no steps behind it.
    by_cases hst : st.kind = .result
    · cases st with
      | result returns => exact ⟨[], _, steps, slots, rfl, .nil slots, h⟩
      | bind | invoke | await | gather => cases hst
    · have hcons : plan.runFrom args slots (st :: steps) =
          (plan.step args slots st >>= fun slots => plan.runFrom args slots steps) := by
        cases st with
        | result returns => exact absurd rfl hst
        | bind | invoke | await | gather => rfl
      rw [hcons] at h
      rcases Run.outcome_bind_eq_error_iff.1 h with h | ⟨slots', hslots', h⟩
      · exact ⟨[], st, steps, slots, rfl, .nil slots, h⟩
      · obtain ⟨before, st', after, slots'', rfl, hleads, hstop⟩ := ih h
        exact ⟨st :: before, st', after, slots'', rfl, .cons hst hslots' hleads, hstop⟩

end Lacking

/-! ## What linking guarantees -/

/-- What a plan has that is linked to a registry: the record, and for each call the implementation of
a name that has the slot of the call. If a run does not find something, it is a value that a step
needs. -/
structure FullyLinked (registry : Registry V E) (r : Record) (plan : Plan V E) : Prop where
  record_eq : plan.record = r
  formula : ∀ c ∈ r.calls, ∃ name op, r.formulas.find? name = some c.1.slot ∧
    registry.lookup name = some op ∧ plan.formulas.find? c.1.slot = some op.impl
  lacks : ∀ (registered : List (Operation V E)) (args : Table V) (key : String),
    (plan.call registered args).run.outcome = .error (.noSuchKey key) →
      ∃ before st after slots, r.body = before ++ st :: after ∧
        plan.Leads args .empty before slots ∧
        (plan.step args slots st).outcome = .error (.noSuchKey key) ∧ Lacks args slots key st

theorem fullyLinked_of_formula (hrecord : plan.record = r)
    (hformula : ∀ c ∈ r.calls, ∃ name op, r.formulas.find? name = some c.1.slot ∧
      registry.lookup name = some op ∧ plan.formulas.find? c.1.slot = some op.impl) :
    FullyLinked registry r plan where
  record_eq := hrecord
  formula := hformula
  lacks registered args key h := by
    unfold call at h
    split at h
    · cases h
    · obtain ⟨before, st, after, slots, hbody, hleads, hstop⟩ := runFrom_stops h
      rw [hrecord] at hbody
      refine ⟨before, st, after, slots, hbody, hleads, hstop, step_lacks (fun c hc => ?_) hstop⟩
      have hst : st ∈ r.body := by simp [hbody]
      obtain ⟨name, op, -, -, himpl⟩ := hformula c (Record.mem_calls.2 ⟨st, hst, hc⟩)
      exact Table.mem_of_find? himpl

/-- **Linking is complete and its report is exact.** Let a record be loaded. Linking it to a registry
fails just in case one of its names is not registered or has another shape than the calls of its
slot, and then the report names all of them. Otherwise every call of the body has a formula, which is
the implementation of a name of its slot, and no run fails for want of a formula. -/
theorem load_links {source : Source} (h : Record.load source = .ok r) (registry : Registry V E) :
    ((∃ missing mismatched, load source registry = .error (.linkage missing mismatched)) ↔
      ∃ name, Unregistered registry r name ∨ Reshaped registry r name) ∧
    (∀ e, load source registry = .error e → ∃ missing mismatched,
      e = .linkage missing mismatched ∧ Reports registry r missing mismatched) ∧
    ∀ plan, load source registry = .ok plan → FullyLinked registry r plan := by
  have hload : load source registry = link r registry := by
    rw [load, h]
    rfl
  have hnamed := (Record.check_eq_ok_iff.1 (Record.load_eq_ok_iff.1 h).2).2.2
  rw [hload]
  obtain ⟨missing, mismatched, hlink, hex, hreports⟩ | ⟨formulas, hlink, hfit, hformulas⟩ :=
    link_cases r registry
  · refine ⟨iff_of_true ⟨_, _, hlink⟩ hex, fun e he => ?_, fun plan hplan => ?_⟩
    · exact ⟨missing, mismatched, Except.error.inj (he.symm.trans hlink), hreports⟩
    · cases hlink.symm.trans hplan
  · refine ⟨iff_of_false ?_ ?_, fun e he => ?_, fun plan hplan => ?_⟩
    · rintro ⟨missing, mismatched, he⟩
      cases hlink.symm.trans he
    · exact fun ⟨name, hname⟩ => hname.elim (hfit name).1 (hfit name).2
    · cases hlink.symm.trans he
    · obtain rfl := Except.ok.inj (hlink.symm.trans hplan)
      exact fullyLinked_of_formula rfl fun c hc => exists_find?_of_links hfit hformulas (hnamed c hc)

/-- The theorem at a record with a fan-out, a slot of two names and a name whose slot is not called:
once two names are not registered and the operation of a third one has become synchronous, once all
fit. -/
theorem load_links_of_shared_slot :
    let impl : Implementation Nat Unit :=
      { label := "count", style := .coroutine, pauses := 1, apply := fun vs => .ok vs.length }
    let declare (output : String) (isAsync : Bool) : Operation Nat Unit :=
      { output, inputs := ["x"], impl, isAsync }
    let r : Record :=
      { formulas := { entries := [("d", "v2"), ("b", "v1"), ("a", "v1"), ("c", "v3")] }
        params := ["x"]
        returns := ["a"]
        isAsync := true
        body := [.bind { entries := [("x", "v0")] }, .gather [⟨"v1", ["v0"]⟩, ⟨"v2", ["v0"]⟩],
          .await ⟨"v1", ["v2"]⟩, .result { entries := [("a", "v1")] }] }
    let sparse : Registry Nat Unit :=
      { operations := [declare "a" true, declare "d" false], nodup := by decide }
    let full : Registry Nat Unit :=
      { operations := [declare "a" true, declare "b" true, declare "c" false, declare "d" true]
        nodup := by decide }
    Record.load (.record r) = .ok r ∧
    (∃ missing mismatched, load (.record r) sparse = .error (.linkage missing mismatched) ∧
      "b" ∈ missing ∧ "c" ∈ missing ∧ "d" ∈ mismatched ∧ "a" ∉ mismatched) ∧
    ∃ plan, load (.record r) full = .ok plan ∧ FullyLinked full r plan := by
  intro impl declare r sparse full
  have hcheck : r.check = .ok () := by decide +kernel
  have h : Record.load (.record r) = .ok r := Record.load_eq_ok_iff.2 ⟨rfl, hcheck⟩
  refine ⟨h, ?_, ?_⟩
  · obtain ⟨hiff, hreports, -⟩ := load_links h sparse
    obtain ⟨missing, mismatched, he⟩ := hiff.2 ⟨"b", .inl ⟨by decide, rfl⟩⟩
    obtain ⟨_, _, heq, hreport⟩ := hreports _ he
    obtain ⟨rfl, rfl⟩ := Error.linkage.inj heq
    refine ⟨missing, mismatched, he, (hreport.mem_missing_iff _).2 ⟨by decide, rfl⟩,
      (hreport.mem_missing_iff _).2 ⟨by decide, rfl⟩,
      (hreport.mem_mismatched_iff _).2 ⟨"v2", _, _, rfl, rfl, rfl, .inr (by decide)⟩, fun ha => ?_⟩
    obtain ⟨slot, op, shape, hslot, hop, hshape, hne⟩ := (hreport.mem_mismatched_iff _).1 ha
    cases hslot
    cases hop
    cases hshape
    exact absurd hne (by decide)
  · have hplan : load (.record r) full =
        .ok { record := r, formulas := { entries := [("v2", impl), ("v1", impl), ("v3", impl)] } } :=
      (load_of_check hcheck full).trans rfl
    exact ⟨_, hplan, (load_links h full).2.2 _ hplan⟩

end DemandPlan.Plan
