import DemandPlan.Proofs.Json
import DemandPlan.Proofs.Table
import DemandPlan.Record.Load

/-!
# Records that are written down

A record that has been loaded can be written down, in either layout, and the text loads as the same
record: nothing is lost, and every table keeps the order of its names.

* `Step.ofJson_toJson`, `Record.ofJson_toJson`: reading undoes writing, field by field.
* `Record.load_render`: the text of a loaded record loads as this record.
-/

namespace DemandPlan

/-! ## Reading what has been written -/

section Reading

variable {α : Type} {read : Json → Checked α} {write : α → Json}

theorem Checked.eachFrom_map {items : List α} (h : ∀ a ∈ items, read (write a) = .ok a)
    (start : Nat) : eachFrom read start (items.map write) = .ok items := by
  induction items generalizing start with
  | nil => rfl
  | cons a items ih =>
    rw [List.map_cons, eachFrom, h a List.mem_cons_self,
      ih fun b hb => h b (List.mem_cons_of_mem _ hb)]
    rfl

theorem Checked.eachEntry_map {es : List (String × α)} (h : ∀ e ∈ es, read (write e.2) = .ok e.2) :
    eachEntry read (es.map fun e => (e.1, write e.2)) = .ok es := by
  induction es with
  | nil => rfl
  | cons e es ih =>
    rw [List.map_cons, eachEntry, h e List.mem_cons_self,
      ih fun b hb => h b (List.mem_cons_of_mem _ hb)]
    rfl

theorem Json.asSequence_map {items : List α} (h : ∀ a ∈ items, read (write a) = .ok a)
    (kind : Issue.Kind) : asSequence kind read (.arr (items.map write)) = .ok items :=
  Checked.eachFrom_map h 0

@[simp] theorem Json.asString_str (s : String) : asString (.str s) = .ok s := rfl

theorem Json.asSequence_ofNames (kind : Issue.Kind) (names : List String) :
    asSequence kind asString (.ofNames names) = .ok names :=
  asSequence_map (fun s _ => asString_str s) kind

theorem Json.asTable_ofTable (t : Table String) : asTable asString (.ofTable t) = .ok t := by
  have hentries : Checked.eachEntry asString (t.entries.map fun e => (e.1, .str e.2)) =
      .ok t.entries := Checked.eachEntry_map fun e _ => asString_str e.2
  have htable : Table.ofList t.entries = t := Table.ext (Table.entries_ofList t.nodup)
  rw [ofTable, asTable, Table.toList, hentries]
  exact congrArg _ htable

end Reading

namespace Fields

variable {α : Type} {fs : Fields} {name : String} {v : Json} {read : Json → Checked α} {a : α}

theorem required_of_find? (h : fs.find? name = some v) (hr : read v = .ok a) :
    fs.required name read = .ok a := by
  rw [required, h]
  exact Checked.within_eq_ok_iff.2 hr

theorem optional_of_find? (h : fs.find? name = some v) (hr : read v = .ok a) (default : α) :
    fs.optional name default read = .ok a := by
  rw [optional, h]
  exact Checked.within_eq_ok_iff.2 hr

theorem forbidExtras_of_known {known : List String} (h : ∀ m ∈ fs.members, m.1 ∈ known) (a : α) :
    fs.forbidExtras known (.ok a) = .ok a := by
  have hextras : fs.extras known = [] := by
    rw [extras, List.map_eq_nil_iff, List.filter_eq_nil_iff]
    intro m hm
    simp [h m hm]
  rw [forbidExtras, hextras]
  rfl

end Fields

/-! ## Calls, steps and records -/

theorem Call.ofFields_eq {fs : Fields} {c : Call} (hslot : fs.find? "slot" = some (.str c.slot))
    (hargs : fs.find? "args" = some (.ofNames c.args)) : ofFields fs = .ok c := by
  rw [ofFields, Fields.required_of_find? hslot (Json.asString_str c.slot),
    Fields.optional_of_find? hargs (Json.asSequence_ofNames _ _)]
  rfl

theorem Call.ofJson_toJson (c : Call) : ofJson c.toJson = .ok c := by
  have hfields : ofFields { members := c.members } = .ok c := ofFields_eq rfl rfl
  rw [toJson, ofJson, hfields]
  exact Fields.forbidExtras_of_known (by simp [members]) c

namespace Step

/-- Each kind of step is read by its own fields. -/
theorem ofJson_of_ofFields {members : List (String × Json)} {st : Step}
    (hkind : Fields.find? { members } "kind" = some (.str st.kind.name))
    (hfields : ofFields { members } st.kind = .ok st) (origin : Origin) :
    ofJson origin (.obj members) = .ok st := by
  simp only [ofJson, hkind, Kind.ofName?_name, hfields, Checked.within_ok]

theorem ofJson_toJson (origin : Origin) (st : Step) : ofJson origin st.toJson = .ok st := by
  cases st with
  | bind bindings =>
    refine ofJson_of_ofFields rfl ?_ origin
    rw [kind, ofFields, Fields.optional_of_find? rfl (Json.asTable_ofTable bindings)]
    exact Fields.forbidExtras_of_known (by simp) _
  | invoke c =>
    refine ofJson_of_ofFields rfl ?_ origin
    rw [kind, ofFields, Call.ofFields_eq rfl rfl]
    exact Fields.forbidExtras_of_known (by simp [Call.members]) _
  | await c =>
    refine ofJson_of_ofFields rfl ?_ origin
    rw [kind, ofFields, Call.ofFields_eq rfl rfl]
    exact Fields.forbidExtras_of_known (by simp [Call.members]) _
  | gather cs =>
    refine ofJson_of_ofFields rfl ?_ origin
    rw [kind, ofFields, Fields.required_of_find? rfl
      (Json.asSequence_map (fun c _ => c.ofJson_toJson) _)]
    exact Fields.forbidExtras_of_known (by simp) _
  | result returns =>
    refine ofJson_of_ofFields rfl ?_ origin
    rw [kind, ofFields, Fields.optional_of_find? rfl (Json.asTable_ofTable returns)]
    exact Fields.forbidExtras_of_known (by simp) _

end Step

namespace Record

theorem namesOf_ofNames (names : List String) : namesOf (.ofNames names) = .ok names :=
  Json.asSequence_ofNames .listType names

theorem ofJson_toJson (origin : Origin) (r : Record) : ofJson origin r.toJson = .ok r := by
  have hbody : Json.asSequence .listType (Step.ofJson origin) (.arr (r.body.map Step.toJson)) =
      .ok r.body := Json.asSequence_map (fun st _ => st.ofJson_toJson origin) .listType
  rw [toJson, ofJson, Fields.optional_of_find? rfl (Json.asTable_ofTable r.formulas),
    Fields.optional_of_find? rfl (namesOf_ofNames r.params),
    Fields.optional_of_find? rfl (namesOf_ofNames r.returns), Fields.optional_of_find? rfl hbody]
  rfl

/-! ## Texts -/

theorem readable_ofNames (names : List String) : (Json.ofNames names).Readable := by
  refine .arr fun v hv => ?_
  obtain ⟨name, -, rfl⟩ := List.mem_map.1 hv
  exact .str name

theorem readable_ofTable (t : Table String) : (Json.ofTable t).Readable := by
  refine .obj fun m hm => ?_
  obtain ⟨e, -, rfl⟩ := List.mem_map.1 hm
  exact .str e.2

theorem readable_call (c : Call) : c.toJson.Readable :=
  .obj (by simpa [Call.members] using ⟨.str c.slot, readable_ofNames c.args⟩)

theorem readable_step (st : Step) : st.toJson.Readable := by
  cases st with
  | bind bindings => exact .obj (by simpa using ⟨.str _, readable_ofTable bindings⟩)
  | invoke c =>
    exact .obj (by simpa [Call.members] using ⟨.str _, readable_ofNames c.args, .str _⟩)
  | await c =>
    exact .obj (by simpa [Call.members] using ⟨.str _, readable_ofNames c.args, .str _⟩)
  | gather cs =>
    have hcalls : (Json.arr (cs.map Call.toJson)).Readable := by
      refine .arr fun v hv => ?_
      obtain ⟨c, -, rfl⟩ := List.mem_map.1 hv
      exact readable_call c
    exact .obj (by simpa using ⟨.str _, hcalls⟩)
  | result returns => exact .obj (by simpa using ⟨.str _, readable_ofTable returns⟩)

/-- Of all that a record holds only its version is a number. -/
theorem readable_toJson {r : Record} (h : Json.Token.Fits r.version) : r.toJson.Readable := by
  have hbody : (Json.arr (r.body.map Step.toJson)).Readable := by
    refine .arr fun v hv => ?_
    obtain ⟨st, -, rfl⟩ := List.mem_map.1 hv
    exact readable_step st
  exact .obj (by simpa using ⟨readable_ofTable _, readable_ofNames _, readable_ofNames _, .bool _,
    hbody, .int h⟩)

theorem ofText_render {r : Record} (h : Json.Token.Fits r.version) (l : Json.Layout) :
    ofText (Json.parse? (r.render l)) = .ok r := by
  rw [render, Json.parse?_render (readable_toJson h)]
  exact ofJson_toJson .text r

/-! ## Loading -/

theorem load_eq_ok_iff {source : Source} {r : Record} :
    load source = .ok r ↔ read source = .ok r ∧ r.check = .ok () := by
  unfold load
  cases read source with
  | error issues => exact iff_of_false (fun h => nomatch h) fun h => nomatch h.1
  | ok r' =>
    show (do r'.check; return r' : Except Error Record) = .ok r ↔ _
    cases hcheck : r'.check with
    | error e =>
      refine iff_of_false (fun h => nomatch h) fun ⟨hr, h⟩ => ?_
      rw [← Except.ok.inj hr, hcheck] at h
      cases h
    | ok _ =>
      show (Except.ok r' : Except Error Record) = .ok r ↔ _
      refine ⟨fun h => ?_, fun h => congrArg _ (Except.ok.inj h.1)⟩
      have hr : r' = r := Except.ok.inj h
      exact ⟨congrArg _ hr, hr ▸ hcheck⟩

theorem version_of_check {r : Record} (h : r.check = .ok ()) :
    r.version = Error.supportedVersion := by
  by_contra hv
  rw [check, if_pos hv] at h
  cases h

theorem load_text {r : Record} (h : r.check = .ok ()) (l : Json.Layout) :
    load (.text (r.render l)) = .ok r := by
  have hversion : Json.Token.Fits r.version := by
    rw [version_of_check h]
    rfl
  exact load_eq_ok_iff.2 ⟨ofText_render hversion l, h⟩

/-- **Records that are written down.** The text of a record that has been loaded, from whatever
source, loads as the same record, in either layout: no field changes, and the names in every table
stay in their order. -/
theorem load_render {source : Source} {r : Record} (h : load source = .ok r) (l : Json.Layout) :
    load (.text (r.render l)) = .ok r :=
  load_text (load_eq_ok_iff.1 h).2 l

/-- The theorem at a record with all kinds of steps, a fan-out of no calls and one of two, and
names with a quote, a backslash, a line feed, a control character and letters beyond ASCII. -/
theorem load_render_of_awkward_names :
    let r : Record :=
      { formulas := { entries := [("é\n", "\"1"), ("\\u", "2"), ("", "3")] }
        params := ["\x01"]
        returns := ["é\n", "😀"]
        isAsync := true
        body := [.bind { entries := [("\x01", "\x7f")] }, .gather [],
          .gather [⟨"\"1", ["\x7f", "\x7f"]⟩, ⟨"2", []⟩], .invoke ⟨"3", ["2"]⟩, .await ⟨"2", []⟩,
          .result { entries := [("é\n", "\"1"), ("😀", "3")] }] }
    load (.record r) = .ok r ∧ load (.text (r.render (.indented 2))) = .ok r := by
  intro r
  have h : load (.record r) = .ok r := load_eq_ok_iff.2 ⟨rfl, by decide +kernel⟩
  exact ⟨h, load_render h (.indented 2)⟩

end Record

end DemandPlan
