import DemandPlan.Proofs.Table
import DemandPlan.Record.Load

/-!
# Calls and their shapes

Before a record is run it is checked against a summary of its body, which keeps one shape for each
slot: that of the slot's last call. What the checks say is therefore said of last calls only.

* `find?_callShapes_eq_some_iff`: the summary holds the shapes of the last calls.
* `check_eq_ok_iff`: when a record can be used at all.
-/

namespace DemandPlan

/-- The shape in which a call is made. -/
def Call.shape (c : Call × Bool) : Shape := ⟨c.1.args.length, c.2⟩

namespace Record

variable {r : Record}

theorem mem_calls {c : Call × Bool} : c ∈ r.calls ↔ ∃ st ∈ r.body, c ∈ st.calls :=
  List.mem_flatMap

/-- A call of the body after which its slot is not called any more. -/
def IsLastCall (r : Record) (c : Call × Bool) : Prop :=
  ∃ before after, r.calls = before ++ c :: after ∧ ∀ c' ∈ after, c'.1.slot ≠ c.1.slot

theorem IsLastCall.mem {c : Call × Bool} (h : r.IsLastCall c) : c ∈ r.calls := by
  obtain ⟨before, after, hcalls, -⟩ := h
  simp [hcalls]

theorem find?_callShapes_eq_some_iff {slot : String} {shape : Shape} :
    r.callShapes.find? slot = some shape ↔
      ∃ c, r.IsLastCall c ∧ c.1.slot = slot ∧ Call.shape c = shape := by
  rw [callShapes, Table.find?_ofList_map_eq_some_iff]
  constructor
  · rintro ⟨before, c, after, hcalls, hc, hafter⟩
    obtain ⟨rfl, rfl⟩ := Prod.mk.inj hc
    exact ⟨c, ⟨before, after, hcalls, hafter⟩, rfl, rfl⟩
  · rintro ⟨c, ⟨before, after, hcalls, hafter⟩, rfl, rfl⟩
    exact ⟨before, c, after, hcalls, rfl, hafter⟩

theorem mem_callShapes {slot : String} :
    slot ∈ r.callShapes ↔ ∃ c ∈ r.calls, c.1.slot = slot := by
  simp [callShapes, Table.mem_ofList]

/-- A slot that is called has a last call. -/
theorem exists_isLastCall {c : Call × Bool} (h : c ∈ r.calls) :
    ∃ c', r.IsLastCall c' ∧ c'.1.slot = c.1.slot := by
  obtain ⟨shape, hshape⟩ := Table.mem_iff_exists_find?.1 (mem_callShapes.2 ⟨c, h, rfl⟩)
  obtain ⟨c', hc', hslot, -⟩ := find?_callShapes_eq_some_iff.1 hshape
  exact ⟨c', hc', hslot⟩

/-! ## What the checks say -/

theorem asyncSlots_eq_nil_iff : r.asyncSlots = [] ↔ ∀ c, r.IsLastCall c → c.2 = false := by
  have hentries : r.asyncSlots = [] ↔ ∀ e ∈ r.callShapes.entries, e.2.awaited = false := by
    simp [asyncSlots, Names.sorted_eq_nil_iff, Table.toList, List.filter_eq_nil_iff]
  rw [hentries]
  constructor
  · intro h c hc
    have hfound := find?_callShapes_eq_some_iff.2 ⟨c, hc, rfl, rfl⟩
    exact h _ (Table.find?_eq_some_iff.1 hfound)
  · intro h e he
    obtain ⟨c, hc, -, hshape⟩ := find?_callShapes_eq_some_iff.1 (Table.find?_eq_some_iff.2 he)
    exact hshape ▸ h c hc

theorem slotsWithoutFormula_eq_nil_iff : r.slotsWithoutFormula = [] ↔
    ∀ c ∈ r.calls, c.1.slot ∈ r.formulas.values := by
  have hkeys : r.slotsWithoutFormula = [] ↔ ∀ slot ∈ r.callShapes, slot ∈ r.formulas.values := by
    simp [slotsWithoutFormula, Names.sorted_eq_nil_iff, List.filter_eq_nil_iff, Table.mem_def]
  rw [hkeys]
  constructor
  · exact fun h c hc => h _ (mem_callShapes.2 ⟨c, hc, rfl⟩)
  · intro h slot hslot
    obtain ⟨c, hc, rfl⟩ := mem_callShapes.1 hslot
    exact h c hc

/-- **A record can be used** if its version is known, no last call is waited for unless the record
is asynchronous, and every slot that is called has a formula. -/
theorem check_eq_ok_iff : r.check = .ok () ↔ r.version = Error.supportedVersion ∧
    (r.isAsync = false → ∀ c, r.IsLastCall c → c.2 = false) ∧
    ∀ c ∈ r.calls, c.1.slot ∈ r.formulas.values := by
  rw [← asyncSlots_eq_nil_iff, ← slotsWithoutFormula_eq_nil_iff, check]
  by_cases hversion : r.version = Error.supportedVersion
  · cases r.isAsync with
    | true => simp [hversion, List.isEmpty_iff]
    | false => by_cases hasync : r.asyncSlots = [] <;> simp [hversion, List.isEmpty_iff, hasync]
  · simp [hversion]

end Record

end DemandPlan
