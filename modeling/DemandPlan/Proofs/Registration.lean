import DemandPlan.Proofs.Requests
import Mathlib

/-!
# Registering several operations

Operations are registered one after the other. Where overriding is not allowed, the first operation
whose output is there already is refused, and with it the rest of the list; but what stood before it
in the list stays registered.

* `registerMany_ok`, `registerMany_error`: what is registered afterwards, where overriding is not
  allowed.
* `registerMany_refused`: when a list is refused, and what it leaves behind.
* `exists_registerMany_refused_and_changed`: a refused list may have changed the registry.
-/

namespace DemandPlan.Registry

variable {V E : Type} {r r' : Registry V E} {op : Operation V E} {ops : List (Operation V E)}

/-- A registry after new operations have been put at its end, each as one change. -/
structure Extended (r : Registry V E) (ops : List (Operation V E)) (r' : Registry V E) : Prop where
  operations : r'.operations = r.operations ++ ops
  version : r'.version = r.version + ops.length
  onDuplicate : r'.onDuplicate = r.onDuplicate

namespace Extended

theorem refl (r : Registry V E) : Extended r [] r :=
  ⟨(List.append_nil _).symm, rfl, rfl⟩

theorem place (h : op.output ∉ r.names) : Extended r [op] (r.place op) := by
  unfold Registry.place
  rw [dif_neg h]
  exact ⟨rfl, rfl, rfl⟩

theorem cons {r'' : Registry V E} (h : Extended r [op] r') (h' : Extended r' ops r'') :
    Extended r (op :: ops) r'' where
  operations := by rw [h'.operations, h.operations, List.append_assoc, List.singleton_append]
  version := by
    rw [h'.version, h.version, List.length_singleton, List.length_cons]
    omega
  onDuplicate := h'.onDuplicate.trans h.onDuplicate

theorem names_eq (h : Extended r ops r') : r'.names = r.names ++ ops.map Operation.output := by
  rw [names, h.operations, List.map_append]
  rfl

/-- The registry is as it was just in case there was no new operation. -/
theorem eq_iff (h : Extended r ops r') : r' = r ↔ ops = [] := by
  constructor
  · rintro rfl
    have := h.version
    exact List.length_eq_zero_iff.1 (by omega)
  · rintro rfl
    obtain ⟨hoperations, hversion, honDuplicate⟩ := h
    rw [List.append_nil] at hoperations
    obtain ⟨_, _, _, _⟩ := r
    obtain ⟨_, _, _, _⟩ := r'
    subst hoperations hversion honDuplicate
    rfl

end Extended

/-! ## One operation -/

/-- An operation is refused if its output is registered and overriding is not allowed. -/
theorem register_eq_error_iff {e : Error} : r.register op = .error e ↔
    r.onDuplicate = .error ∧ op.output ∈ r.names ∧ e = .duplicateOperation op.output := by
  unfold register
  rw [← contains_iff]
  cases r.onDuplicate <;> cases r.contains op.output <;> simp [eq_comm]

/-- Where overriding is not allowed, an operation that is registered is new. -/
theorem extended_of_register (hp : r.onDuplicate = .error) (h : r.register op = .ok r') :
    Extended r [op] r' := by
  obtain rfl := eq_place_of_register h
  refine .place fun hmem => ?_
  rw [register_eq_error_iff.2 ⟨hp, hmem, rfl⟩] at h
  cases h

/-! ## Several operations -/

theorem registerMany_cons_of_ok (h : r.register op = .ok r') :
    r.registerMany (op :: ops) = r'.registerMany ops := by
  rw [registerMany, h]

theorem registerMany_cons_of_error {e : Error} (h : r.register op = .error e) :
    r.registerMany (op :: ops) = (r, .error e) := by
  rw [registerMany, h]

/-- Where overriding is not allowed, a list that is registered is new as a whole. -/
theorem registerMany_ok (hp : r.onDuplicate = .error) (h : r.registerMany ops = (r', .ok ())) :
    Extended r ops r' := by
  induction ops generalizing r with
  | nil =>
    obtain rfl := (Prod.mk.inj h).1
    exact .refl r
  | cons op ops ih =>
    cases hr : r.register op with
    | error e =>
      rw [registerMany_cons_of_error hr] at h
      cases h
    | ok r₁ =>
      rw [registerMany_cons_of_ok hr] at h
      have hone := extended_of_register hp hr
      exact hone.cons (ih (hone.onDuplicate.trans hp) h)

/-- A list that is refused has been registered up to the first operation whose output was there
already. -/
theorem registerMany_error {e : Error} (h : r.registerMany ops = (r', .error e)) :
    r.onDuplicate = .error ∧ ∃ before op after, ops = before ++ op :: after ∧
      Extended r before r' ∧ op.output ∈ r'.names ∧ e = .duplicateOperation op.output := by
  induction ops generalizing r with
  | nil => cases h
  | cons op ops ih =>
    cases hr : r.register op with
    | error e' =>
      rw [registerMany_cons_of_error hr] at h
      obtain ⟨rfl, he⟩ := Prod.mk.inj h
      obtain rfl := Except.error.inj he
      obtain ⟨hp, hmem, rfl⟩ := register_eq_error_iff.1 hr
      exact ⟨hp, [], op, ops, rfl, .refl _, hmem, rfl⟩
    | ok r₁ =>
      rw [registerMany_cons_of_ok hr] at h
      obtain ⟨hp, before, op', after, rfl, hext, hmem, he⟩ := ih h
      have hp : r.onDuplicate = .error := by
        rw [eq_place_of_register hr, Registry.place] at hp
        split at hp <;> exact hp
      exact ⟨hp, op :: before, op', after, rfl, (extended_of_register hp hr).cons hext, hmem, he⟩

/-- **Refused lists.** A list of operations is refused just in case overriding is not allowed and an
output occurs twice, in the registry and the list taken together. Then the operations before the
first repeated output have been put at the end of the registry, each as one change, so the registry
is as it was just in case the very first operation is the one that is refused. The same operations
are refused when a planner is made for them and the registry. -/
theorem registerMany_refused (r : Registry V E) (ops : List (Operation V E)) :
    ((∃ e, (r.registerMany ops).2 = .error e) ↔
      r.onDuplicate = .error ∧ ¬(r.names ++ ops.map Operation.output).Nodup) ∧
    ∀ r' e, r.registerMany ops = (r', .error e) →
      (∃ before op after, ops = before ++ op :: after ∧ e = .duplicateOperation op.output ∧
        (r.names ++ before.map Operation.output).Nodup ∧
        op.output ∈ r.names ++ before.map Operation.output ∧
        r'.operations = r.operations ++ before ∧ r'.version = r.version + before.length ∧
        (r' = r ↔ before = [])) ∧
      ∀ config, Planner.ofOperations ops config (some r) = .error e := by
  refine ⟨⟨?_, ?_⟩, ?_⟩
  · rintro ⟨e, he⟩
    obtain ⟨hp, before, op, after, rfl, hext, hmem, -⟩ := registerMany_error (Prod.ext rfl he)
    refine ⟨hp, fun hn => ?_⟩
    rw [hext.names_eq] at hmem
    rw [List.map_append, List.map_cons, ← List.append_assoc, List.nodup_append] at hn
    exact hn.2.2 _ hmem _ List.mem_cons_self rfl
  · -- A list that is not refused stands in the registry as a whole, and its names are distinct.
    rintro ⟨hp, hn⟩
    cases hx : (r.registerMany ops).2 with
    | error e => exact ⟨e, rfl⟩
    | ok _ =>
      have hext := registerMany_ok hp (Prod.ext rfl hx)
      exact absurd (hext.names_eq ▸ (r.registerMany ops).1.nodup) hn
  · intro r' e h
    obtain ⟨-, before, op, after, hops, hext, hmem, he⟩ := registerMany_error h
    refine ⟨⟨before, op, after, hops, he, hext.names_eq ▸ r'.nodup, hext.names_eq ▸ hmem,
      hext.operations, hext.version, hext.eq_iff⟩, fun config => ?_⟩
    simp only [Planner.ofOperations, Option.getD_some, h]

/-- The theorem at a list whose third operation repeats the output of the first. -/
theorem registerMany_refused_of_repeated :
    let op (output : String) : Operation Nat Unit :=
      { output, inputs := ["x"], isAsync := false
        impl := { label := output, style := .plain, pauses := 0, apply := fun vs => .ok vs.sum } }
    let r : Registry Nat Unit := { operations := [op "a"], onDuplicate := .error, version := 1 }
    let ops := [op "b", op "c", op "b", op "d"]
    ∃ r', r.registerMany ops = (r', .error (.duplicateOperation "b")) ∧
      Planner.ofOperations ops {} (some r) = .error (.duplicateOperation "b") ∧
      r'.names = ["a", "b", "c"] ∧ r'.version = 3 ∧ r' ≠ r := by
  intro op r ops
  obtain ⟨hrefused, hleft⟩ := registerMany_refused r ops
  obtain ⟨e, he⟩ := hrefused.2 ⟨rfl, by decide⟩
  obtain rfl : Error.duplicateOperation "b" = e := Except.error.inj he
  obtain ⟨⟨before, -, -, -, -, -, -, hoperations, hversion, hsame⟩, hplanner⟩ :=
    hleft (r.registerMany ops).1 _ (Prod.ext rfl he)
  have hversion' : (r.registerMany ops).1.version = 3 := rfl
  refine ⟨_, Prod.ext rfl he, hplanner {}, rfl, hversion', fun h => ?_⟩
  rw [hsame.1 h, hversion'] at hversion
  cases hversion

/-- An operation that is registered before the refused one stays, and its change is counted. -/
theorem exists_registerMany_refused_and_changed :
    let op : Operation Nat Unit :=
      { output := "a", inputs := ["x"], isAsync := false
        impl := { label := "a", style := .plain, pauses := 0, apply := fun vs => .ok vs.sum } }
    let r : Registry Nat Unit := { onDuplicate := .error }
    ∃ r', r.registerMany [op, op] = (r', .error (.duplicateOperation "a")) ∧
      (r.names = [] ∧ r.version = 0) ∧ r'.names = ["a"] ∧ r'.version = 1 :=
  ⟨_, rfl, ⟨rfl, rfl⟩, rfl, rfl⟩

end DemandPlan.Registry
