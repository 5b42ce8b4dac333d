import DemandPlan.Operation.Basic

/-!
# Registries

A registry holds the operations, in the order of their outputs' first registration. No two of them
have the same output, and a name that no operation has as output is a raw input. The version counts
the changes, so that whoever remembers something about a registry can see that it is out of date.

* **Look-up** (`Registry.lookup_place`, `Registry.lookup_remove`): the last registration counts.
* **Order** (`Registry.names_place`): overriding keeps the place.
-/

namespace DemandPlan

/-- What registering a name does that is registered already. -/
inductive DuplicatePolicy
  | override
  | error
  deriving DecidableEq, Repr

/-- The policy that a word stands for. Any word but `override` forbids overriding. -/
def DuplicatePolicy.ofWord (word : String) : DuplicatePolicy :=
  if word = "override" then .override else .error

/-- The word for a policy. -/
def DuplicatePolicy.word : DuplicatePolicy → String
  | .override => "override"
  | .error => "error"

/-- Operations with distinct outputs. -/
structure Registry (V E : Type) where
  operations : List (Operation V E) := []
  nodup : (operations.map Operation.output).Nodup := by simp
  onDuplicate : DuplicatePolicy := .override
  /-- How many changes there have been. -/
  version : Nat := 0

namespace Registry

variable {V E : Type}

instance : Inhabited (Registry V E) := ⟨{}⟩

/-- The registered outputs, in order of registration. -/
def names (r : Registry V E) : List String := r.operations.map Operation.output

/-- The operation that has a name as its output; none for a raw input. -/
def lookup (r : Registry V E) (name : String) : Option (Operation V E) :=
  r.operations.find? fun op => op.output = name

/-- Whether a name is the output of an operation. -/
def contains (r : Registry V E) (name : String) : Bool := r.names.contains name

/-- How many operations there are. -/
def size (r : Registry V E) : Nat := r.operations.length

/-- The operation that has a name as its output, or an error that names the outputs there are. -/
def get (r : Registry V E) (name : String) : Except Error (Operation V E) :=
  match r.lookup name with
  | some op => .ok op
  | none => .error (.operationNotFound name r.names)

/-- One line about a registry. -/
def describe (r : Registry V E) : String :=
  "OperationRegistry(operations=" ++ Text.quotedList r.names ++ ")"

/-! ## Changes -/

/-- Puts an operation in the place of the one with the same output. -/
def replaced (op : Operation V E) (ops : List (Operation V E)) : List (Operation V E) :=
  ops.map fun o => if o.output = op.output then op else o

theorem map_output_replaced (op : Operation V E) (ops : List (Operation V E)) :
    (replaced op ops).map Operation.output = ops.map Operation.output := by
  simp only [replaced, List.map_map]
  refine List.map_congr_left fun o _ => ?_
  simp only [Function.comp_apply]
  split
  · next h => exact h.symm
  · rfl

/-- The registry with an operation, in the old place if its output is registered, else at the end.
This is one change. -/
def place (r : Registry V E) (op : Operation V E) : Registry V E :=
  if h : op.output ∈ r.names then
    { r with
      operations := replaced op r.operations
      nodup := by rw [map_output_replaced]; exact r.nodup
      version := r.version + 1 }
  else
    { r with
      operations := r.operations ++ [op]
      nodup := by
        rw [List.map_append]
        refine List.nodup_append.2 ⟨r.nodup, by simp, ?_⟩
        intro a ha b hb hab
        have hb' : b = op.output := by simpa using hb
        exact h (hb' ▸ hab ▸ ha)
      version := r.version + 1 }

/-- Registers an operation. Whether it may replace another one is said by `override`, and by the
registry's policy where that is left open. -/
def register (r : Registry V E) (op : Operation V E) (override : Option Bool := none) :
    Except Error (Registry V E) :=
  if r.contains op.output && !override.getD (r.onDuplicate = .override) then
    .error (.duplicateOperation op.output)
  else .ok (r.place op)

/-- Registers operations one after the other under the registry's policy, up to the first that is
refused. What has been registered before it stays. -/
def registerMany (r : Registry V E) : List (Operation V E) → Registry V E × Except Error Unit
  | [] => (r, .ok ())
  | op :: ops =>
    match r.register op with
    | .ok r' => r'.registerMany ops
    | .error e => (r, .error e)

/-- The registry without a name. Removing is a change only if the name is registered. -/
def remove (r : Registry V E) (name : String) : Registry V E :=
  if r.contains name then
    { r with
      operations := r.operations.filter fun op => op.output ≠ name
      nodup := r.nodup.sublist (List.filter_sublist.map _)
      version := r.version + 1 }
  else r

/-- A new registry with some operations, registered one after the other. -/
def ofOperations (ops : List (Operation V E)) (onDuplicate : DuplicatePolicy := .override) :
    Except Error (Registry V E) :=
  match registerMany { onDuplicate } ops with
  | (r, .ok ()) => .ok r
  | (_, .error e) => .error e

/-! ## Look-up after a change -/

theorem output_of_lookup {r : Registry V E} {name : String} {op : Operation V E}
    (h : r.lookup name = some op) : op.output = name := by
  simpa using List.find?_some h

theorem mem_of_lookup {r : Registry V E} {name : String} {op : Operation V E}
    (h : r.lookup name = some op) : op ∈ r.operations :=
  List.mem_of_find?_eq_some h

theorem mem_names_of_lookup {r : Registry V E} {name : String} {op : Operation V E}
    (h : r.lookup name = some op) : name ∈ r.names :=
  output_of_lookup h ▸ List.mem_map_of_mem (mem_of_lookup h)

theorem lookup_eq_none_iff {r : Registry V E} {name : String} :
    r.lookup name = none ↔ name ∉ r.names := by
  simp [lookup, names]

theorem contains_iff {r : Registry V E} {name : String} :
    r.contains name = true ↔ name ∈ r.names := by
  simp [contains]

theorem find?_replaced (op : Operation V E) (name : String) (ops : List (Operation V E))
    (h : op.output ∈ ops.map Operation.output) :
    (replaced op ops).find? (fun o => o.output = name) =
      if name = op.output then some op else ops.find? fun o => o.output = name := by
  induction ops with
  | nil => simp at h
  | cons o ops ih =>
    have hcons : replaced op (o :: ops) =
        (if o.output = op.output then op else o) :: replaced op ops := rfl
    rw [hcons, List.find?_cons, List.find?_cons]
    by_cases ho : o.output = op.output
    · by_cases hn : name = op.output
      · simp [ho, hn]
      · have hn' : ¬op.output = name := fun e => hn e.symm
        simp only [ho, if_true, hn', decide_false, hn, if_false]
        -- Outputs are not supposed to be distinct, so this one may occur behind `o` again.
        by_cases hm : op.output ∈ ops.map Operation.output
        · rw [ih hm, if_neg hn]
        · congr 1
          unfold replaced
          conv => rhs; rw [← List.map_id ops]
          refine List.map_congr_left fun e he => if_neg fun hk => hm ?_
          exact hk ▸ List.mem_map_of_mem he
    · have hm : op.output ∈ ops.map Operation.output := by simpa [Ne.symm ho] using h
      rw [if_neg ho, ih hm]
      by_cases hn : name = op.output
      · simp [hn, ho]
      · simp [hn]

theorem lookup_place (r : Registry V E) (op : Operation V E) (name : String) :
    (r.place op).lookup name = if name = op.output then some op else r.lookup name := by
  unfold place lookup
  split
  · next h => exact find?_replaced op name r.operations h
  · next h =>
    have h' : r.operations.find? (fun o => o.output = op.output) = none := lookup_eq_none_iff.2 h
    simp only [List.find?_append, List.find?_cons, List.find?_nil]
    by_cases hn : name = op.output
    · simp [hn, h']
    · simp [hn, Ne.symm hn]

theorem names_place (r : Registry V E) (op : Operation V E) :
    (r.place op).names = if op.output ∈ r.names then r.names else r.names ++ [op.output] := by
  unfold place
  split
  · exact map_output_replaced _ _
  · simp [names]

theorem lookup_remove (r : Registry V E) (name name' : String) :
    (r.remove name).lookup name' = if name' = name then none else r.lookup name' := by
  by_cases hc : r.contains name
  · simp only [remove, hc, if_true, lookup, List.find?_filter]
    by_cases hn : name' = name
    · simp [hn]
    · rw [if_neg hn]
      congr 1
      funext op
      by_cases ho : op.output = name' <;> simp [ho, hn]
  · rw [remove, if_neg hc]
    split
    · next h => rw [h, lookup_eq_none_iff, ← contains_iff]; exact hc
    · rfl

theorem names_remove (r : Registry V E) (name : String) :
    (r.remove name).names = r.names.filter (fun n => decide (n ≠ name)) := by
  by_cases hc : r.contains name
  · simp [remove, hc, names, List.filter_map, Function.comp_def]
  · rw [remove, if_neg hc, eq_comm, List.filter_eq_self]
    intro n hn
    rw [contains_iff] at hc
    have : n ≠ name := fun h => hc (h ▸ hn)
    simpa using this

end Registry

end DemandPlan
