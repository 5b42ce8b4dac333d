import DemandPlan.Proofs.Requirements
import Mathlib.Order.Bounds.Basic
import Mathlib.Data.Set.Basic

/-!
# The order of the walk

The walk takes one name after the other from a stack and puts the inputs of operations on it, so a
name can be on the stack several times. It ends all the same, on graphs with cycles too, and it
meets the names in the order of a recursive search: first a name, then whatever is below its inputs
from left to right, and nothing twice.

* `Walk.iterate_turn`: how many turns the walk takes, and what it has met then.
* `map_reach_eq_search`: it meets the names in the order of the recursive search.
* `isLeast_needed`: the needed names are the least set that is closed under reading.
* `exact_find`: the requirements of a query are exactly what is needed.
-/

namespace DemandPlan.Requirements

variable {V E : Type} {r : Registry V E} {hints wanted : List String}

/-! ## Turn by turn -/

/-- The walk between two turns. -/
structure Walk (V E : Type) where
  /-- The names that are still to be looked at, the next one first. -/
  stack : List String
  /-- The names that have been met, each with the operation that computes it. -/
  met : List (String × Option (Operation V E)) := []

namespace Walk

/-- One turn of the walk: it takes a name from the stack and looks at it, if it is new. -/
def turn (r : Registry V E) (hints : List String) (w : Walk V E) : Walk V E :=
  match w.stack with
  | [] => w
  | name :: stack =>
    if name ∈ w.met.map Prod.fst then { w with stack }
    else
      { stack := (producer r hints name).elim [] Operation.inputs ++ stack
        met := w.met ++ [(name, producer r hints name)] }

section Turn

variable {name : String} {stack visited : List String}
  {met : List (String × Option (Operation V E))}

theorem turn_of_mem (h : name ∈ met.map Prod.fst) :
    turn r hints { stack := name :: stack, met } = { stack, met } := if_pos h

theorem turn_of_not_mem (h : name ∉ met.map Prod.fst) :
    turn r hints { stack := name :: stack, met } =
      { stack := (producer r hints name).elim [] Operation.inputs ++ stack
        met := met ++ [(name, producer r hints name)] } := if_neg h

/-- The inputs of the operations that have been met. -/
def read (met : List (String × Option (Operation V E))) : List String :=
  (met.filterMap Prod.snd).flatMap Operation.inputs

/-- **The walk ends.** Its stack is empty after as many turns as names are put on it. -/
theorem iterate_turn (hv : (met.map Prod.fst).reverse = visited) :
    (turn r hints)^[stack.length + (read (reach r hints stack visited)).length] { stack, met } =
      { stack := [], met := met ++ reach r hints stack visited } := by
  fun_induction reach r hints stack visited generalizing met with
  | case1 => simp [read]
  | case2 visited name stack hseen ih =>
    have hmet : name ∈ met.map Prod.fst := by rwa [← List.mem_reverse, hv]
    rw [List.length_cons, Nat.add_right_comm, Function.iterate_succ_apply, turn_of_mem hmet]
    exact ih hv
  | case3 visited name stack hnew hp ih =>
    have hmet : name ∉ met.map Prod.fst := by rwa [← List.mem_reverse, hv]
    have hmore : ((met ++ [(name, none)]).map Prod.fst).reverse = name :: visited := by simp [hv]
    have hrest := ih hmore
    rw [List.append_assoc] at hrest
    rw [List.length_cons, Nat.add_right_comm, Function.iterate_succ_apply, turn_of_not_mem hmet, hp]
    exact hrest
  | case4 visited name stack hnew op hp _ ih =>
    have hmet : name ∉ met.map Prod.fst := by rwa [← List.mem_reverse, hv]
    have hmore : ((met ++ [(name, some op)]).map Prod.fst).reverse = name :: visited := by
      simp [hv]
    have hrest := ih hmore
    rw [List.append_assoc] at hrest
    -- One turn takes the name away and puts the inputs of its operation there.
    have hcount : (name :: stack).length +
        (read ((name, some op) :: reach r hints (op.inputs ++ stack) (name :: visited))).length =
          (op.inputs ++ stack).length +
            (read (reach r hints (op.inputs ++ stack) (name :: visited))).length + 1 := by
      simp only [read, List.length_cons, List.length_append, List.filterMap_cons, List.flatMap_cons]
      omega
    rw [hcount, Function.iterate_succ_apply, turn_of_not_mem hmet, hp]
    exact hrest

end Turn

end Walk

/-! ## The order of discovery -/

/-- The names that a recursive search meets and that have not been visited, in the order in which it
meets them: a name, then what is below its inputs, then the other names. Whatever has been visited,
anywhere, is not visited again. -/
def search (r : Registry V E) (hints visited : List String) : List String → List String
  | [] => []
  | name :: names =>
    if hv : name ∈ visited then search r hints visited names
    else match hp : producer r hints name with
      | none => name :: search r hints (name :: visited) names
      | some op =>
        have := Names.unseen_cons_lt (mem_names_of_producer hp) hv
        let below := search r hints (name :: visited) op.inputs
        name :: (below ++ search r hints (below.reverse ++ name :: visited) names)
termination_by names => (Names.unseen r.names visited, names.length)
decreasing_by
  · exact Prod.Lex.right _ (Nat.lt_succ_self _)
  · exact Prod.Lex.right' _ (Names.unseen_le fun a ha => List.mem_cons_of_mem _ ha)
      (Nat.lt_succ_self _)
  · exact Prod.Lex.left _ _ this
  · exact Prod.Lex.left _ _ (Nat.lt_of_le_of_lt (Names.unseen_le fun a ha => by simp [ha]) this)

/-- **The order of discovery.** The stack leads the walk through the names in the order of the
recursive search. -/
theorem map_reach_eq_search (names visited : List String) :
    (reach r hints names visited).map Prod.fst = search r hints visited names := by
  fun_induction search r hints visited names with
  | case1 => rw [reach]; rfl
  | case2 visited name names hv ih => rw [reach_cons_of_mem hv, ih]
  | case3 visited name names hv hp ih => rw [reach_cons_of_none hv hp, List.map_cons, ih]
  | case4 visited name names hv op hp _ below ihbelow ih =>
    rw [reach_cons_of_some hv hp, reach_append, List.map_cons, List.map_append, ihbelow, ih]

theorem operations_eq_search (r : Registry V E) (wanted hints : List String) :
    (find r wanted hints).operations =
      (search r hints [] wanted).filterMap (producer r hints) := by
  rw [← map_reach_eq_search, List.filterMap_map]
  exact List.filterMap_congr fun m hm => producer_of_mem_reach hm

/-! ## The least set -/

/-- A set that holds the wanted names and, with each registered name that is no hint, all that its
operation reads. -/
def Closed (r : Registry V E) (wanted hints : List String) (s : Set String) : Prop :=
  (∀ n ∈ wanted, n ∈ s) ∧
    ∀ n ∈ s, n ∉ hints → ∀ op, r.lookup n = some op → ∀ i ∈ op.inputs, i ∈ s

theorem isLeast_needed (r : Registry V E) (wanted hints : List String) :
    IsLeast {s | Closed r wanted hints s} {n | Needed r hints wanted n} := by
  constructor
  · refine ⟨fun n => .wanted, fun n hn hh op hop i hi => .input hn ⟨op, ?_, hi⟩⟩
    rwa [producer_of_not_mem_hints hh]
  · rintro s ⟨hwanted, hread⟩ n hn
    induction hn with
    | wanted hw => exact hwanted _ hw
    | input _ hr ih =>
      obtain ⟨op, hp, hi⟩ := hr
      exact hread _ ih (not_mem_hints_of_producer hp) op (lookup_of_producer hp) _ hi

/-! ## What is found -/

/-- The wanted names that are computed, each once. -/
def computed (q : Requirements V E) : List String :=
  (Names.distinct q.wanted).filter fun n => n ∈ q.operations.map Operation.output

theorem mem_intermediates_iff {n : String} : n ∈ (find r wanted hints).intermediates ↔
    n ∈ (find r wanted hints).operations.map Operation.output ∧ n ∉ wanted := by
  rw [intermediates, Names.mem_sorted, List.mem_filter]
  simp [find]

theorem mem_computed_iff {n : String} : n ∈ (find r wanted hints).computed ↔
    n ∈ wanted ∧ n ∈ (find r wanted hints).operations.map Operation.output := by
  rw [computed, List.mem_filter, Names.mem_distinct, decide_eq_true_eq]
  rfl

theorem intermediates_nodup : (find r wanted hints).intermediates.Nodup :=
  Names.sorted_nodup (outputs_nodup.filter _)

/-- No name is found twice, in whatever part. -/
theorem parts_nodup : ((find r wanted hints).params ++ (find r wanted hints).intermediates ++
    (find r wanted hints).computed).Nodup := by
  have hdisjoint : ∀ n ∈ (find r wanted hints).params,
      n ∉ (find r wanted hints).operations.map Operation.output := fun n hn hout =>
    (mem_outputs_iff.1 hout).2 (mem_params_iff.1 hn).2
  refine List.nodup_append.2 ⟨List.nodup_append.2 ⟨params_nodup, intermediates_nodup, ?_⟩,
    (Names.distinct_nodup wanted).filter _, ?_⟩
  · rintro n hn _ hi rfl
    exact hdisjoint n hn (mem_intermediates_iff.1 hi).1
  · rintro n hn _ hc rfl
    obtain ⟨hw, hout⟩ := mem_computed_iff.1 hc
    rcases List.mem_append.1 hn with hn | hn
    · exact hdisjoint n hn hout
    · exact (mem_intermediates_iff.1 hn).2 hw

/-- Every needed name is found in some part. -/
theorem mem_parts_iff {n : String} : n ∈ (find r wanted hints).params ++
    (find r wanted hints).intermediates ++ (find r wanted hints).computed ↔
      Needed r hints wanted n := by
  rw [List.mem_append, List.mem_append, mem_intermediates_iff, mem_computed_iff, mem_params_iff,
    mem_outputs_iff]
  constructor
  · tauto
  · intro hn
    by_cases hp : producer r hints n = none <;> by_cases hw : n ∈ wanted <;> simp [hn, hp, hw]

/-- Requirements that are exactly what is needed: no more and no less than the names of a set,
found in a walk that ends, and in the order of the recursive search. -/
structure Exact (r : Registry V E) (wanted hints : List String) (needed : Set String)
    (q : Requirements V E) : Prop where
  /-- The walk is over after as many turns as names are put on its stack. -/
  ends : ∃ met : List (String × Option (Operation V E)),
    (Walk.turn r hints)^[wanted.length + (q.operations.flatMap Operation.inputs).length]
        { stack := wanted } = { stack := [], met } ∧
      q =
        { wanted
          params := Names.sorted ((met.filter fun m => m.2.isNone).map Prod.fst)
          operations := met.filterMap Prod.snd }
  mem_operations : ∀ op, op ∈ q.operations ↔
    op.output ∈ needed ∧ op.output ∉ hints ∧ r.lookup op.output = some op
  outputs_nodup : (q.operations.map Operation.output).Nodup
  in_order : q.operations = (search r hints [] wanted).filterMap (producer r hints)
  mem_params : ∀ n, n ∈ q.params ↔ n ∈ needed ∧ (n ∈ hints ∨ r.lookup n = none)
  params_ascending : q.params.Pairwise (· < ·)
  mem_intermediates : ∀ n, n ∈ q.intermediates ↔
    n ∈ q.operations.map Operation.output ∧ n ∉ wanted
  intermediates_ascending : q.intermediates.Pairwise (· < ·)
  /-- Each needed name is a parameter, an intermediate or a wanted name that is computed, and only
  one of these. -/
  parts_nodup : (q.params ++ q.intermediates ++ q.computed).Nodup
  mem_parts : ∀ n, n ∈ q.params ++ q.intermediates ++ q.computed ↔ n ∈ needed

/-- **The walk finds exactly what is needed.** Let `needed` be the least set that holds the wanted
names and, with each registered name that is no hint, the inputs of its operation. The walk ends.
Its operations are those of the registered names in this set that are no hints, each once, in the
order in which the recursive search meets them; its parameters are the other names of the set, in
ascending order. The parameters, the intermediates and the wanted names that are computed are a
partition of the set. -/
theorem exact_find (r : Registry V E) (wanted hints : List String) :
    ∃ needed : Set String, IsLeast {s | Closed r wanted hints s} needed ∧
      Exact r wanted hints needed (find r wanted hints) := by
  refine ⟨{n | Needed r hints wanted n}, isLeast_needed r wanted hints, ?_⟩
  exact
    { ends := ⟨reach r hints wanted [], Walk.iterate_turn rfl, rfl⟩
      mem_operations := fun op => by rw [mem_operations_iff, producer_eq_some_iff]; rfl
      outputs_nodup := outputs_nodup
      in_order := operations_eq_search r wanted hints
      mem_params := fun n => by rw [mem_params_iff, producer_eq_none_iff]; rfl
      params_ascending := Names.pairwise_lt params_nodup (Names.sorted_pairwise _)
      mem_intermediates := fun n => mem_intermediates_iff
      intermediates_ascending := Names.pairwise_lt intermediates_nodup (Names.sorted_pairwise _)
      parts_nodup := parts_nodup
      mem_parts := fun n => mem_parts_iff }

end DemandPlan.Requirements
