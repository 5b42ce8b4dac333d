import DemandPlan.Operation.Basic
import DemandPlan.Table

/-!
# Dependency cycles

A depth-first search for operations that need each other. Only dependencies among the given
operations count. The search keeps the path from the root to the place it has reached: coming to a
name on the path closes a cycle. A name whose inputs have all been searched is done and is not
searched again.
-/

namespace DemandPlan.Cycle

variable {V E : Type}

/-- The inputs of each output. Of several operations with one output the last one counts. -/
def inputsOf (ops : List (Operation V E)) : Table (List String) :=
  Table.ofList (ops.map fun op => (op.output, op.inputs))

theorem mem_keys_of_find? {graph : Table (List String)} {name : String} {inputs : List String}
    (h : graph.find? name = some inputs) : name ∈ graph.keys :=
  Table.mem_def.1 (Table.find?_isSome_iff.1 (by rw [h]; rfl))

/-- Searches the names one after the other, below a path. The result is the first cycle, or the
names that are done. -/
def search (graph : Table (List String)) (path names done : List String) :
    Except (List String) (List String) :=
  match names with
  | [] => .ok done
  | name :: names =>
    match hg : graph.find? name with
    | none => search graph path names done
    | some inputs =>
      if name ∈ done then search graph path names done
      else if hp : name ∈ path then .error (path.dropWhile fun n => decide (n ≠ name))
      else
        have := Names.unseen_snoc_lt (mem_keys_of_find? hg) hp
        match search graph (path ++ [name]) inputs done with
        | .error cycle => .error cycle
        | .ok done => search graph path names (name :: done)
termination_by (Names.unseen graph.keys path, names.length)
decreasing_by
  · exact Prod.Lex.right _ (Nat.lt_succ_self _)
  · exact Prod.Lex.right _ (Nat.lt_succ_self _)
  · exact Prod.Lex.left _ _ this
  · exact Prod.Lex.right _ (Nat.lt_succ_self _)

/-- The outputs of operations that need each other in a circle, if there are any: each needs the
next one, and the last one needs the first. -/
def find? (ops : List (Operation V E)) : Option (List String) :=
  let graph := inputsOf ops
  match search graph [] graph.keys [] with
  | .error cycle => some cycle
  | .ok _ => none

end DemandPlan.Cycle
