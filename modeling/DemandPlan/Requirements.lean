import DemandPlan.Registry

/-!
# Requirements

What a query needs is found by walking back from the wanted outputs along the declared inputs. The
walk stops at names that no operation has as output and at names that the caller already has (the
hints); those are the parameters of the query. Every operation on the way is required.

The walk sees each name once, so it ends on graphs with cycles too. It says nothing about the order
in which the operations can run.
-/

namespace DemandPlan

/-- What a query needs. -/
structure Requirements (V E : Type) where
  /-- The wanted outputs, as they were asked for. -/
  wanted : List String
  /-- The names that have to be supplied, in ascending order. -/
  params : List String
  /-- The operations that have to run, in the order of discovery. -/
  operations : List (Operation V E)

namespace Requirements

variable {V E : Type}

/-- The operation that computes a name in a query: none for a raw input, and none for a name that
the caller has. -/
def producer (r : Registry V E) (hints : List String) (name : String) : Option (Operation V E) :=
  if name ∈ hints then none else r.lookup name

theorem mem_names_of_producer {r : Registry V E} {hints : List String} {name : String}
    {op : Operation V E} (h : producer r hints name = some op) : name ∈ r.names := by
  unfold producer at h
  split at h
  · cases h
  · exact Registry.mem_names_of_lookup h

/-- The names that the walk meets, each once and each with the operation that computes it. The stack
holds the names that are still to be looked at: first the inputs of the operation met last. -/
def reach (r : Registry V E) (hints : List String) (stack visited : List String) :
    List (String × Option (Operation V E)) :=
  match stack with
  | [] => []
  | name :: stack =>
    if hv : name ∈ visited then reach r hints stack visited
    else match hp : producer r hints name with
      | none => (name, none) :: reach r hints stack (name :: visited)
      | some op =>
        have := Names.unseen_cons_lt (mem_names_of_producer hp) hv
        (name, some op) :: reach r hints (op.inputs ++ stack) (name :: visited)
termination_by (Names.unseen r.names visited, stack.length)
decreasing_by
  · exact Prod.Lex.right _ (Nat.lt_succ_self _)
  · exact Prod.Lex.right' _ (Names.unseen_le fun a ha => List.mem_cons_of_mem _ ha)
      (Nat.lt_succ_self _)
  · exact Prod.Lex.left _ _ this

/-- What is needed to compute the wanted names when the hints are there already. -/
def find (r : Registry V E) (wanted hints : List String) : Requirements V E :=
  let met := reach r hints wanted []
  { wanted
    params := Names.sorted ((met.filter fun m => m.2.isNone).map Prod.fst)
    operations := met.filterMap Prod.snd }

/-- The outputs that are computed without being wanted, in ascending order. -/
def intermediates (q : Requirements V E) : List String :=
  Names.sorted ((q.operations.map Operation.output).filter fun n => !q.wanted.contains n)

end Requirements

end DemandPlan
