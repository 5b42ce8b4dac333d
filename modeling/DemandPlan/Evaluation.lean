import DemandPlan.Registry
import DemandPlan.Run

/-!
# Direct evaluation

Wanted outputs can be computed without a plan, by going down along the inputs. What has been
computed is kept in a memo, which starts as the arguments, so nothing is computed twice in one
request. Asynchronous operations are refused, and so is coming back to a name that is being
computed.

An error names the wanted output and the first missing name that is met, not all of them.
-/

namespace DemandPlan

/-- Why a name has no value. -/
inductive Trouble (E : Type)
  /-- Nobody supplies this name. -/
  | missing (name : String)
  | failed (failure : Failure E)

namespace Trouble

variable {E : Type}

/-- A reported error. -/
def reported (e : Error) : Trouble E := .failed (.reported e)

/-- The failure that a request for an output ends with. -/
def toFailure (requested : String) : Trouble E → Failure E
  | .missing name => .reported (.missingInput requested name)
  | .failed failure => failure

end Trouble

namespace Evaluation

variable {V E : Type}

mutual

/-- The value of a name, and the memo after computing it. The path holds the names that are being
computed, the outermost first. -/
def resolve (r : Registry V E) (path : List String) (name : String) (memo : Table V) :
    Run (Trouble E) (V × Table V) :=
  match memo.find? name with
  | some v => pure (v, memo)
  | none =>
    match hr : r.lookup name with
    | none => .failure (.missing name)
    | some op =>
      if hp : name ∈ path then
        .failure (.reported (.cycleAmong (path.dropWhile fun n => decide (n ≠ name))))
      else if op.isAsync then .failure (.reported (.asynchronousOperation name))
      else
        have := Names.unseen_snoc_lt (Registry.mem_names_of_lookup hr) hp
        do
          let (args, memo) ← resolveAll r (path ++ [name]) op.inputs memo
          let v ← (op.impl.call args).mapFailure .failed
          return (v, memo.insert name v)
termination_by (Names.unseen r.names path, 0)
decreasing_by exact Prod.Lex.left _ _ this

/-- The values of some names, in order, and the memo after computing them. -/
def resolveAll (r : Registry V E) (path names : List String) (memo : Table V) :
    Run (Trouble E) (List V × Table V) :=
  match names with
  | [] => pure ([], memo)
  | name :: names => do
    let (v, memo) ← resolve r path name memo
    let (vs, memo) ← resolveAll r path names memo
    return (v :: vs, memo)
termination_by (Names.unseen r.names path, names.length)
decreasing_by
  · exact Prod.Lex.right _ (Nat.succ_pos _)
  · exact Prod.Lex.right _ (Nat.lt_succ_self _)

end

/-- Computes the wanted outputs one after the other. -/
def evaluateFrom (r : Registry V E) (memo result : Table V) :
    List String → Run (Failure E) (Table V)
  | [] => pure result
  | name :: names => do
    let (v, memo) ← (resolve r [] name memo).mapFailure (Trouble.toFailure name)
    evaluateFrom r memo (result.insert name v) names

/-- Computes the wanted outputs from arguments. -/
def evaluate (r : Registry V E) (wanted : List String) (args : Table V) :
    Run (Failure E) (Table V) :=
  evaluateFrom r args .empty wanted

end Evaluation

end DemandPlan
