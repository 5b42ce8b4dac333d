import DemandPlan.Record.Basic

/-!
# Failures

Everything that can end a request without an answer: a reported error, a failure of an
implementation, and the ways in which a plan that was written by hand can go wrong.
-/

namespace DemandPlan

/-- Why a request has ended without an answer. The implementations' own failures are of type `E`. -/
inductive Failure (E : Type)
  | reported (error : Error)
  /-- An implementation has failed. -/
  | raised (failure : E)
  /-- A name, slot or formula is looked up that is not there. -/
  | noSuchKey (key : String)
  /-- A synchronous plan has come to a step that would have to wait. -/
  | asynchronousStep (kind : Step.Kind)
  /-- A value is waited for that a plain implementation has given at once. -/
  | notAwaitable
  /-- Room is to be made in a memo that is empty. -/
  | nothingToEvict
  /-- No task can go on. -/
  | stalled
  deriving DecidableEq

/-- What is wrong, in words, if there is more to say than the kind of failure. The implementations'
own failures are put into words by `raised`. -/
def Failure.message? {E : Type} (raised : E → String) : Failure E → Option String
  | .reported error => some error.message
  | .raised failure => some (raised failure)
  | .noSuchKey key => some key
  | .asynchronousStep kind =>
    some ("Synchronous plan cannot run " ++ Text.quoted kind.name ++ " step")
  | .nothingToEvict => some ""
  | .notAwaitable | .stalled => none

end DemandPlan
