import DemandPlan.Failure
import DemandPlan.Run

/-!
# Activities

An activity is something that is waited for: it shows some events, gives way a number of times,
shows some more events and ends. How often it gives way matters only where several activities run
at the same time (`DemandPlan.FanOut`).

An implementation is plain, a coroutine, or a plain function that returns a coroutine. The last two
behave alike when they are waited for; they differ in what an operation is taken for that does not
say whether it is asynchronous.
-/

namespace DemandPlan

/-- A computation that gives way `pauses` times. -/
structure Activity (F α : Type) where
  /-- The events before it first gives way. -/
  opening : List Event := []
  pauses : Nat := 0
  /-- The events after it has last given way. -/
  closing : List Event := []
  outcome : Except F α

/-- The run of an activity that is alone. -/
def Activity.run {F α : Type} (a : Activity F α) : Run F α :=
  { trace := a.opening ++ a.closing, outcome := a.outcome }

/-- How an implementation is called. -/
inductive Style
  /-- A function that gives its value at once. -/
  | plain
  /-- A function that can give way while it runs. -/
  | coroutine
  /-- A plain function whose value is such a coroutine. -/
  | awaitable
  deriving DecidableEq, Repr

/-- An implementation. Its value depends on its arguments only, and it may fail. -/
structure Implementation (V E : Type) where
  label : String
  style : Style
  /-- How often a call gives way. -/
  pauses : Nat
  apply : List V → Except E V

namespace Implementation

variable {V E : Type}

/-- The value of a call, or its failure. -/
def outcome (impl : Implementation V E) (args : List V) : Except (Failure E) V :=
  (impl.apply args).mapError .raised

/-- The last event of a coroutine. -/
def closingEvent (impl : Implementation V E) (args : List V) : Event :=
  match impl.apply args with
  | .ok _ => .finish impl.label
  | .error _ => .fail impl.label

/-- A call whose value is used at once. One that gives way is run to its end. -/
def call (impl : Implementation V E) (args : List V) : Run (Failure E) V :=
  match impl.style with
  | .plain => { trace := [.call impl.label], outcome := impl.outcome args }
  | .coroutine | .awaitable =>
    { trace := [.start impl.label, impl.closingEvent args], outcome := impl.outcome args }

/-- A call that is waited for. The value of a plain implementation is there at once, and there is
nothing to wait for. -/
def activity (impl : Implementation V E) (args : List V) : Activity (Failure E) V :=
  match impl.style with
  | .plain =>
    { opening := [.call impl.label]
      outcome := (impl.outcome args).bind fun _ => .error .notAwaitable }
  | .coroutine | .awaitable =>
    { opening := [.start impl.label]
      pauses := impl.pauses
      closing := [impl.closingEvent args]
      outcome := impl.outcome args }

end Implementation

end DemandPlan
