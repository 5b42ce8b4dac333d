/-!
# Runs

A run is what can be seen of a computation that calls implementations: the events, in order, and
how it ends. Runs follow one another with `>>=`: the events of the second come after those of the
first, and after a failure nothing follows.

* `Run.bind_assoc` and its companions: runs are a lawful monad.
-/

namespace DemandPlan

/-- What an implementation lets be seen. -/
inductive Event
  /-- A plain implementation is called. -/
  | call (label : String)
  /-- A coroutine begins to run. -/
  | start (label : String)
  /-- A coroutine has given its value. -/
  | finish (label : String)
  /-- A coroutine has failed. -/
  | fail (label : String)
  deriving DecidableEq, Repr

/-- The implementation that an event is about. -/
def Event.label : Event → String
  | call l | start l | finish l | fail l => l

/-- Whether an event is the beginning of a call. -/
def Event.isOpening : Event → Bool
  | call _ | start _ => true
  | _ => false

/-- The events of a computation and its end: a value or a failure. -/
@[ext]
structure Run (F α : Type) where
  trace : List Event := []
  outcome : Except F α

namespace Run

variable {F G α β : Type}

/-- A value without any event. -/
def value (a : α) : Run F α := { outcome := .ok a }

/-- A failure without any event. -/
def failure (f : F) : Run F α := { outcome := .error f }

/-- The end of a computation, without any event. -/
def ofExcept (r : Except F α) : Run F α := { outcome := r }

/-- Some events and nothing else. -/
def events (es : List Event) : Run F Unit := { trace := es, outcome := .ok () }

/-- One run after the other. -/
def bind (r : Run F α) (k : α → Run F β) : Run F β :=
  match r.outcome with
  | .ok a => { trace := r.trace ++ (k a).trace, outcome := (k a).outcome }
  | .error f => { trace := r.trace, outcome := .error f }

instance : Monad (Run F) where
  pure := value
  bind := bind

/-- The same events, with the failure seen in another way. -/
def mapFailure (f : F → G) (r : Run F α) : Run G α :=
  { trace := r.trace, outcome := r.outcome.mapError f }

@[simp] theorem pure_trace (a : α) : (pure a : Run F α).trace = [] := rfl

@[simp] theorem pure_outcome (a : α) : (pure a : Run F α).outcome = .ok a := rfl

theorem bind_of_ok {r : Run F α} {a : α} (h : r.outcome = .ok a) (k : α → Run F β) :
    r >>= k = { trace := r.trace ++ (k a).trace, outcome := (k a).outcome } := by
  change bind r k = _
  unfold bind
  rw [h]

theorem bind_of_error {r : Run F α} {f : F} (h : r.outcome = .error f) (k : α → Run F β) :
    r >>= k = { trace := r.trace, outcome := .error f } := by
  change bind r k = _
  unfold bind
  rw [h]

theorem bind_assoc {γ : Type} (r : Run F α) (k : α → Run F β) (l : β → Run F γ) :
    r >>= k >>= l = r >>= fun a => k a >>= l := by
  cases h : r.outcome with
  | error f => rw [bind_of_error h, bind_of_error h, bind_of_error rfl]
  | ok a =>
    rw [bind_of_ok h, bind_of_ok h]
    cases h' : (k a).outcome with
    | error f => rw [bind_of_error rfl, bind_of_error h']
    | ok b => rw [bind_of_ok rfl, bind_of_ok h', List.append_assoc]

theorem bind_pure (r : Run F α) : r >>= pure = r := by
  cases h : r.outcome with
  | error f => rw [bind_of_error h, ← h]
  | ok a => rw [bind_of_ok h, pure_trace, pure_outcome, List.append_nil, ← h]

instance : LawfulMonad (Run F) :=
  LawfulMonad.mk' (Run F) bind_pure (fun _ _ => by rw [bind_of_ok rfl]; rfl) bind_assoc

end Run

end DemandPlan
