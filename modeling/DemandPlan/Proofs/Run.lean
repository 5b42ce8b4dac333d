import DemandPlan.Operation.Basic
import DemandPlan.Proofs.FanOut

/-!
# What runs show

Calls are counted by their first events: `Run.openings` keeps the event with which each call
begins, and every call of an operation begins with exactly one (`openings_activity`).

* `Run.all`: runs one after the other, up to the first that fails.
* `FanOut.gather_singleton`: waiting for one activity is a fan-out of one member.
-/

namespace DemandPlan

variable {F G α β : Type}

namespace Run

/-- The first events of the calls of a run. -/
def openings (r : Run F α) : List Event := r.trace.filter Event.isOpening

theorem outcome_bind_eq_ok_iff {r : Run F α} {k : α → Run F β} {b : β} :
    (r >>= k).outcome = .ok b ↔ ∃ a, r.outcome = .ok a ∧ (k a).outcome = .ok b := by
  cases h : r.outcome with
  | error f =>
    rw [bind_of_error h]
    exact ⟨fun h => (nomatch h), fun ⟨_, h, _⟩ => (nomatch h)⟩
  | ok a =>
    rw [bind_of_ok h]
    exact ⟨fun h => ⟨a, rfl, h⟩, fun ⟨_, h, h'⟩ => Except.ok.inj h ▸ h'⟩

theorem outcome_bind_eq_error_iff {r : Run F α} {k : α → Run F β} {f : F} :
    (r >>= k).outcome = .error f ↔
      r.outcome = .error f ∨ ∃ a, r.outcome = .ok a ∧ (k a).outcome = .error f := by
  cases h : r.outcome with
  | error g => simp [bind_of_error h]
  | ok a => simp [bind_of_ok h]

theorem outcome_bind_ne_error {r : Run F α} {f : F} {k : α → Run F β} (hr : r.outcome ≠ .error f)
    (hk : ∀ a, (k a).outcome ≠ .error f) : (r >>= k).outcome ≠ .error f := by
  rw [ne_eq, outcome_bind_eq_error_iff, not_or]
  exact ⟨hr, fun ⟨a, _, h⟩ => hk a h⟩

/-- What follows a run matters only for the value that it gives. -/
theorem bind_congr {r : Run F α} {k k' : α → Run F β} (h : ∀ a, r.outcome = .ok a → k a = k' a) :
    r >>= k = r >>= k' := by
  cases hr : r.outcome with
  | error f => rw [bind_of_error hr, bind_of_error hr]
  | ok a => rw [bind_of_ok hr, bind_of_ok hr, h a hr]

theorem trace_bind_of_ok {r : Run F α} {a : α} (h : r.outcome = .ok a) (k : α → Run F β) :
    (r >>= k).trace = r.trace ++ (k a).trace := by
  rw [bind_of_ok h]

theorem openings_bind_of_ok {r : Run F α} {a : α} (h : r.outcome = .ok a) (k : α → Run F β) :
    (r >>= k).openings = r.openings ++ (k a).openings := by
  rw [openings, trace_bind_of_ok h, List.filter_append]
  rfl

theorem ofExcept_ok_bind (a : α) (k : α → Run F β) : ofExcept (.ok a) >>= k = k a := by
  rw [bind_of_ok rfl]
  rfl

theorem outcome_mapFailure_eq_ok_iff {r : Run F α} {f : F → G} {a : α} :
    (r.mapFailure f).outcome = .ok a ↔ r.outcome = .ok a := by
  unfold mapFailure
  cases r.outcome <;> simp [Except.mapError]

theorem outcome_mapFailure_eq_error_iff {r : Run F α} {f : F → G} {g : G} :
    (r.mapFailure f).outcome = .error g ↔ ∃ e, r.outcome = .error e ∧ f e = g := by
  unfold mapFailure
  cases r.outcome <;> simp [Except.mapError]

theorem openings_mapFailure (f : F → G) (r : Run F α) : (r.mapFailure f).openings = r.openings :=
  rfl

/-! ## Runs one after the other -/

/-- Runs one after the other; what they give is not used. -/
def all : List (Run F α) → Run F Unit
  | [] => pure ()
  | r :: rs => do
    let _ ← r
    all rs

theorem outcome_all_eq_ok_iff {rs : List (Run F α)} :
    (all rs).outcome = .ok () ↔ ∀ r ∈ rs, ∃ a, r.outcome = .ok a := by
  induction rs with
  | nil => simp [all]
  | cons r rs ih =>
    rw [all, outcome_bind_eq_ok_iff, List.forall_mem_cons, ih]
    exact ⟨fun ⟨a, h, h'⟩ => ⟨⟨a, h⟩, h'⟩, fun ⟨⟨a, h⟩, h'⟩ => ⟨a, h, h'⟩⟩

/-- Runs that all give values show all their events. -/
theorem all_of_ok {rs : List (Run F α)} (h : ∀ r ∈ rs, ∃ a, r.outcome = .ok a) :
    all rs = { trace := rs.flatMap trace, outcome := .ok () } := by
  induction rs with
  | nil => rfl
  | cons r rs ih =>
    rw [List.forall_mem_cons] at h
    obtain ⟨⟨a, ha⟩, hrs⟩ := h
    rw [all, bind_of_ok ha, ih hrs, List.flatMap_cons]

/-- After the first failure nothing follows. -/
theorem all_of_error {done rest : List (Run F α)} {r : Run F α} {f : F}
    (hdone : ∀ r ∈ done, ∃ a, r.outcome = .ok a) (hr : r.outcome = .error f) :
    all (done ++ r :: rest) = { trace := (done ++ [r]).flatMap trace, outcome := .error f } := by
  induction done with
  | nil => rw [List.nil_append, all, bind_of_error hr, List.nil_append, List.flatMap_singleton]
  | cons d done ih =>
    rw [List.forall_mem_cons] at hdone
    obtain ⟨⟨a, ha⟩, hdone⟩ := hdone
    rw [List.cons_append, all, bind_of_ok ha, ih hdone, List.cons_append, List.flatMap_cons]

theorem openings_all {rs : List (Run F α)} (h : (all rs).outcome = .ok ()) :
    (all rs).openings = rs.flatMap openings := by
  rw [openings, all_of_ok (outcome_all_eq_ok_iff.1 h), List.filter_flatMap]
  rfl

end Run

/-! ## Calls of operations -/

namespace Operation

variable {V E : Type}

/-- The event with which a call of the operation begins. -/
def openingEvent (op : Operation V E) : Event :=
  match op.impl.style with
  | .plain => .call op.impl.label
  | .coroutine | .awaitable => .start op.impl.label

theorem isOpening_closingEvent (impl : Implementation V E) (args : List V) :
    (impl.closingEvent args).isOpening = false := by
  unfold Implementation.closingEvent
  split <;> rfl

/-- The call of a synchronous operation is its activity. -/
theorem call_eq_run {op : Operation V E} (h : op.isAsync = false) (args : List V) :
    op.impl.call args = (op.activity args).run := by
  unfold activity Activity.run
  simp [h]

theorem activity_of_async {op : Operation V E} (h : op.isAsync = true) (args : List V) :
    op.activity args = op.impl.activity args := by
  unfold activity
  simp [h]

theorem openings_opening_activity (op : Operation V E) (args : List V) :
    (op.activity args).opening.filter Event.isOpening = [op.openingEvent] := by
  have hc := isOpening_closingEvent op.impl args
  have hcall : ∀ l, (Event.call l).isOpening = true := fun _ => rfl
  have hstart : ∀ l, (Event.start l).isOpening = true := fun _ => rfl
  cases hs : op.impl.style <;> cases ha : op.isAsync <;>
    simp [activity, Implementation.activity, Implementation.call, openingEvent, hs, ha, hc, hcall,
      hstart]

theorem openings_closing_activity (op : Operation V E) (args : List V) :
    (op.activity args).closing.filter Event.isOpening = [] := by
  have hc := isOpening_closingEvent op.impl args
  cases hs : op.impl.style <;> cases ha : op.isAsync <;>
    simp [activity, Implementation.activity, hs, ha, hc]

theorem openings_activity (op : Operation V E) (args : List V) :
    (op.activity args).run.openings = [op.openingEvent] := by
  rw [Run.openings, Activity.run, List.filter_append, openings_opening_activity,
    openings_closing_activity]
  rfl

end Operation

/-! ## Fan-outs -/

namespace FanOut

theorem openings_gather_perm (activities : List (Activity F α)) :
    (gather activities).openings.Perm (activities.flatMap fun a => a.run.openings) := by
  have h := (gather_trace_perm activities).filter Event.isOpening
  rwa [List.filter_flatMap] at h

theorem gather_nil : gather ([] : List (Activity F α)) = pure [] := by
  unfold gather
  rw [drain, dif_pos (by rfl)]
  rfl

/-- A fan-out of one activity that has shown everything up to some move. -/
theorem trace_drain_singleton {s : FanOut F α} {m : Member F α} (hm : s.members = [m])
    (hs : m.Settled) (ht : s.trace = m.seen) :
    s.drain.trace = m.activity.opening ++ m.activity.closing := by
  fun_induction drain s generalizing m with
  | case1 s h0 =>
    obtain ⟨o, ho⟩ := progress_of_movesLeft h0 (m := m) (by simp [hm])
    rw [ht, Member.seen, ho]
  | case2 s h0 _ ih =>
    have hround : s.round = { members := [m.step.1], trace := s.trace ++ m.step.2 } := by
      unfold round resume
      simp [hm]
    rw [← Member.activity_step m]
    refine ih (by rw [hround]) hs.step ?_
    rw [hround, Member.seen_step, ht]

theorem gather_singleton (a : Activity F α) :
    gather [a] = do return [← a.run] := by
  have htrace : (gather [a]).trace = a.opening ++ a.closing :=
    trace_drain_singleton (m := { activity := a }) rfl
      (fun _ h => by cases h) rfl
  have houtcome := gather_outcome [a]
  rw [List.mapM_cons] at houtcome
  refine Run.ext ?_ ?_
  · rw [htrace]
    cases h : a.run.outcome with
    | error f => rw [Run.bind_of_error h]; rfl
    | ok v => rw [Run.bind_of_ok h]; simp [Activity.run]
  · rw [houtcome]
    cases h : a.outcome with
    | error f => rw [Run.bind_of_error (r := a.run) h]; rfl
    | ok v => rw [Run.bind_of_ok (r := a.run) h]; rfl

end FanOut

end DemandPlan
