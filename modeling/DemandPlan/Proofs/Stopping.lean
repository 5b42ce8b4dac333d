import DemandPlan.Proofs.Compilation
import DemandPlan.Proofs.Cycle
import DemandPlan.Proofs.Evaluation

/-!
# Where direct evaluation stops

Direct evaluation goes down along the inputs, from left to right, and stops at the first name that
it cannot get past: a name that nobody supplies, an asynchronous operation, an implementation that
fails, or a name that is being computed already.

* `Stops`: what evaluation can stop at on its way down from a name.
* `resolve_error`, `evaluate_error`: a failure of the evaluation comes from such a place.
* `Stops.reported_cases`, `Stops.of_missing`, `Stops.of_succeeds`: what the failures say.
* `gives_evaluate`: without cycles and asynchronous operations, evaluation ends as the meaning of
  the wanted names says.
-/

namespace DemandPlan.Evaluation

open Relation Requirements Outcome

variable {V E : Type} {r : Registry V E} {args memo : Table V} {wanted path names : List String}
  {name : String} {x : Trouble E}

/-- A name has a value. -/
def HasValue (r : Registry V E) (args : Table V) (name : String) : Prop :=
  ∃ v, Evaluates r args.keys args name (.ok v)

/-- What evaluation stops at on its way down from a name, and what it says then. -/
inductive Stops (r : Registry V E) (wanted : List String) (args : Table V) :
    String → Trouble E → Prop
  | missing {name : String} :
    r.lookup name = none → name ∉ args → Stops r wanted args name (.missing name)
  /-- The name is being computed already. -/
  | cycle {name : String} {cycle : List String} :
    Circle (DependsOn (find r wanted args.keys).operations) cycle → name ∈ cycle →
    Stops r wanted args name (.reported (.cycleAmong cycle))
  | asynchronous {name : String} {op : Operation V E} :
    producer r args.keys name = some op → op.isAsync = true →
    Stops r wanted args name (.reported (.asynchronousOperation name))
  | failed {name : String} {op : Operation V E} {vs : List V} {f : Failure E} :
    producer r args.keys name = some op →
    List.Forall₂ (fun i v => Evaluates r args.keys args i (.ok v)) op.inputs vs →
    op.outcome vs = .error f → Stops r wanted args name (.failed f)
  | input {name i : String} {op : Operation V E} {x : Trouble E} :
    producer r args.keys name = some op → Leftmost (HasValue r args) op.inputs i →
    Stops r wanted args i x → Stops r wanted args name x

/-! ## Failures of the evaluation -/

theorem resolveAll_error
    (ih : ∀ name ∈ names, ∀ memo x, Right r args memo →
      (resolve r path name memo).outcome = .error x → Stops r wanted args name x)
    (hm : Right r args memo) (hn : ∀ n ∈ names, Needed r args.keys wanted n)
    (h : (resolveAll r path names memo).outcome = .error x) :
    ∃ name, Leftmost (HasValue r args) names name ∧ Stops r wanted args name x := by
  induction names generalizing memo with
  | nil =>
    rw [resolveAll] at h
    cases h
  | cons name names ihn =>
    rw [List.forall_mem_cons] at ih hn
    rw [resolveAll] at h
    rcases Run.outcome_bind_eq_error_iff.1 h with h | ⟨⟨v, memo₁⟩, hv, h⟩
    · exact ⟨name, .head, ih.1 memo x hm h⟩
    · have hone := resolve_ok hm hn.1 hv
      rcases Run.outcome_bind_eq_error_iff.1 h with h | ⟨_, _, h⟩
      · obtain ⟨i, hleft, hstops⟩ := ihn ih.2 hone.right hn.2 h
        exact ⟨i, .tail ⟨v, hone.value⟩ hleft, hstops⟩
      · cases h

/-- **Failures come from below.** If each name on the path reads the next one and the last one reads
this name, a failure to resolve it is one at which the evaluation can stop. -/
theorem resolve_error (hm : Right r args memo) (hn : Needed r args.keys wanted name)
    (hpath : LeadsTo (DependsOn (find r wanted args.keys).operations) path name)
    (h : (resolve r path name memo).outcome = .error x) : Stops r wanted args name x := by
  -- The path grows on the way down, and it holds registered names only, each once.
  induction hk : Names.unseen r.names path using Nat.strongRecOn generalizing path name memo x with
  | ind k ih =>
    subst hk
    cases hf : memo.find? name with
    | some w =>
      rw [resolve_of_find? hf] at h
      cases h
    | none =>
      cases hr : r.lookup name with
      | none =>
        rw [resolve_of_missing hf hr] at h
        obtain rfl := Except.error.inj h
        exact .missing hr fun ha => Table.find?_eq_none_iff.1 hf (hm.given name ha)
      | some op =>
        have hp : producer r args.keys name = some op := (hm.producer_eq hf).trans hr
        have hdepends : ∀ i ∈ op.inputs,
            DependsOn (find r wanted args.keys).operations name i := fun i hi =>
          Cycle.dependsOn_iff.2 ⟨hn, op, hp, hi⟩
        have hinput : ∀ i ∈ op.inputs, Needed r args.keys wanted i := fun i hi =>
          .input hn ⟨op, hp, hi⟩
        rw [resolve_of_lookup hf hr] at h
        split at h
        · next hmem =>
          obtain rfl := Except.error.inj h
          exact .cycle (hpath.circle hmem).1 (hpath.circle hmem).2
        next hnot =>
        split at h
        · next hasync =>
          obtain rfl := Except.error.inj h
          exact .asynchronous hp hasync
        next hsync =>
        have hlt := Names.unseen_snoc_lt (Registry.mem_names_of_lookup hr) hnot
        rcases Run.outcome_bind_eq_error_iff.1 h with h | ⟨⟨vs, memo₁⟩, hvs, h⟩
        · obtain ⟨i, hleft, hstops⟩ := resolveAll_error
            (fun i hi memo x hm h => ih _ hlt hm (hinput i hi) (hpath.snoc hnot (hdepends i hi))
              h rfl) hm hinput h
          exact .input hp hleft hstops
        rcases Run.outcome_bind_eq_error_iff.1 h with h | ⟨_, _, h⟩
        · obtain ⟨f, hfail, rfl⟩ := Run.outcome_mapFailure_eq_error_iff.1 h
          have hvalues := resolveAll_ok (fun _ _ _ _ hm hn h => resolve_ok hm hn h) hm hinput hvs
          rw [Operation.call_eq_run (by simpa using hsync)] at hfail
          exact .failed hp hvalues.values hfail
        · cases h

theorem evaluateFrom_error {result : Table V} {f : Failure E} (hm : Right r args memo)
    (hn : ∀ n ∈ names, Needed r args.keys wanted n)
    (h : (evaluateFrom r memo result names).outcome = .error f) :
    ∃ name x, Leftmost (HasValue r args) names name ∧ Stops r wanted args name x ∧
      f = x.toFailure name := by
  induction names generalizing memo result with
  | nil => cases h
  | cons name names ih =>
    rw [List.forall_mem_cons] at hn
    rw [evaluateFrom] at h
    rcases Run.outcome_bind_eq_error_iff.1 h with h | ⟨⟨v, memo₁⟩, hv, h⟩
    · obtain ⟨x, hx, rfl⟩ := Run.outcome_mapFailure_eq_error_iff.1 h
      exact ⟨name, x, .head, resolve_error hm hn.1 .nil hx, rfl⟩
    · have hone := resolve_ok hm hn.1 (Run.outcome_mapFailure_eq_ok_iff.1 hv)
      obtain ⟨i, x, hleft, hstops⟩ := ih hone.right hn.2 h
      exact ⟨i, x, .tail ⟨v, hone.value⟩ hleft, hstops⟩

/-- A failure of the evaluation comes from the leftmost wanted name that has no value. -/
theorem evaluate_error {f : Failure E} (h : (evaluate r wanted args).outcome = .error f) :
    ∃ name x, Leftmost (HasValue r args) wanted name ∧ Stops r wanted args name x ∧
      f = x.toFailure name :=
  evaluateFrom_error right_args (fun _ => .wanted) h

/-! ## What the failures say -/

/-- Apart from missing names, a circle of needed names or an asynchronous operation is reported. -/
theorem Stops.reported_cases {e : Error} (h : Stops r wanted args name (.reported e)) :
    (∃ cycle, Circle (DependsOn (find r wanted args.keys).operations) cycle ∧
      e = .cycleAmong cycle) ∨ ∃ n, e = .asynchronousOperation n := by
  generalize hx : Trouble.reported e = x at h
  induction h with
  | missing => cases hx
  | cycle hcircle _ =>
    cases hx
    exact .inl ⟨_, hcircle, rfl⟩
  | asynchronous =>
    cases hx
    exact .inr ⟨_, rfl⟩
  | failed _ _ hfail =>
    cases hx
    rcases Operation.outcome_error hfail with ⟨_, h⟩ | h <;> cases h
  | input _ _ _ ih => exact ih hx

/-- A name that is reported as missing is needed, and nobody supplies it. -/
theorem Stops.of_missing {m : String} (h : Stops r wanted args name (.missing m))
    (hn : Needed r args.keys wanted name) :
    Needed r args.keys wanted m ∧ r.lookup m = none ∧ m ∉ args := by
  generalize hx : Trouble.missing m = x at h
  induction h with
  | missing hr ha =>
    cases hx
    exact ⟨hn, hr, ha⟩
  | cycle => cases hx
  | asynchronous => cases hx
  | failed => cases hx
  | input hp hleft _ ih => exact ih (.input hn ⟨_, hp, hleft.mem⟩) hx

/-- If no operation is asynchronous and no implementation fails, there is a missing name or a
circle. -/
theorem Stops.of_succeeds (h : Stops r wanted args name x) (hn : Needed r args.keys wanted name)
    (hsync : ∀ op ∈ (find r wanted args.keys).operations, op.isAsync = false)
    (hs : ∀ op ∈ (find r wanted args.keys).operations, op.Succeeds r args.keys args) :
    (∃ m, x = .missing m) ∨
      ∃ cycle, Circle (DependsOn (find r wanted args.keys).operations) cycle ∧
        x = .reported (.cycleAmong cycle) := by
  induction h with
  | missing => exact .inl ⟨_, rfl⟩
  | cycle hcircle _ => exact .inr ⟨_, hcircle, rfl⟩
  | asynchronous hp hasync =>
    rw [hsync _ (mem_operations_of_producer hn hp)] at hasync
    cases hasync
  | failed hp hvs hfail =>
    obtain ⟨v, hv⟩ := hs _ (mem_operations_of_producer hn hp) _ hvs
    rw [hv] at hfail
    cases hfail
  | input hp hleft _ ih => exact ih (.input hn ⟨_, hp, hleft.mem⟩)

/-- A cycle that evaluation reports is a circle of needed names. -/
theorem circle_of_evaluate {outputs : List String}
    (h : (evaluate r wanted args).outcome = .error (.reported (.cycle outputs))) :
    ∃ cycle, Circle (DependsOn (find r wanted args.keys).operations) cycle ∧
      outputs = Names.sorted cycle := by
  obtain ⟨name, x, -, hstops, hx⟩ := evaluate_error h
  cases x with
  | missing n => cases hx
  | failed f =>
    obtain rfl : Failure.reported (.cycle outputs) = f := hx
    rcases hstops.reported_cases with ⟨cycle, hcircle, he⟩ | ⟨n, he⟩
    · exact ⟨cycle, hcircle, Error.cycle.inj he⟩
    · cases he

/-- A missing input that evaluation reports belongs to the leftmost wanted name without a value. -/
theorem stops_of_missingInput {requested m : String}
    (h : (evaluate r wanted args).outcome = .error (.reported (.missingInput requested m))) :
    Leftmost (HasValue r args) wanted requested ∧ Stops r wanted args requested (.missing m) := by
  obtain ⟨name, x, hleft, hstops, hx⟩ := evaluate_error h
  cases x with
  | missing n =>
    cases hx
    exact ⟨hleft, hstops⟩
  | failed f =>
    obtain rfl : Failure.reported (.missingInput requested m) = f := hx
    rcases hstops.reported_cases with ⟨cycle, -, he⟩ | ⟨n, he⟩ <;> cases he

/-! ## Queries without cycles -/

/-- Without cycles and asynchronous operations, what evaluation stops at is why a name has no
value. -/
theorem Stops.evaluates (h : Stops r wanted args name x)
    (hg : ∀ n, Needed r args.keys wanted n → Grounded r args.keys n)
    (hsync : ∀ op ∈ (find r wanted args.keys).operations, op.isAsync = false)
    (hn : Needed r args.keys wanted name) : Evaluates r args.keys args name (.error x) := by
  induction h with
  | missing hr ha =>
    exact .missing ((producer_of_not_mem_hints ha).trans hr) (Table.find?_eq_none_iff.2 ha)
  | cycle hcircle hmem =>
    obtain ⟨hneeded, hc⟩ := Cycle.needed_of_circle hcircle hmem
    exact absurd hc (hg _ hneeded).irrefl
  | asynchronous hp hasync =>
    rw [hsync _ (mem_operations_of_producer hn hp)] at hasync
    cases hasync
  | failed hp hvs hfail =>
    have hx := Evaluates.of_call hp hvs
    rwa [hfail] at hx
  | @input name i op x hp hleft _ ih =>
    have hinput : ∀ i ∈ op.inputs, Needed r args.keys wanted i := fun i hi =>
      .input hn ⟨op, hp, hi⟩
    exact .of_leftmost hp (fun i hi => Evaluates.exists_iff.2 (hg i (hinput i hi))) hleft
      (ih (hinput i hleft.mem))

/-- **How evaluation ends** if there are no cycles and no asynchronous operations in the query: with
the answer, or with the failure of the leftmost name that has no value. -/
theorem gives_evaluate (hg : ∀ n, Needed r args.keys wanted n → Grounded r args.keys n)
    (hsync : ∀ op ∈ (find r wanted args.keys).operations, op.isAsync = false) :
    Gives r args.keys args wanted (evaluate r wanted args).outcome := by
  cases h : (evaluate r wanted args).outcome with
  | ok t => exact .answer ((outcome_evaluate_eq_ok_iff hsync).1 h)
  | error f =>
    obtain ⟨name, x, hleft, hstops, rfl⟩ := evaluate_error h
    obtain ⟨done, rest, hw, hdone⟩ := leftmost_iff.1 hleft
    exact .failure hw hdone (hstops.evaluates hg hsync (.wanted hleft.mem))

end DemandPlan.Evaluation
