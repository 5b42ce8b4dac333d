import DemandPlan.Evaluation
import DemandPlan.Proofs.Outcome
import DemandPlan.Proofs.Requirements
import DemandPlan.Proofs.Table

/-!
# The meaning of a name

What a name stands for in a query, said by recursion on the operations and without any plan, memo
or order of events. A name that nobody computes is an argument, or it is missing. Any other name is
the outcome of its operation on the values of its inputs; if inputs have no value, the leftmost of
them says why.

* `Evaluates.unique`: a name has at most one meaning.
* `Evaluates.exists_iff`: it has one just in case it is computed in finitely many steps.
* `exists_solution`: the names of a query without cycles all have a meaning.
* `Answers.exists_iff`, `Answers.mem_entries_iff`: when there is an answer, and what it says.
* `Gives.unique`: a request ends in one way at most.
-/

namespace DemandPlan

variable {V E : Type}

namespace Implementation

variable {impl : Implementation V E} {args : List V} {f : Failure E}

theorem exists_raised_of_outcome (h : impl.outcome args = .error f) : ∃ e, f = .raised e := by
  unfold outcome at h
  cases ha : impl.apply args with
  | ok v => rw [ha] at h; cases h
  | error e => rw [ha] at h; exact ⟨e, (Except.error.inj h).symm⟩

theorem outcome_call (impl : Implementation V E) (args : List V) :
    (impl.call args).outcome = impl.outcome args := by
  unfold call
  split <;> rfl

/-- Waiting fails with what the implementation raises, or because there is nothing to wait for. -/
theorem raised_or_notAwaitable_of_activity (h : (impl.activity args).outcome = .error f) :
    (∃ e, f = .raised e) ∨ f = .notAwaitable := by
  unfold activity at h
  split at h
  · cases hi : impl.outcome args with
    | error f' =>
      rw [hi] at h
      exact .inl (Except.error.inj h ▸ exists_raised_of_outcome hi)
    | ok v =>
      rw [hi] at h
      exact .inr (Except.error.inj h).symm
  all_goals exact .inl (exists_raised_of_outcome h)

end Implementation

/-- How a call of an operation ends, when it is waited for if need be. -/
def Operation.outcome (op : Operation V E) (args : List V) : Except (Failure E) V :=
  (op.activity args).outcome

/-- A call fails with what the implementation raises, or because there is nothing to wait for. -/
theorem Operation.outcome_error {op : Operation V E} {args : List V} {f : Failure E}
    (h : op.outcome args = .error f) : (∃ e, f = .raised e) ∨ f = .notAwaitable := by
  unfold outcome activity at h
  split at h
  · exact Implementation.raised_or_notAwaitable_of_activity h
  · exact .inl (Implementation.exists_raised_of_outcome ((op.impl.outcome_call args).symm.trans h))

open Requirements

/-- What a name evaluates to: a value, or the reason why there is none. -/
inductive Evaluates (r : Registry V E) (hints : List String) (args : Table V) :
    String → Except (Trouble E) V → Prop
  | given {name : String} {v : V} :
    producer r hints name = none → args.find? name = some v →
    Evaluates r hints args name (.ok v)
  | missing {name : String} :
    producer r hints name = none → args.find? name = none →
    Evaluates r hints args name (.error (.missing name))
  | computed {name : String} {op : Operation V E} (value : String → Except (Trouble E) V) :
    producer r hints name = some op → (∀ i ∈ op.inputs, Evaluates r hints args i (value i)) →
    Evaluates r hints args name
      (op.inputs.mapM value >>= fun vs => (op.outcome vs).mapError .failed)

namespace Evaluates

variable {r : Registry V E} {hints wanted : List String} {args : Table V} {name : String}
  {x y : Except (Trouble E) V}

/-- The cases of a name that nobody computes. -/
theorem of_producer_none (h : Evaluates r hints args name x) (hp : producer r hints name = none) :
    x = match args.find? name with
      | some v => .ok v
      | none => .error (.missing name) := by
  cases h with
  | given _ ha => rw [ha]
  | missing _ ha => rw [ha]
  | computed _ hop _ => rw [hp] at hop; cases hop

/-- The case of a name that is computed. -/
theorem of_producer_some {op : Operation V E} (h : Evaluates r hints args name x)
    (hp : producer r hints name = some op) :
    ∃ value : String → Except (Trouble E) V,
      (∀ i ∈ op.inputs, Evaluates r hints args i (value i)) ∧
        x = op.inputs.mapM value >>= fun vs => (op.outcome vs).mapError .failed := by
  cases h with
  | given hn _ => rw [hp] at hn; cases hn
  | missing hn _ => rw [hp] at hn; cases hn
  | computed value hop hi =>
    rw [hp, Option.some.injEq] at hop
    subst hop
    exact ⟨value, hi, rfl⟩

theorem unique (h : Evaluates r hints args name x) (h' : Evaluates r hints args name y) :
    x = y := by
  induction h generalizing y with
  | given hn ha => rw [h'.of_producer_none hn, ha]
  | missing hn ha => rw [h'.of_producer_none hn, ha]
  | computed value hop _ ih =>
    obtain ⟨value', hi', rfl⟩ := h'.of_producer_some hop
    rw [Outcome.mapM_congr fun i hi => ih i hi (hi' i hi)]

theorem grounded (h : Evaluates r hints args name x) : Grounded r hints name := by
  induction h with
  | given hn _ => exact grounded_of_producer_none hn
  | missing hn _ => exact grounded_of_producer_none hn
  | computed _ hop _ ih => exact grounded_of_inputs hop ih

/-- One function for all names that have a meaning. -/
theorem exists_function (r : Registry V E) (hints : List String) (args : Table V) :
    ∃ value : String → Except (Trouble E) V,
      ∀ name x, Evaluates r hints args name x → value name = x := by
  classical
  refine ⟨fun name => if h : ∃ x, Evaluates r hints args name x then h.choose
    else .error (.missing name), fun name x hx => ?_⟩
  have h : ∃ x, Evaluates r hints args name x := ⟨x, hx⟩
  simp only [dif_pos h]
  exact h.choose_spec.unique hx

/-- The output of an operation whose inputs have values is what a call on these values gives. -/
theorem of_call {op : Operation V E} {vs : List V} (hp : producer r hints name = some op)
    (hi : List.Forall₂ (fun i v => Evaluates r hints args i (.ok v)) op.inputs vs) :
    Evaluates r hints args name ((op.outcome vs).mapError .failed) := by
  obtain ⟨value, hvalue⟩ := exists_function r hints args
  have hvs : op.inputs.mapM value = .ok vs :=
    Outcome.mapM_eq_ok_iff.2 (hi.imp fun i v h => hvalue i _ h)
  have hall : ∀ i ∈ op.inputs, Evaluates r hints args i (value i) := by
    intro i hin
    obtain ⟨v, -, hv⟩ := Outcome.exists_of_forall₂ hi hin
    rwa [hvalue i _ hv]
  have h := computed value hp hall
  rwa [hvs] at h

/-- An operation that succeeds on the values of its inputs gives its output that value. -/
theorem computed_ok {op : Operation V E} {vs : List V} {v : V}
    (hp : producer r hints name = some op)
    (hi : List.Forall₂ (fun i v => Evaluates r hints args i (.ok v)) op.inputs vs)
    (ho : op.outcome vs = .ok v) : Evaluates r hints args name (.ok v) := by
  have h := of_call hp hi
  rwa [ho] at h

/-- The inputs of an operation that succeeds have values. -/
theorem exists_inputs {op : Operation V E} {v : V} (h : Evaluates r hints args name (.ok v))
    (hp : producer r hints name = some op) :
    ∃ vs, List.Forall₂ (fun i v => Evaluates r hints args i (.ok v)) op.inputs vs ∧
      op.outcome vs = .ok v := by
  obtain ⟨value, hi, hx⟩ := h.of_producer_some hp
  cases hvs : op.inputs.mapM value with
  | error t => rw [hvs] at hx; cases hx
  | ok vs =>
    rw [hvs] at hx
    have hout : Except.ok v = (op.outcome vs).mapError Trouble.failed := hx
    refine ⟨vs, ?_, ?_⟩
    · exact Outcome.forall₂_imp_mem (Outcome.mapM_eq_ok_iff.1 hvs) fun i hin v hv => hv ▸ hi i hin
    · cases ho : op.outcome vs with
      | error f => rw [ho] at hout; cases hout
      | ok w => rw [ho] at hout; exact congrArg _ (Except.ok.inj hout).symm

/-- An operation with inputs that have no value gives its output the reason of the leftmost. -/
theorem of_leftmost {op : Operation V E} (hp : producer r hints name = some op)
    (hg : ∀ i ∈ op.inputs, ∃ y, Evaluates r hints args i y) {i : String} {t : Trouble E}
    (hi : Outcome.Leftmost (fun i => ∃ v, Evaluates r hints args i (.ok v)) op.inputs i)
    (ht : Evaluates r hints args i (.error t)) : Evaluates r hints args name (.error t) := by
  obtain ⟨value, hvalue⟩ := exists_function r hints args
  have hall : ∀ i ∈ op.inputs, Evaluates r hints args i (value i) := fun i hi => by
    obtain ⟨y, hy⟩ := hg i hi
    rwa [hvalue i y hy]
  have herror : op.inputs.mapM value = .error t :=
    Outcome.mapM_eq_error_iff.2 ⟨i, hi.imp_mem fun i _ ⟨v, hv⟩ => ⟨v, hvalue i _ hv⟩, hvalue i _ ht⟩
  have h := computed value hp hall
  rwa [herror] at h

/-- The reasons why an operation gives no value: its leftmost input that has none, or a failure on
the values of the inputs. -/
theorem error_cases {op : Operation V E} {t : Trouble E}
    (h : Evaluates r hints args name (.error t)) (hp : producer r hints name = some op) :
    (∃ i, Outcome.Leftmost (fun i => ∃ v, Evaluates r hints args i (.ok v)) op.inputs i ∧
      Evaluates r hints args i (.error t)) ∨
    ∃ vs f, List.Forall₂ (fun i v => Evaluates r hints args i (.ok v)) op.inputs vs ∧
      op.outcome vs = .error f ∧ t = .failed f := by
  obtain ⟨value, hi, hx⟩ := h.of_producer_some hp
  cases hvs : op.inputs.mapM value with
  | error t' =>
    rw [hvs] at hx
    obtain rfl : t = t' := Except.error.inj hx
    obtain ⟨i, hleft, ht⟩ := Outcome.mapM_eq_error_iff.1 hvs
    refine .inl ⟨i, hleft.imp_mem fun i hin ⟨v, hv⟩ => ⟨v, hv ▸ hi i hin⟩, ht ▸ hi i hleft.mem⟩
  | ok vs =>
    rw [hvs] at hx
    have hout : Except.error t = (op.outcome vs).mapError Trouble.failed := hx
    refine .inr ?_
    cases ho : op.outcome vs with
    | ok v => rw [ho] at hout; cases hout
    | error f =>
      rw [ho] at hout
      refine ⟨vs, f, ?_, ho, Except.error.inj hout⟩
      exact Outcome.forall₂_imp_mem (Outcome.mapM_eq_ok_iff.1 hvs) fun i hin v hv => hv ▸ hi i hin

/-- If the wanted names have values, all names that they need have values. -/
theorem needed_ok (h : ∀ w ∈ wanted, ∃ v, Evaluates r hints args w (.ok v)) {n : String}
    (hn : Needed r hints wanted n) : ∃ v, Evaluates r hints args n (.ok v) := by
  induction hn with
  | wanted hw => exact h _ hw
  | input _ hr ih =>
    obtain ⟨op, hp, hi⟩ := hr
    obtain ⟨v, hv⟩ := ih
    obtain ⟨vs, hvs, -⟩ := hv.exists_inputs hp
    obtain ⟨v, -, hv⟩ := Outcome.exists_of_forall₂ hvs hi
    exact ⟨v, hv⟩

/-- A name has a meaning just in case it is computed in finitely many steps. -/
theorem exists_iff : (∃ x, Evaluates r hints args name x) ↔ Grounded r hints name := by
  constructor
  · rintro ⟨x, hx⟩
    exact hx.grounded
  · intro hg
    induction hg with
    | intro name _ ih =>
      obtain ⟨value, hvalue⟩ := exists_function r hints args
      cases hp : producer r hints name with
      | none =>
        cases ha : args.find? name with
        | none => exact ⟨_, missing hp ha⟩
        | some v => exact ⟨_, given hp ha⟩
      | some op =>
        refine ⟨_, computed value hp fun i hi => ?_⟩
        obtain ⟨x, hx⟩ := ih i ⟨op, hp, hi⟩
        rwa [hvalue i x hx]

end Evaluates

/-! ## Solutions -/

/-- A function that gives every name of a query its meaning. -/
def Solves (r : Registry V E) (hints wanted : List String) (args : Table V)
    (value : String → Except (Trouble E) V) : Prop :=
  ∀ n, Needed r hints wanted n → Evaluates r hints args n (value n)

/-- Without cycles, all names of a query have a meaning. -/
theorem exists_solution {r : Registry V E} {hints wanted : List String} (args : Table V)
    (hg : ∀ n, Needed r hints wanted n → Grounded r hints n) :
    ∃ value, Solves r hints wanted args value := by
  obtain ⟨value, hvalue⟩ := Evaluates.exists_function r hints args
  refine ⟨value, fun n hn => ?_⟩
  obtain ⟨x, hx⟩ := Evaluates.exists_iff.2 (hg n hn)
  rwa [hvalue n x hx]

namespace Solves

variable {r : Registry V E} {hints wanted : List String} {args : Table V}
  {value : String → Except (Trouble E) V}

/-- The equation of an operation of the query. -/
theorem output_eq (h : Solves r hints wanted args value) {op : Operation V E}
    (hop : op ∈ (find r wanted hints).operations) :
    value op.output = op.inputs.mapM value >>= fun vs => (op.outcome vs).mapError .failed := by
  obtain ⟨hn, hp⟩ := mem_operations_iff.1 hop
  exact (h _ hn).unique (.computed value hp fun i hi => h i (.input hn ⟨op, hp, hi⟩))

/-- The equation of a parameter of the query that is among the arguments. -/
theorem param_eq (h : Solves r hints wanted args value) {n : String}
    (hn : n ∈ (find r wanted hints).params) {v : V} (ha : args.find? n = some v) :
    value n = .ok v := by
  obtain ⟨hn, hp⟩ := mem_params_iff.1 hn
  exact (h n hn).unique (.given hp ha)

end Solves

/-! ## Answers -/

/-- The table of the wanted names, each once and in the order in which they first occur, with their
values. -/
structure Answers (r : Registry V E) (hints wanted : List String) (args t : Table V) : Prop where
  keys : t.keys = Names.distinct wanted
  values : ∀ e ∈ t.entries, Evaluates r hints args e.1 (.ok e.2)

theorem answers_distinct_iff {r : Registry V E} {hints wanted : List String} {args t : Table V} :
    Answers r hints (Names.distinct wanted) args t ↔ Answers r hints wanted args t := by
  have h := Names.distinct_eq_self (Names.distinct_nodup wanted)
  exact ⟨fun ⟨hk, hv⟩ => ⟨h ▸ hk, hv⟩, fun ⟨hk, hv⟩ => ⟨h.symm ▸ hk, hv⟩⟩

namespace Answers

variable {r : Registry V E} {hints wanted : List String} {args t t' : Table V}

theorem wanted_ok (h : Answers r hints wanted args t) :
    ∀ w ∈ wanted, ∃ v, Evaluates r hints args w (.ok v) := by
  intro w hw
  rw [← Names.mem_distinct, ← h.keys] at hw
  obtain ⟨e, he, rfl⟩ := List.mem_map.1 hw
  exact ⟨e.2, h.values e he⟩

/-- An answer gives every name of the query a value. -/
theorem grounded (h : Answers r hints wanted args t) {n : String} (hn : Needed r hints wanted n) :
    Grounded r hints n := by
  obtain ⟨v, hv⟩ := Evaluates.needed_ok h.wanted_ok hn
  exact hv.grounded

theorem unique (h : Answers r hints wanted args t) (h' : Answers r hints wanted args t') :
    t = t' := by
  have hkeys : t.keys = t'.keys := h.keys.trans h'.keys.symm
  have hlen : t.entries.length = t'.entries.length := by
    have := congrArg List.length hkeys
    rwa [Table.keys, Table.keys, List.length_map, List.length_map] at this
  refine Table.ext (List.ext_getElem hlen fun i hi hi' => ?_)
  have hfst : t.entries[i].1 = t'.entries[i].1 := by
    have := List.getElem_of_eq hkeys (i := i) (by simpa [Table.keys] using hi)
    simpa [Table.keys] using this
  have hsnd := h'.values _ (List.getElem_mem hi')
  rw [← hfst] at hsnd
  exact Prod.ext hfst (Except.ok.inj ((h.values _ (List.getElem_mem hi)).unique hsnd))

theorem empty : Answers r hints [] args .empty where
  keys := rfl
  values _ h := nomatch h

/-- One more wanted name. -/
theorem insert (h : Answers r hints wanted args t) {name : String} {v : V}
    (hv : Evaluates r hints args name (.ok v)) :
    Answers r hints (wanted ++ [name]) args (t.insert name v) where
  keys := by
    have hmem : name ∈ t ↔ name ∈ wanted := by rw [Table.mem_def, h.keys, Names.mem_distinct]
    rw [Names.distinct_snoc]
    split
    · next hw => rw [Table.keys_insert_of_mem (hmem.2 hw), h.keys]
    · next hw => rw [Table.keys_insert_of_not_mem (mt hmem.1 hw), h.keys]
  values e he := by
    have hfound := Table.find?_eq_some_iff.2 he
    rw [Table.find?_insert] at hfound
    split at hfound
    · next hname => exact hname ▸ Option.some.inj hfound ▸ hv
    · exact h.values e (Table.find?_eq_some_iff.1 hfound)

/-- A query has an answer just in case all wanted names have values. -/
theorem exists_iff : (∃ t, Answers r hints wanted args t) ↔
    ∀ w ∈ wanted, ∃ v, Evaluates r hints args w (.ok v) := by
  refine ⟨fun ⟨t, h⟩ => h.wanted_ok, fun h => ?_⟩
  induction wanted using List.reverseRecOn with
  | nil => exact ⟨.empty, .empty⟩
  | append_singleton wanted name ih =>
    rw [List.forall_mem_append, List.forall_mem_singleton] at h
    obtain ⟨t, ht⟩ := ih h.1
    obtain ⟨v, hv⟩ := h.2
    exact ⟨t.insert name v, ht.insert hv⟩

/-- An answer says what the wanted names evaluate to. -/
theorem mem_entries_iff (h : Answers r hints wanted args t) {e : String × V} :
    e ∈ t.entries ↔ e.1 ∈ wanted ∧ Evaluates r hints args e.1 (.ok e.2) := by
  have hmem : e.1 ∈ t ↔ e.1 ∈ wanted := by rw [Table.mem_def, h.keys, Names.mem_distinct]
  constructor
  · intro he
    exact ⟨hmem.1 (List.mem_map_of_mem he), h.values e he⟩
  · rintro ⟨hw, hv⟩
    obtain ⟨v, hfound⟩ := Table.mem_iff_exists_find?.1 (hmem.2 hw)
    have he := Table.find?_eq_some_iff.1 hfound
    obtain rfl : e.2 = v := Except.ok.inj (hv.unique (h.values _ he))
    exact he

end Answers

/-! ## Outcomes -/

/-- What a request for some names ends with: the answer, or the failure of the leftmost name that
has no value. -/
inductive Gives (r : Registry V E) (hints : List String) (args : Table V) (wanted : List String) :
    Except (Failure E) (Table V) → Prop
  | answer {t : Table V} : Answers r hints wanted args t → Gives r hints args wanted (.ok t)
  | failure {done rest : List String} {name : String} {x : Trouble E} :
    wanted = done ++ name :: rest → (∀ n ∈ done, ∃ v, Evaluates r hints args n (.ok v)) →
    Evaluates r hints args name (.error x) →
    Gives r hints args wanted (.error (x.toFailure name))

namespace Gives

variable {r : Registry V E} {hints wanted : List String} {args : Table V}
  {x y : Except (Failure E) (Table V)}

/-- The leftmost name without a value. -/
theorem failing_unique {done done' rest rest' : List String} {name name' : String}
    {x x' : Trouble E} (h : done ++ name :: rest = done' ++ name' :: rest')
    (hdone : ∀ n ∈ done, ∃ v, Evaluates r hints args n (.ok v))
    (hdone' : ∀ n ∈ done', ∃ v, Evaluates r hints args n (.ok v))
    (hx : Evaluates r hints args name (.error x)) (hx' : Evaluates r hints args name' (.error x')) :
    name = name' := by
  induction done generalizing done' with
  | nil =>
    cases done' with
    | nil => exact (List.cons.inj h).1
    | cons m done' =>
      obtain ⟨v, hv⟩ := hdone' m List.mem_cons_self
      obtain rfl := (List.cons.inj h).1
      cases hx.unique hv
  | cons n done ih =>
    cases done' with
    | nil =>
      obtain ⟨v, hv⟩ := hdone n List.mem_cons_self
      obtain rfl := (List.cons.inj h).1
      cases hx'.unique hv
    | cons m done' =>
      exact ih (List.cons.inj h).2 (fun k hk => hdone k (List.mem_cons_of_mem _ hk))
        fun k hk => hdone' k (List.mem_cons_of_mem _ hk)

theorem unique (h : Gives r hints args wanted x) (h' : Gives r hints args wanted y) : x = y := by
  cases h with
  | answer ht =>
    cases h' with
    | answer ht' => rw [ht.unique ht']
    | failure hw _ hx =>
      obtain ⟨v, hv⟩ := ht.wanted_ok _ (hw ▸ List.mem_append_right _ List.mem_cons_self)
      cases hx.unique hv
  | failure hw hdone hx =>
    cases h' with
    | answer ht =>
      obtain ⟨v, hv⟩ := ht.wanted_ok _ (hw ▸ List.mem_append_right _ List.mem_cons_self)
      cases hx.unique hv
    | failure hw' hdone' hx' =>
      obtain rfl := failing_unique (hw.symm.trans hw') hdone hdone' hx hx'
      rw [Except.error.inj (hx.unique hx')]

end Gives

end DemandPlan
