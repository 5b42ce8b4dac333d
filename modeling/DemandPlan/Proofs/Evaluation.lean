import DemandPlan.Evaluation
import DemandPlan.Proofs.Meaning
import DemandPlan.Proofs.Run

/-!
# Direct evaluation is right

Going down along the inputs with a memo gives the names the values that they have by recursion on
the operations. The memo is right all the time, each name is computed at most once, and a name that
has a value is always found: the path holds only names that need the present one, so coming back to
one of them would be a cycle.

* `Right`: what the memo of an evaluation holds.
* `resolve_ok`, `exists_resolve`: what resolving a name gives, and that it gives something.
* `outcome_evaluate_eq_ok_iff`: evaluation gives the answer to the query and nothing else.
-/

namespace DemandPlan.Evaluation

open Requirements

variable {V E : Type} {r : Registry V E} {args memo memo' : Table V}
  {wanted path names : List String} {name : String}

/-- A memo that holds the arguments and values of names, and the inputs of all it holds. -/
structure Right (r : Registry V E) (args memo : Table V) : Prop where
  given : ∀ n ∈ args, n ∈ memo
  value : ∀ n v, memo.find? n = some v → Evaluates r args.keys args n (.ok v)
  closed : ∀ n ∈ memo, ∀ i, Reads r args.keys n i → i ∈ memo

/-- The arguments alone. -/
theorem right_args : Right r args args where
  given _ h := h
  value _ _ h := .given (producer_of_mem_hints (Table.mem_of_find? h)) h
  closed n h i hr := by
    obtain ⟨op, hop, -⟩ := hr
    rw [producer_of_mem_hints h] at hop
    cases hop

/-- A name that is not in the memo is computed by the registered operation, if there is one. -/
theorem Right.producer_eq (h : Right r args memo) (hn : memo.find? name = none) :
    producer r args.keys name = r.lookup name :=
  producer_of_not_mem_hints fun hm => Table.find?_eq_none_iff.1 hn (h.given name hm)

/-- The memo after the computation of a name whose inputs it holds. -/
theorem Right.insert (h : Right r args memo) (hi : ∀ i, Reads r args.keys name i → i ∈ memo) {v : V}
    (hv : Evaluates r args.keys args name (.ok v)) : Right r args (memo.insert name v) where
  given n hn := Table.mem_insert.2 (.inr (h.given n hn))
  value n w hn := by
    rw [Table.find?_insert] at hn
    split at hn
    · next he => exact he ▸ Option.some.inj hn ▸ hv
    · exact h.value n w hn
  closed n hn i hr := by
    refine Table.mem_insert.2 (.inr ?_)
    rcases Table.mem_insert.1 hn with rfl | hn
    · exact hi i hr
    · exact h.closed n hn i hr

/-- A memo has grown by the outputs of some operations of a query, each of which has been called
once. -/
def Grown (r : Registry V E) (hints wanted : List String) (memo memo' : Table V)
    (openings : List Event) : Prop :=
  ∃ ops : List (Operation V E), memo'.keys = memo.keys ++ ops.map Operation.output ∧
    openings = ops.map Operation.openingEvent ∧ ∀ op ∈ ops, op ∈ (find r wanted hints).operations

theorem Grown.refl {hints : List String} (memo : Table V) :
    Grown r hints wanted memo memo [] :=
  ⟨[], (List.append_nil _).symm, rfl, fun _ h => nomatch h⟩

theorem Grown.trans {hints : List String} {memo'' : Table V} {o o' : List Event}
    (h : Grown r hints wanted memo memo' o) (h' : Grown r hints wanted memo' memo'' o') :
    Grown r hints wanted memo memo'' (o ++ o') := by
  obtain ⟨ops, hkeys, rfl, hmem⟩ := h
  obtain ⟨ops', hkeys', rfl, hmem'⟩ := h'
  refine ⟨ops ++ ops', ?_, List.map_append.symm, fun op hop => ?_⟩
  · rw [hkeys', hkeys, List.map_append, List.append_assoc]
  · exact (List.mem_append.1 hop).elim (hmem op) (hmem' op)

theorem Grown.mem {hints : List String} {o : List Event} (h : Grown r hints wanted memo memo' o)
    {n : String} (hn : n ∈ memo) : n ∈ memo' := by
  obtain ⟨ops, hkeys, -⟩ := h
  rw [Table.mem_def, hkeys]
  exact List.mem_append_left _ hn

/-- Some names have been resolved, below a path. -/
structure Resolved (r : Registry V E) (args : Table V) (wanted path : List String) (memo : Table V)
    (names : List String) (vs : List V) (memo' : Table V) (openings : List Event) : Prop where
  values : List.Forall₂ (fun n v => Evaluates r args.keys args n (.ok v)) names vs
  right : Right r args memo'
  mem : ∀ n ∈ names, n ∈ memo'
  grown : Grown r args.keys wanted memo memo' openings
  /-- The names on the path are still being computed. -/
  path_not_mem : ∀ n ∈ path, n ∉ memo → n ∉ memo'

theorem Resolved.value {v : V} {o : List Event}
    (h : Resolved r args wanted path memo [name] [v] memo' o) :
    Evaluates r args.keys args name (.ok v) :=
  (List.forall₂_cons.1 h.values).1

theorem Resolved.cons {memo'' : Table V} {v : V} {vs : List V} {o o' : List Event}
    (h : Resolved r args wanted path memo [name] [v] memo' o)
    (h' : Resolved r args wanted path memo' names vs memo'' o') :
    Resolved r args wanted path memo (name :: names) (v :: vs) memo'' (o ++ o') where
  values := .cons h.value h'.values
  right := h'.right
  mem := List.forall_mem_cons.2 ⟨h'.grown.mem (h.mem name List.mem_cons_self), h'.mem⟩
  grown := h.grown.trans h'.grown
  path_not_mem n hn hm := h'.path_not_mem n hn (h.path_not_mem n hn hm)

/-- A name has been computed after its inputs. -/
theorem Resolved.computed {op : Operation V E} {vs : List V} {o : List Event}
    (h : Resolved r args wanted (path ++ [name]) memo op.inputs vs memo' o)
    (hp : producer r args.keys name = some op) (hn : Needed r args.keys wanted name)
    (hm : name ∉ memo) (hpath : name ∉ path) {v : V} (hv : op.outcome vs = .ok v) :
    Resolved r args wanted path memo [name] [v] (memo'.insert name v)
      (o ++ [op.openingEvent]) := by
  have hvalue : Evaluates r args.keys args name (.ok v) := .computed_ok hp h.values hv
  have hinputs : ∀ i, Reads r args.keys name i → i ∈ memo' := fun i hr =>
    h.mem i ((reads_iff hp).1 hr)
  have hnew : name ∉ memo' := h.path_not_mem name (by simp) hm
  have hcall : Grown r args.keys wanted memo' (memo'.insert name v) [op.openingEvent] := by
    refine ⟨[op], ?_, rfl, fun op' hop' => ?_⟩
    · rw [Table.keys_insert_of_not_mem hnew, List.map_singleton, output_of_producer hp]
    · obtain rfl := List.mem_singleton.1 hop'
      exact mem_operations_of_producer hn hp
  refine ⟨.cons hvalue .nil, h.right.insert hinputs hvalue, fun n hmem => ?_,
    h.grown.trans hcall, fun n hmem hnm hins => ?_⟩
  · exact Table.mem_insert.2 (.inl (List.mem_singleton.1 hmem))
  · rcases Table.mem_insert.1 hins with rfl | hins
    · exact hpath hmem
    · exact h.path_not_mem n (List.mem_append_left _ hmem) hnm hins

/-! ## The cases of resolving a name -/

theorem resolve_of_find? {v : V} (h : memo.find? name = some v) :
    resolve r path name memo = pure (v, memo) := by
  rw [resolve]
  split
  · next w hw => rw [h, Option.some.injEq] at hw; rw [hw]
  · next hw => rw [h] at hw; cases hw

theorem resolve_of_missing (hm : memo.find? name = none) (hr : r.lookup name = none) :
    resolve r path name memo = .failure (.missing name) := by
  rw [resolve]
  split
  · next w hw => rw [hm] at hw; cases hw
  · split
    · rfl
    · next op hop => rw [hr] at hop; cases hop

theorem resolve_of_lookup {op : Operation V E} (hm : memo.find? name = none)
    (hr : r.lookup name = some op) : resolve r path name memo =
      if name ∈ path then
        .failure (.reported (.cycleAmong (path.dropWhile fun n => decide (n ≠ name))))
      else if op.isAsync then .failure (.reported (.asynchronousOperation name))
      else do
        let (args, memo) ← resolveAll r (path ++ [name]) op.inputs memo
        let v ← (op.impl.call args).mapFailure .failed
        return (v, memo.insert name v) := by
  rw [resolve]
  split
  · next w hw => rw [hm] at hw; cases hw
  · split
    · next hop => rw [hr] at hop; cases hop
    · next op' hop =>
      rw [hr, Option.some.injEq] at hop
      subst hop
      rfl

/-! ## What is resolved is right -/

theorem resolveAll_ok
    (ih : ∀ name memo v memo', Right r args memo → Needed r args.keys wanted name →
      (resolve r path name memo).outcome = .ok (v, memo') →
      Resolved r args wanted path memo [name] [v] memo' (resolve r path name memo).openings)
    {vs : List V} (hm : Right r args memo) (hn : ∀ n ∈ names, Needed r args.keys wanted n)
    (h : (resolveAll r path names memo).outcome = .ok (vs, memo')) :
    Resolved r args wanted path memo names vs memo' (resolveAll r path names memo).openings := by
  induction names generalizing memo vs with
  | nil =>
    rw [resolveAll] at h ⊢
    obtain ⟨rfl, rfl⟩ := Prod.mk.inj (Except.ok.inj h)
    exact ⟨.nil, hm, fun _ h => absurd h List.not_mem_nil, .refl _, fun _ _ h => h⟩
  | cons name names ihn =>
    rw [resolveAll] at h ⊢
    obtain ⟨⟨v, memo₁⟩, hv, h⟩ := Run.outcome_bind_eq_ok_iff.1 h
    obtain ⟨⟨vs', memo₂⟩, hvs, h⟩ := Run.outcome_bind_eq_ok_iff.1 h
    obtain ⟨rfl, rfl⟩ := Prod.mk.inj (Except.ok.inj h)
    have hone := ih name memo v memo₁ hm (hn name List.mem_cons_self) hv
    have hrest := ihn hone.right (fun n hmem => hn n (List.mem_cons_of_mem _ hmem)) hvs
    rw [Run.openings_bind_of_ok hv]
    simp only
    rw [Run.openings_bind_of_ok hvs]
    exact (List.append_nil _).symm ▸ hone.cons hrest

/-- **What is resolved is right**, and it has been computed once at most. -/
theorem resolve_ok {v : V} (hm : Right r args memo) (hn : Needed r args.keys wanted name)
    (h : (resolve r path name memo).outcome = .ok (v, memo')) :
    Resolved r args wanted path memo [name] [v] memo' (resolve r path name memo).openings := by
  -- The path grows at each input, and it holds names of the registry without repetition.
  induction hk : Names.unseen r.names path using Nat.strongRecOn
    generalizing path name memo v memo' with
  | ind k ih =>
    subst hk
    cases hf : memo.find? name with
    | some w =>
      rw [resolve_of_find? hf] at h ⊢
      obtain ⟨rfl, rfl⟩ := Prod.mk.inj (Except.ok.inj h)
      exact ⟨.cons (hm.value name w hf) .nil, hm,
        fun n hmem => List.mem_singleton.1 hmem ▸ Table.mem_of_find? hf, .refl _,
        fun _ _ h => h⟩
    | none =>
      cases hr : r.lookup name with
      | none => rw [resolve_of_missing hf hr] at h; cases h
      | some op =>
        rw [resolve_of_lookup hf hr] at h ⊢
        split at h
        · cases h
        next hpath =>
        split at h
        · cases h
        next hasync =>
        have hasync : op.isAsync = false := by simpa using hasync
        have hp : producer r args.keys name = some op := (hm.producer_eq hf).trans hr
        have hlt := Names.unseen_snoc_lt (Registry.mem_names_of_lookup hr) hpath
        obtain ⟨⟨vs, memo₁⟩, hvs, h⟩ := Run.outcome_bind_eq_ok_iff.1 h
        obtain ⟨w, hw, h⟩ := Run.outcome_bind_eq_ok_iff.1 h
        obtain ⟨rfl, rfl⟩ := Prod.mk.inj (Except.ok.inj h)
        have hinputs := resolveAll_ok (fun _ _ _ _ hm hn h => ih _ hlt hm hn h rfl) hm
          (fun i hi => .input hn ⟨op, hp, hi⟩) hvs
        have hopen : ((op.impl.call vs).mapFailure Trouble.failed).openings =
            [op.openingEvent] := by
          rw [Run.openings_mapFailure, Operation.call_eq_run hasync, Operation.openings_activity]
        have hout : op.outcome vs = .ok w := by
          rw [← Run.outcome_mapFailure_eq_ok_iff.1 hw, Operation.call_eq_run hasync]
          rfl
        rw [if_neg hpath, if_neg (by simp [hasync]), Run.openings_bind_of_ok hvs]
        simp only
        rw [Run.openings_bind_of_ok hw, hopen]
        exact hinputs.computed hp hn (Table.find?_eq_none_iff.1 hf) hpath hout

/-! ## What has a value is resolved -/

theorem exists_resolveAll
    (ih : ∀ name memo v, Right r args memo → Needed r args.keys wanted name →
      Evaluates r args.keys args name (.ok v) →
      name ∈ names → ∃ memo', (resolve r path name memo).outcome = .ok (v, memo'))
    {vs : List V} (hm : Right r args memo) (hn : ∀ n ∈ names, Needed r args.keys wanted n)
    (h : List.Forall₂ (fun n v => Evaluates r args.keys args n (.ok v)) names vs) :
    ∃ memo', (resolveAll r path names memo).outcome = .ok (vs, memo') := by
  induction h generalizing memo with
  | nil => exact ⟨memo, by rw [resolveAll]; rfl⟩
  | @cons name v names vs hv _ ihn =>
    obtain ⟨memo₁, h₁⟩ := ih name memo v hm (hn name List.mem_cons_self) hv List.mem_cons_self
    have hright := (resolve_ok hm (hn name List.mem_cons_self) h₁).right
    obtain ⟨memo₂, h₂⟩ := ihn
      (fun name memo v hm hn hv hmem => ih name memo v hm hn hv (List.mem_cons_of_mem _ hmem))
      hright fun n hmem => hn n (List.mem_cons_of_mem _ hmem)
    refine ⟨memo₂, ?_⟩
    rw [resolveAll, Run.outcome_bind_eq_ok_iff]
    exact ⟨(v, memo₁), h₁, Run.outcome_bind_eq_ok_iff.2 ⟨(vs, memo₂), h₂, rfl⟩⟩

/-- **What has a value is resolved**, if no operation of the query is asynchronous and every name
on the path needs this one. -/
theorem exists_resolve {v : V}
    (hsync : ∀ op ∈ (find r wanted args.keys).operations, op.isAsync = false)
    (hm : Right r args memo) (hn : Needed r args.keys wanted name)
    (hpath : ∀ m ∈ path, Relation.TransGen (Reads r args.keys) m name)
    (hv : Evaluates r args.keys args name (.ok v)) :
    ∃ memo', (resolve r path name memo).outcome = .ok (v, memo') := by
  -- The recursion ends because a name with a value is computed in finitely many steps.
  have hg := hv.grounded
  induction hg generalizing path memo v with
  | intro name _ ih =>
    cases hf : memo.find? name with
    | some w =>
      have hw := Except.ok.inj ((hm.value name w hf).unique hv)
      exact ⟨memo, by rw [resolve_of_find? hf, hw]; rfl⟩
    | none =>
      have hproducer := hm.producer_eq hf
      cases hr : r.lookup name with
      | none =>
        have hx := hv.of_producer_none (hproducer.trans hr)
        rw [Table.find?_eq_none_iff.2 fun ha => Table.find?_eq_none_iff.1 hf (hm.given name ha)]
          at hx
        cases hx
      | some op =>
        have hp := hproducer.trans hr
        have hop := mem_operations_of_producer hn hp
        have hnot : name ∉ path := fun hmem => hv.grounded.irrefl (hpath name hmem)
        have hreads : ∀ i ∈ op.inputs, Reads r args.keys name i := fun i hi => ⟨op, hp, hi⟩
        obtain ⟨vs, hvs, hout⟩ := hv.exists_inputs hp
        have hbelow : ∀ i ∈ op.inputs, ∀ m ∈ path ++ [name],
            Relation.TransGen (Reads r args.keys) m i := by
          intro i hi m hmem
          rcases List.mem_append.1 hmem with hmem | hmem
          · exact (hpath m hmem).tail (hreads i hi)
          · exact List.mem_singleton.1 hmem ▸ .single (hreads i hi)
        obtain ⟨memo₁, h₁⟩ : ∃ memo₁,
            (resolveAll r (path ++ [name]) op.inputs memo).outcome = .ok (vs, memo₁) :=
          exists_resolveAll
            (fun i memo v hm hn hv hi => ih i (hreads i hi) hm hn (hbelow i hi) hv)
            hm (fun i hi => .input hn (hreads i hi)) hvs
        refine ⟨memo₁.insert name v, ?_⟩
        rw [resolve_of_lookup hf hr, if_neg hnot, if_neg (by simp [hsync op hop]),
          Run.outcome_bind_eq_ok_iff]
        refine ⟨(vs, memo₁), h₁, Run.outcome_bind_eq_ok_iff.2 ⟨v, ?_, rfl⟩⟩
        rw [Run.outcome_mapFailure_eq_ok_iff, Operation.call_eq_run (hsync op hop), ← hout]
        rfl

/-! ## The wanted names -/

theorem evaluateFrom_ok {done : List String} {result t : Table V} (hm : Right r args memo)
    (hn : ∀ n ∈ names, Needed r args.keys wanted n) (hres : Answers r args.keys done args result)
    (h : (evaluateFrom r memo result names).outcome = .ok t) :
    Answers r args.keys (done ++ names) args t ∧
      ∃ memo', Right r args memo' ∧ (∀ n ∈ names, n ∈ memo') ∧
        Grown r args.keys wanted memo memo' (evaluateFrom r memo result names).openings := by
  induction names generalizing memo result done with
  | nil =>
    obtain rfl := Except.ok.inj h
    exact ⟨(List.append_nil done).symm ▸ hres, memo, hm, fun _ h => (nomatch h), .refl _⟩
  | cons name names ih =>
    rw [evaluateFrom] at h ⊢
    obtain ⟨⟨v, memo₁⟩, hv, h⟩ := Run.outcome_bind_eq_ok_iff.1 h
    have hv' := Run.outcome_mapFailure_eq_ok_iff.1 hv
    have hone := resolve_ok hm (hn name List.mem_cons_self) hv'
    obtain ⟨hanswers, memo₂, hright, hmem, hgrown⟩ := ih hone.right
      (fun n hmem => hn n (List.mem_cons_of_mem _ hmem)) (hres.insert hone.value) h
    rw [Run.openings_bind_of_ok hv, Run.openings_mapFailure]
    rw [List.append_assoc] at hanswers
    exact ⟨hanswers, memo₂, hright,
      List.forall_mem_cons.2 ⟨hgrown.mem (hone.mem name List.mem_cons_self), hmem⟩,
      hone.grown.trans hgrown⟩

theorem exists_evaluateFrom {result : Table V}
    (hsync : ∀ op ∈ (find r wanted args.keys).operations, op.isAsync = false)
    (hm : Right r args memo) (hn : ∀ n ∈ names, Needed r args.keys wanted n)
    (hv : ∀ n ∈ names, ∃ v, Evaluates r args.keys args n (.ok v)) :
    ∃ t, (evaluateFrom r memo result names).outcome = .ok t := by
  induction names generalizing memo result with
  | nil => exact ⟨result, rfl⟩
  | cons name names ih =>
    obtain ⟨v, hv'⟩ := hv name List.mem_cons_self
    obtain ⟨memo₁, h₁⟩ : ∃ memo₁, (resolve r [] name memo).outcome = .ok (v, memo₁) :=
      exists_resolve hsync hm (hn name List.mem_cons_self) (fun _ h => (nomatch h)) hv'
    obtain ⟨t, ht⟩ : ∃ t, (evaluateFrom r memo₁ (result.insert name v) names).outcome = .ok t :=
      ih (resolve_ok hm (hn name List.mem_cons_self) h₁).right
        (fun n hmem => hn n (List.mem_cons_of_mem _ hmem))
        fun n hmem => hv n (List.mem_cons_of_mem _ hmem)
    refine ⟨t, ?_⟩
    rw [evaluateFrom, Run.outcome_bind_eq_ok_iff]
    exact ⟨(v, memo₁), Run.outcome_mapFailure_eq_ok_iff.2 h₁, ht⟩

/-- **What evaluation gives.** If no operation of the query is asynchronous, it gives the answer to
the query, if all wanted names have values, and nothing else. -/
theorem outcome_evaluate_eq_ok_iff {t : Table V}
    (hsync : ∀ op ∈ (find r wanted args.keys).operations, op.isAsync = false) :
    (evaluate r wanted args).outcome = .ok t ↔ Answers r args.keys wanted args t := by
  have hneeded : ∀ n ∈ wanted, Needed r args.keys wanted n := fun _ => .wanted
  constructor
  · intro h
    exact (evaluateFrom_ok right_args hneeded .empty h).1
  · intro h
    obtain ⟨t', ht'⟩ : ∃ t', (evaluate r wanted args).outcome = .ok t' :=
      exists_evaluateFrom hsync right_args hneeded h.wanted_ok
    obtain rfl := h.unique (evaluateFrom_ok right_args hneeded .empty ht').1
    exact ht'

/-- An evaluation that gives an answer has called each operation of the query once. -/
theorem openings_evaluate {t : Table V} (h : (evaluate r wanted args).outcome = .ok t) :
    (evaluate r wanted args).openings.Perm
      ((find r wanted args.keys).operations.map Operation.openingEvent) := by
  obtain ⟨-, memo', hright, hmem, ops, hkeys, hopen, hops⟩ :=
    evaluateFrom_ok right_args (fun _ => .wanted) .empty h
  -- What has been resolved has had its inputs resolved, from the wanted names down.
  have hall : ∀ n, Needed r args.keys wanted n → n ∈ memo' := by
    intro n hn
    induction hn with
    | wanted hw => exact hmem _ hw
    | input _ hr ih => exact hright.closed _ ih _ hr
  have hnodup : (ops.map Operation.output).Nodup := by
    have := memo'.nodup_keys
    rw [hkeys] at this
    exact (List.nodup_append.1 this).2.1
  have hperm : ops.Perm (find r wanted args.keys).operations := by
    refine perm_operations hnodup hops fun op hop => ?_
    obtain ⟨hn, hp⟩ := mem_operations_iff.1 hop
    have hout := hall _ hn
    rw [Table.mem_def, hkeys] at hout
    refine (List.mem_append.1 hout).resolve_left fun hgiven => ?_
    rw [producer_of_mem_hints hgiven] at hp
    cases hp
  show (evaluateFrom r args .empty wanted).openings.Perm _
  rw [hopen]
  exact hperm.map _

end DemandPlan.Evaluation
