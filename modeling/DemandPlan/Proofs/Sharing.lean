import DemandPlan.Proofs.Query

/-!
# Shared plans

A plan is kept for queries that want the same names and need the same parameters, in whatever order
the names were asked for and whatever the hints were. Such queries have plans that differ in the
order of their outputs only.

* `Plan.Alike`: plans that differ in the order of their outputs only.
* `Plan.ofQuery_agree`: queries with the same needs have plans like that, or the same error.
* `Plan.Shared.call_agree`: calls of such plans show the same events and give the same values.
-/

namespace DemandPlan

open Requirements Record

variable {V E : Type} {r : Registry V E} {hints wanted hints' wanted' : List String}
  {args : Table V}

/-! ## The same meaning -/

theorem Evaluates.of_sameNeeds (h : SameNeeds r hints wanted hints' wanted') {name : String}
    {x : Except (Trouble E) V} (hx : Evaluates r hints args name x)
    (hn : Needed r hints wanted name) : Evaluates r hints' args name x := by
  induction hx with
  | given hp ha => exact .given (h.2 _ hn ▸ hp) ha
  | missing hp ha => exact .missing (h.2 _ hn ▸ hp) ha
  | @computed name op value hop _ ih =>
    exact .computed value (h.2 _ hn ▸ hop) fun i hi => ih i hi (.input hn ⟨op, hop, hi⟩)

theorem Solves.of_sameNeeds (h : SameNeeds r hints wanted hints' wanted')
    {value : String → Except (Trouble E) V} (hv : Solves r hints wanted args value) :
    Solves r hints' wanted' args value := fun n hn =>
  have hn := (h.1 n).2 hn
  (hv n hn).of_sameNeeds h hn

/-- Invocations that show the same events and give the same values, in whatever order. -/
structure Invocation.Agree (i j : Invocation V E) : Prop where
  awaited : i.awaited = j.awaited
  trace : i.run.trace = j.run.trace
  outcome : Outcome.Agree (fun s t => s.entries.Perm t.entries) i.run.outcome j.run.outcome

theorem Invocation.Agree.refl (i : Invocation V E) : Invocation.Agree i i :=
  ⟨rfl, rfl, Outcome.Agree.refl (fun t => List.Perm.refl t.entries) _⟩

namespace Plan

/-! ## Plans that differ in the order of their outputs -/

/-- Plans that differ in the order of their outputs only. -/
structure Alike (p q : Plan V E) : Prop where
  formulas : p.formulas = q.formulas
  consulted : p.consulted = q.consulted
  version : p.record.version = q.record.version
  names : p.record.formulas = q.record.formulas
  params : p.record.params = q.record.params
  isAsync : p.record.isAsync = q.record.isAsync
  returns : p.record.returns.Perm q.record.returns
  body : ∃ steps results results', p.record.body = steps ++ [.result results] ∧
    q.record.body = steps ++ [.result results'] ∧ results.entries.Perm results'.entries

theorem Alike.check_eq {p q : Plan V E} (h : Alike p q) (registered : List (Operation V E))
    (args : Table V) : p.check registered args = q.check registered args := by
  unfold check missing
  rw [h.params, h.consulted]

theorem entries_resultIn {names returns : List String} (h : returns.Nodup) :
    (resultIn names returns).entries = returns.map fun n => (n, slotIn names n) :=
  Table.entries_ofList (by simpa [Function.comp_def] using h)

theorem alike_laidOut (s : Schedule V E) (params : List String) (hn : wanted.Nodup)
    (hp : wanted.Perm wanted') : Alike (laidOut s params wanted) (laidOut s params wanted') where
  formulas := rfl
  consulted := rfl
  version := rfl
  names := rfl
  params := rfl
  isAsync := rfl
  returns := by
    have hn' := hp.nodup hn
    show (Names.distinct wanted).Perm (Names.distinct wanted')
    rwa [Names.distinct_eq_self hn, Names.distinct_eq_self hn']
  body := by
    refine ⟨.bind (numbered 0 params) :: s.waves.flatMap (stepsIn (layoutNames s params)), _, _,
      rfl, rfl, ?_⟩
    rw [entries_resultIn hn, entries_resultIn (hp.nodup hn)]
    exact hp.map _

/-- Plans of queries with the same needs, for the same outputs in whatever order. -/
structure Shared (r : Registry V E) (wanted hints wanted' hints' : List String) (p q : Plan V E) :
    Prop where
  needs : SameNeeds r hints wanted hints' wanted'
  nodup : wanted.Nodup
  perm : wanted.Perm wanted'
  left : ofQuery r wanted hints = .ok p
  right : ofQuery r wanted' hints' = .ok q

/-- **Shared plans.** Queries with the same needs both have plans, or they are both refused for the
same reason. -/
theorem ofQuery_agree (h : SameNeeds r hints wanted hints' wanted') (hn : wanted.Nodup)
    (hp : wanted.Perm wanted') :
    Outcome.Agree (Shared r wanted hints wanted' hints')
      (ofQuery r wanted hints) (ofQuery r wanted' hints') := by
  have hs := Schedule.ofQuery_congr h
  cases hs' : Schedule.ofQuery r wanted' hints' with
  | error e =>
    rw [hs'] at hs
    rw [ofQuery, ofQuery, hs, hs']
    rfl
  | ok s =>
    rw [hs'] at hs
    have hl := ofQuery_eq_ok_iff.2 ⟨s, hs, rfl⟩
    have hr := ofQuery_eq_ok_iff.2 ⟨s, hs', rfl⟩
    rw [hl, hr]
    exact ⟨h, hn, hp, hl, hr⟩

/-- They differ in the order of their outputs only. -/
theorem Shared.alike {p q : Plan V E} (h : Shared r wanted hints wanted' hints' p q) :
    Alike p q := by
  obtain ⟨s, hs, rfl⟩ := ofQuery_eq_ok_iff.1 h.left
  obtain ⟨s', hs', rfl⟩ := ofQuery_eq_ok_iff.1 h.right
  rw [Schedule.ofQuery_congr h.needs, hs', Except.ok.injEq] at hs
  subst hs
  rw [h.needs.params_eq]
  exact alike_laidOut s' _ h.nodup h.perm

/-! ## Calls -/

/-- Calls of them show the same events and give the same values. -/
theorem Shared.call_agree {p q : Plan V E} (h : Shared r wanted hints wanted' hints' p q)
    (registered : List (Operation V E)) (args : Table V) :
    Invocation.Agree (p.call registered args) (q.call registered args) := by
  have halike := h.alike
  obtain ⟨hneeds, hn, hp, hplan, hplan'⟩ := h
  cases hcheck : q.check registered args with
  | error e =>
    rw [call, call, halike.check_eq, hcheck]
    exact .refl _
  | ok _ =>
    have ha' := (check_eq_ok_iff registered).1 hcheck
    have ha : ∀ n ∈ p.record.params, n ∈ args := halike.params ▸ ha'
    obtain ⟨value, hv⟩ := exists_solution args (ofQuery_isOk_iff.1 ⟨p, hplan⟩)
    obtain ⟨s, hs, hcall⟩ := call_ofQuery hplan hn ha hv registered
    obtain ⟨s', hs', hcall'⟩ :=
      call_ofQuery hplan' (hp.nodup hn) ha' (hv.of_sameNeeds hneeds) registered
    obtain rfl : s = s' := by
      rw [Schedule.ofQuery_congr hneeds, hs', Except.ok.injEq] at hs
      exact hs.symm
    -- Both run the same schedule on the same values, and differ in what they put into the table.
    rw [hcall, hcall']
    cases hrun : (s.runIn value).outcome with
    | error f =>
      simp only [Run.bind_of_error hrun]
      exact ⟨halike.isAsync, rfl, rfl⟩
    | ok _ =>
      simp only [Run.bind_of_ok hrun]
      refine ⟨halike.isAsync, rfl, ?_⟩
      show (valuesIn value wanted).entries.Perm (valuesIn value wanted').entries
      rw [entries_valuesIn hn, entries_valuesIn (hp.nodup hn)]
      exact hp.filterMap _

end Plan

end DemandPlan
