import DemandPlan.Proofs.Coherence

/-!
# Kept plans

A plan that is found under the keys of a query may have been compiled for another one: for other
hints and another order of the wanted names. Both queries have the same needs, so the plan serves
them both.

* `PlanRight.shared`: a kept plan is shared with every query that has its keys.
* `planFor_spec`: what a planner gives to a query, kept or not.
-/

namespace DemandPlan

open Requirements

variable {V E : Type}

/-! ## The two ways through the cache -/

section PlanCache

variable {P : Type} {m : Type → Type} [Monad m] {c : PlanCache P} {paramsOf : P → List String}
  {wanted : List String} {params : m (List String)} {build : m P}

theorem PlanCache.getOrCompile_of_none
    (h : c.buckets.find? (Names.canonicalKey wanted) = none) :
    c.getOrCompile paramsOf wanted params build = do
      let p ← build
      let bucket := Table.empty.insert (Names.canonicalKey (paramsOf p)) p
      return (p, { buckets := c.buckets.insert (Names.canonicalKey wanted) bucket }) := by
  unfold getOrCompile
  simp only [h]

theorem PlanCache.getOrCompile_of_some {bucket : Table P}
    (h : c.buckets.find? (Names.canonicalKey wanted) = some bucket) :
    c.getOrCompile paramsOf wanted params build = do
      let paramsKey := Names.canonicalKey (← params)
      match bucket.find? paramsKey with
      | some p => return (p, c)
      | none => do
        let p ← build
        let bucket := bucket.insert paramsKey p
        return (p, { buckets := c.buckets.insert (Names.canonicalKey wanted) bucket }) := by
  unfold getOrCompile
  dsimp only
  split
  · next h' =>
    rw [h] at h'
    cases h'
  · next bucket' h' =>
    obtain rfl := Option.some.inj (h.symm.trans h')
    rfl

end PlanCache

namespace Planner

variable {ok : String → Prop} {since : Nat} {p : Planner V E}

/-! ## Plans under their keys -/

theorem PlansRight.insert {r : Registry V E} {c : PlanCache (Stamped (Plan V E))}
    (h : PlansRight ok since r c) {outputsKey paramsKey : String} {plan : Stamped (Plan V E)}
    {bucket : Table (Stamped (Plan V E))}
    (hb : ∀ key q, bucket.find? key = some q → PlanRight ok since r outputsKey key q)
    (hp : PlanRight ok since r outputsKey paramsKey plan) :
    PlansRight ok since r
      { buckets := c.buckets.insert outputsKey (bucket.insert paramsKey plan) } := by
  intro outputsKey' bucket' hb' paramsKey' plan' hp'
  rw [Table.find?_insert] at hb'
  split at hb'
  · next hkey =>
    subst hkey
    obtain rfl := Option.some.inj hb'
    rw [Table.find?_insert] at hp'
    split at hp'
    · next hkey =>
      subst hkey
      obtain rfl := Option.some.inj hp'
      exact hp
    · exact hb _ _ hp'
  · exact h _ _ hb' _ _ hp'

/-- The names that a query needs are names that somebody has written. -/
theorem needed_ok {r : Registry V E} (hr : r.InputsSatisfy ok) {wanted hints : List String}
    (hw : ∀ n ∈ wanted, ok n) {n : String} (hn : Needed r hints wanted n) : ok n := by
  cases hn with
  | wanted h => exact hw _ h
  | input _ hreads =>
    obtain ⟨op, hop, hi⟩ := hreads
    exact hr op (Registry.mem_of_lookup (lookup_of_producer hop)) _ hi

/-- A kept plan that is found under the keys of a query is shared with this query. -/
theorem PlanRight.shared {r : Registry V E} (hr : r.InputsSatisfy ok)
    (hok : ∀ n, ok n → Names.IsPlain n) {wanted hints : List String} (hn : wanted.Nodup)
    (hw : ∀ n ∈ wanted, ok n) {plan : Stamped (Plan V E)}
    (h : PlanRight ok since r (Names.canonicalKey wanted)
      (Names.canonicalKey (find r wanted hints).params) plan) :
    ∃ q, Plan.ofQuery r wanted hints = .ok q ∧
      ∃ wanted' hints', Plan.Shared r wanted' hints' wanted hints plan.value q := by
  obtain ⟨-, wanted', hints', hn', hw', houtputs, hparams, hplan⟩ := h
  have hset : ∀ n, n ∈ wanted' ↔ n ∈ wanted :=
    (Names.canonicalKey_eq_iff (fun n h => hok n (hw' n h)) fun n h => hok n (hw n h)).1
      houtputs.symm
  rw [Plan.params_of_ofQuery hplan] at hparams
  have hneeds : SameNeeds r hints' wanted' hints wanted := by
    refine sameNeeds_of_params hset ((Names.canonicalKey_eq_iff ?_ ?_).1 hparams.symm)
    · exact fun n h => hok n (needed_ok hr hw' (mem_params_iff.1 h).1)
    · exact fun n h => hok n (needed_ok hr hw (mem_params_iff.1 h).1)
  have hperm : wanted'.Perm wanted := (List.perm_ext_iff_of_nodup hn' hn).2 hset
  obtain ⟨e, he, -⟩ | ⟨plan', q, hplan', hq, hshared⟩ :=
    (Plan.ofQuery_agree hneeds hn' hperm).cases
  · cases hplan.symm.trans he
  · obtain rfl := Except.ok.inj (hplan.symm.trans hplan')
    exact ⟨q, hq, wanted', hints', hshared⟩

/-! ## Asking for a plan -/

/-- An answer to a request for a plan: a plan that is shared with the query, or the reason why the
query has none. -/
def Serves (r : Registry V E) (wanted hints : List String)
    (x : Except (Failure E) (Stamped (Plan V E))) : Prop :=
  Outcome.Agree
    (fun plan q => ∃ wanted' hints', Plan.Shared r wanted' hints' wanted hints plan.value q)
    x ((Plan.ofQuery r wanted hints).mapError .reported)

theorem serves_of_map_eq {r : Registry V E} {wanted hints : List String} (hn : wanted.Nodup)
    {x : Except (Failure E) (Stamped (Plan V E))}
    (h : x.map Stamped.value = (Plan.ofQuery r wanted hints).mapError .reported) :
    Serves r wanted hints x := by
  unfold Serves
  rw [← h]
  obtain ⟨e, rfl, -⟩ | ⟨plan, rfl, hq⟩ := Outcome.cases_of_map_eq_mapError h
  · rfl
  · exact ⟨wanted, hints, ⟨fun _ => Iff.rfl, fun _ _ => rfl⟩, hn, List.Perm.refl _, hq, hq⟩

section Kept

variable {wanted hints : List String}

/-- A plan, kept or new, that has the keys of a query. -/
def KeysRight (ok : String → Prop) (since : Nat) (r : Registry V E) (wanted hints : List String)
    (plan : Stamped (Plan V E)) : Prop :=
  PlanRight ok since r (Names.canonicalKey wanted)
    (Names.canonicalKey (find r wanted hints).params) plan

/-- A plan that has just been built is right for its keys. -/
theorem planRight_of_build {r : Registry V E} {x : Except (Failure E) (Stamped (Plan V E))}
    (hx : x.map Stamped.value = (Plan.ofQuery r wanted hints).mapError .reported)
    (hs : ∀ plan, x = .ok plan → since ≤ plan.stamp) (hn : wanted.Nodup) (hw : ∀ n ∈ wanted, ok n)
    {plan : Stamped (Plan V E)} (hplan : x = .ok plan) :
    KeysRight ok since r wanted hints plan ∧
      plan.value.record.params = (find r wanted hints).params := by
  have hq : Plan.ofQuery r wanted hints = .ok plan.value := by
    obtain ⟨e, he, -⟩ | ⟨plan', he, hq⟩ := Outcome.cases_of_map_eq_mapError hx
    · cases hplan.symm.trans he
    · exact Except.ok.inj (hplan.symm.trans he) ▸ hq
  have hparams := Plan.params_of_ofQuery hq
  exact ⟨⟨hs plan hplan, wanted, hints, hn, hw, rfl, by rw [hparams], hq⟩, hparams⟩

/-- A plan is built and put into a bucket of the cache, under the key of its parameters. -/
theorem keep_spec (h : Coherent ok since p) (hu : p.UpToDate) (hints : List String)
    (hn : wanted.Nodup) (hw : ∀ n ∈ wanted, ok n) {c : PlanCache (Stamped (Plan V E))}
    (hc : PlansRight ok since p.registry c) (bucket : Table (Stamped (Plan V E)))
    (hb : ∀ key plan, bucket.find? key = some plan →
      PlanRight ok since p.registry (Names.canonicalKey wanted) key plan)
    (key : Stamped (Plan V E) → String)
    (hkey : ∀ plan, plan.value.record.params = (find p.registry wanted hints).params →
      key plan = Names.canonicalKey plan.value.record.params) :
    ∃ x p', (do
        let plan ← build wanted hints
        return (plan,
          { buckets :=
              c.buckets.insert (Names.canonicalKey wanted) (bucket.insert (key plan) plan) }) :
        PlannerM V E (Stamped (Plan V E) × PlanCache (Stamped (Plan V E)))).run.run p = (x, p') ∧
      Serves p.registry wanted hints (x.map Prod.fst) ∧
      (∀ plan c', x = .ok (plan, c') → KeysRight ok since p.registry wanted hints plan ∧
        PlansRight ok since p.registry c') ∧
      Coherent ok since p' ∧ SameRegistry p p' := by
  obtain ⟨x, p', hrun, hx, hs, hcoh, hsame, -⟩ := build_spec h hu wanted hints
  cases x with
  | error f =>
    exact ⟨.error f, p', run_bind_of_error hrun, serves_of_map_eq hn hx, fun _ _ h => (nomatch h),
      hcoh, hsame⟩
  | ok plan =>
    refine ⟨.ok (plan, _), p', run_bind_of_ok hrun, serves_of_map_eq hn hx, fun plan' c' he => ?_,
      hcoh, hsame⟩
    obtain ⟨rfl, rfl⟩ := Prod.mk.inj (Except.ok.inj he)
    obtain ⟨hright, hparams⟩ :=
      planRight_of_build hx (fun plan hplan => Nat.le_trans h.since_le (hs plan hplan).1) hn hw rfl
    exact ⟨hright, hc.insert hb (hkey plan hparams ▸ hparams ▸ hright)⟩

/-- **The plan cache** serves the query, and what it keeps afterwards is right. -/
theorem getOrCompile_spec (h : Coherent ok since p) (hu : p.UpToDate) (hints : List String)
    (hn : wanted.Nodup) (hw : ∀ n ∈ wanted, ok n) :
    ∃ x p', (p.plans.getOrCompile (fun plan => plan.value.record.params) wanted
        (do return (← lookUp wanted hints).value.params) (build wanted hints)).run.run p = (x, p') ∧
      ((∀ n, ok n → Names.IsPlain n) → Serves p.registry wanted hints (x.map Prod.fst)) ∧
      (∀ plan c, x = .ok (plan, c) → KeysRight ok since p.registry wanted hints plan ∧
        PlansRight ok since p.registry c) ∧
      Coherent ok since p' ∧ SameRegistry p p' := by
  have hright := h.plans hu
  cases hb : p.plans.buckets.find? (Names.canonicalKey wanted) with
  | none =>
    -- No bucket for the wanted names: the parameters are read off the compiled plan.
    rw [PlanCache.getOrCompile_of_none hb]
    obtain ⟨x, p', hrun, hserves, hkept, hcoh, hsame⟩ :=
      keep_spec h hu hints hn hw hright .empty (fun _ _ h => (nomatch h))
        (fun plan => Names.canonicalKey plan.value.record.params) fun _ _ => rfl
    exact ⟨x, p', hrun, fun _ => hserves, hkept, hcoh, hsame⟩
  | some bucket =>
    -- A bucket: the parameters are looked up first, which may fill the memo.
    obtain ⟨q, p', hrun, hq, -, hcoh, hsame, hplans⟩ := lookUp_spec h hu wanted hints
    have hparams : (do return (← lookUp wanted hints).value.params : PlannerM V E _).run.run p =
        (.ok (find p.registry wanted hints).params, p') := by
      rw [run_bind_of_ok hrun, hq]
      rfl
    rw [PlanCache.getOrCompile_of_some hb, run_bind_of_ok hparams]
    cases hp : bucket.find? (Names.canonicalKey (find p.registry wanted hints).params) with
    | some plan =>
      simp only [hp]
      refine ⟨.ok (plan, p.plans), p', rfl, fun hok => ?_, fun plan' c he => ?_, hcoh, hsame⟩
      · obtain ⟨q, hq, hshared⟩ := (hright _ _ hb _ _ hp).shared h.inputs hok hn hw
        unfold Serves
        rw [hq]
        exact hshared
      · obtain ⟨rfl, rfl⟩ := Prod.mk.inj (Except.ok.inj he)
        exact ⟨hright _ _ hb _ _ hp, hright⟩
    | none =>
      simp only [hp]
      obtain ⟨x, p'', hrun', hserves, hkept, hcoh', hsame'⟩ :=
        keep_spec hcoh (hsame.upToDate hu) hints hn hw (hsame.registry ▸ hright) bucket
          (hsame.registry ▸ hright _ _ hb)
          (fun _ => Names.canonicalKey (find p.registry wanted hints).params)
          fun _ hplan => by rw [hplan, hsame.registry]
      rw [hsame.registry] at hserves hkept
      exact ⟨x, p'', hrun', fun _ => hserves, hkept, hcoh', hsame.trans hsame'⟩

/-- **Asking for a plan** gives one that is shared with the query. -/
theorem planFor_spec (h : Coherent ok since p) (hints : List String) (hw : ∀ n ∈ wanted, ok n) :
    ∃ x p', (planFor wanted hints).run.run p = (x, p') ∧
      ((∀ n, ok n → Names.IsPlain n) → Serves p.registry (Names.distinct wanted) hints x) ∧
      (∀ plan, x = .ok plan → KeysRight ok since p.registry (Names.distinct wanted) hints plan) ∧
      Coherent ok since p' ∧ SameRegistry p p' := by
  have hn := Names.distinct_nodup wanted
  have hw' : ∀ n ∈ Names.distinct wanted, ok n := fun n hn => hw n (Names.mem_distinct.1 hn)
  have hrefresh := sameRegistry_refreshed p
  unfold planFor
  rw [run_bind_of_ok (run_modify _), run_bind_of_ok run_get]
  -- With and without a plan cache.
  split
  · obtain ⟨x, p', hrun, hserves, hright, hcoh, hsame⟩ :=
      getOrCompile_spec h.refreshed (upToDate_refreshed p) hints hn hw'
    rw [hrefresh.registry] at hserves hright
    have hsame := hrefresh.trans hsame
    cases x with
    | error f =>
      exact ⟨_, _, run_bind_of_error hrun, hserves, fun _ h => (nomatch h), hcoh, hsame⟩
    | ok e =>
      refine ⟨.ok e.1, { p' with plans := e.2 }, ?_, hserves, fun plan he => ?_, ?_, ?_⟩
      · rw [run_bind_of_ok hrun, run_bind_of_ok (run_modify _)]
        rfl
      · exact Except.ok.inj he ▸ (hright e.1 e.2 rfl).1
      · exact ⟨hcoh.inputs, hcoh.since_le, hcoh.version_le, hcoh.capacity, hcoh.memo,
          fun _ => hsame.registry ▸ (hright e.1 e.2 rfl).2⟩
      · exact hsame.trans ⟨rfl, rfl, Nat.le_refl _, id⟩
  · obtain ⟨x, p', hrun, hx, hs, hcoh, hsame, -⟩ :=
      build_spec h.refreshed (upToDate_refreshed p) (Names.distinct wanted) hints
    rw [hrefresh.registry] at hx
    exact ⟨x, p', hrun, fun _ => serves_of_map_eq hn hx,
      fun plan hplan => (planRight_of_build hx
        (fun plan hplan => Nat.le_trans h.refreshed.since_le (hs plan hplan).1) hn hw' hplan).1,
      hcoh, hrefresh.trans hsame⟩

end Kept

/-- The first request for a plan gives the plan of the query. -/
theorem planFor_fresh (r : Registry V E) (config : Config) (wanted hints : List String) :
    ∃ x p', (planFor wanted hints).run.run { registry := r, config } = (x, p') ∧
      x.map Stamped.value = (Plan.ofQuery r (Names.distinct wanted) hints).mapError .reported ∧
      p'.registry = r := by
  have hcoh : Coherent (fun _ => True) 0 { registry := r, config } :=
    coherent_of_fresh (fun _ _ _ _ => trivial) config
  have hrefreshed :
      ({ registry := r, config } : Planner V E).refreshed = { registry := r, config } :=
    if_pos rfl
  obtain ⟨x, p', hrun, hx, -, -, hsame, -⟩ := build_spec hcoh rfl (Names.distinct wanted) hints
  unfold planFor
  rw [run_bind_of_ok (run_modify _), run_bind_of_ok run_get, hrefreshed]
  split
  · rw [PlanCache.getOrCompile_of_none rfl]
    cases x with
    | error f =>
      exact ⟨.error f, p', run_bind_of_error (run_bind_of_error hrun), hx, hsame.registry⟩
    | ok plan =>
      let bucket := Table.empty.insert (Names.canonicalKey plan.value.record.params) plan
      let plans : PlanCache (Stamped (Plan V E)) :=
        { buckets := Table.empty.insert (Names.canonicalKey (Names.distinct wanted)) bucket }
      refine ⟨.ok plan, { p' with plans }, ?_, hx, hsame.registry⟩
      rw [bind_assoc, run_bind_of_ok hrun]
      rfl
  · exact ⟨x, p', hrun, hx, hsame.registry⟩

end Planner

end DemandPlan
