import DemandPlan.Proofs.Transparency

/-!
# The identity of plans

A planner that keeps plans gives the very same plan, which the stamp tells, to all queries that want
the same names and have the same parameters, as long as the registry does not change and nothing is
forgotten. So it builds at most one for all of them.

* `kept`: the plan that is kept under the keys of a query, for the registry as it is now.
* `Obtained`, `planFor_obtained`: a query finds the plan that is kept, or it builds one, which is
  kept from then on, or it fails, and then nothing more is kept.
* `KeptOnce`: plans that are kept under different keys have different stamps.
* `Keeps`, `Keeps.after`: what holds of a planner that keeps plans, after any requests.
* `Similar`, `Similar.after`: two planners that keep the same plans, but for the stamps of new ones,
  stay so whatever is requested of both.
* `plans_identified`: what queries obtain, and that failed ones do not count.
-/

namespace DemandPlan.Planner

open Requirements

variable {V E : Type} {p p' : Planner V E} {ok : String → Prop} {since : Nat}

/-! ## Kept plans -/

/-- The keys under which the plan of a query is kept: that of the wanted names and that of the
parameters. -/
def planKey (r : Registry V E) (wanted hints : List String) : String × String :=
  (Names.canonicalKey wanted, Names.canonicalKey (find r wanted hints).params)

/-- The plan under some keys. -/
def lookIn (c : PlanCache (Stamped (Plan V E))) (key : String × String) :
    Option (Stamped (Plan V E)) :=
  (c.buckets.find? key.1).bind fun bucket => bucket.find? key.2

/-- The plan that is kept under some keys, for the registry as it is now. -/
def kept (p : Planner V E) : String × String → Option (Stamped (Plan V E)) :=
  lookIn p.refreshed.plans

theorem refreshed_of_upToDate (h : p.UpToDate) : p.refreshed = p := if_pos h

theorem kept_of_upToDate (h : p.UpToDate) : p.kept = lookIn p.plans := by
  rw [kept, refreshed_of_upToDate h]

theorem kept_of_samePlans (h : SamePlans p p') : p'.kept = p.kept := by
  rw [kept_of_upToDate h.upToDate, h.plans]
  rfl

theorem kept_of_stale (h : ¬p.UpToDate) (key : String × String) : p.kept key = none := by
  have hrefreshed : p.refreshed = { p.forget with seenVersion := p.registry.version } := if_neg h
  rw [kept, hrefreshed]
  rfl

theorem kept_forget (p : Planner V E) (key : String × String) : p.forget.kept key = none := by
  unfold kept refreshed
  split <;> rfl

/-- A plan is put into the bucket of its outputs. -/
theorem lookIn_insert {c : PlanCache (Stamped (Plan V E))} {bucket : Table (Stamped (Plan V E))}
    {key : String × String} (plan : Stamped (Plan V E))
    (hb : ∀ k, bucket.find? k = lookIn c (key.1, k)) (key' : String × String) :
    lookIn { buckets := c.buckets.insert key.1 (bucket.insert key.2 plan) } key' =
      if key' = key then some plan else lookIn c key' := by
  obtain ⟨outputsKey, paramsKey⟩ := key
  obtain ⟨outputsKey', paramsKey'⟩ := key'
  simp only [lookIn, Table.find?_insert, Prod.mk.injEq]
  by_cases ho : outputsKey' = outputsKey
  · subst ho
    simp [hb, lookIn]
  · simp [ho]

/-! ## What a request for a plan comes to -/

/-- What a request for a plan comes to, with the planner after it. -/
inductive Obtained (p : Planner V E) (wanted hints : List String) :
    Except (Failure E) (Stamped (Plan V E)) → Planner V E → Prop
  /-- There is a plan, and nothing is done but to find out the parameters. -/
  | found {plan : Stamped (Plan V E)} : p.kept (planKey p.registry wanted hints) = some plan →
    Obtained p wanted hints (.ok plan) ((requirements wanted hints).run.run p).2
  /-- There is none, and a new one is kept from then on. -/
  | built {plan : Stamped (Plan V E)} {p' : Planner V E} :
    p.kept (planKey p.registry wanted hints) = none →
    Plan.ofQuery p.registry wanted hints = .ok plan.value →
    p.issued ≤ plan.stamp → plan.stamp < p'.issued →
    (∀ key, p'.kept key =
      if key = planKey p.registry wanted hints then some plan else p.kept key) →
    Obtained p wanted hints (.ok plan) p'
  /-- There is none, and none can be built. -/
  | failed {e : Error} {p' : Planner V E} : p.kept (planKey p.registry wanted hints) = none →
    Plan.ofQuery p.registry wanted hints = .error e → SamePlans p p' →
    Obtained p wanted hints (.error (.reported e)) p'

/-- There is no plan for a query yet: one is built and put into a bucket, under the key of its
parameters. -/
theorem obtained_of_keep {p₁ : Planner V E} (h : Coherent ok since p₁)
    (hr : p₁.registry = p.registry) (hissued : p.issued ≤ p₁.issued) (hsame : SamePlans p p₁)
    {wanted hints : List String} (hnone : p.kept (planKey p.registry wanted hints) = none)
    {bucket : Table (Stamped (Plan V E))}
    (hb : ∀ k, bucket.find? k = lookIn p₁.plans (Names.canonicalKey wanted, k))
    (key : Stamped (Plan V E) → String)
    (hkey : ∀ plan, plan.value.record.params = (find p.registry wanted hints).params →
      key plan = Names.canonicalKey (find p.registry wanted hints).params) :
    let run := (do
        let plan ← build wanted hints
        let plans : PlanCache (Stamped (Plan V E)) :=
          { buckets := p₁.plans.buckets.insert (Names.canonicalKey wanted)
              (bucket.insert (key plan) plan) }
        modify ({ · with plans })
        return plan : PlannerM V E (Stamped (Plan V E))).run.run p₁
    Obtained p wanted hints run.1 run.2 := by
  obtain ⟨x, p₂, hrun, hx, hs, -, hsame', hplans⟩ := build_spec h hsame.upToDate wanted hints
  have hu : p₂.UpToDate := hsame'.upToDate hsame.upToDate
  rw [hr] at hx
  obtain ⟨e, rfl, he⟩ | ⟨plan, rfl, hplan⟩ := Outcome.cases_of_map_eq_mapError hx
  · rw [run_bind_of_error hrun]
    exact .failed hnone he ⟨hu, hplans.trans hsame.plans⟩
  · obtain ⟨hle, hlt⟩ := hs plan rfl
    rw [run_bind_of_ok hrun, run_bind_of_ok (run_modify _),
      hkey plan (Plan.params_of_ofQuery hplan)]
    let plans : PlanCache (Stamped (Plan V E)) :=
      { buckets := p₁.plans.buckets.insert (planKey p.registry wanted hints).1
          (bucket.insert (planKey p.registry wanted hints).2 plan) }
    have hkept : kept { p₂ with plans } = lookIn plans := kept_of_upToDate hu
    refine .built hnone hplan (Nat.le_trans hissued hle) hlt fun key' => ?_
    rw [← kept_of_samePlans hsame, kept_of_upToDate hsame.upToDate]
    exact (congrFun hkept key').trans (lookIn_insert plan hb key')

/-- **Asking for a plan**, if plans are kept. -/
theorem planFor_obtained (h : Coherent ok since p) (hc : p.config.cachePlans = true)
    (wanted hints : List String) :
    Obtained p (Names.distinct wanted) hints ((planFor wanted hints).run.run p).1
      ((planFor wanted hints).run.run p).2 := by
  have hu := upToDate_refreshed p
  have hrefresh := sameRegistry_refreshed p
  have hc' : p.refreshed.config.cachePlans = true := by rw [hrefresh.config, hc]
  unfold planFor
  rw [run_bind_of_ok (run_modify _), run_bind_of_ok run_get, if_pos hc']
  cases hb : p.refreshed.plans.buckets.find? (Names.canonicalKey (Names.distinct wanted)) with
  | none =>
    have hnone : ∀ k, lookIn p.refreshed.plans (Names.canonicalKey (Names.distinct wanted), k) =
        none := fun k => by rw [lookIn, hb]; rfl
    have hempty : ∀ k, (Table.empty : Table (Stamped (Plan V E))).find? k =
        lookIn p.refreshed.plans (Names.canonicalKey (Names.distinct wanted), k) :=
      fun k => (hnone k).symm
    rw [PlanCache.getOrCompile_of_none hb, bind_assoc]
    exact obtained_of_keep h.refreshed hrefresh.registry hrefresh.issued_le ⟨hu, rfl⟩ (hnone _)
      hempty (fun plan => Names.canonicalKey plan.value.record.params)
      fun plan hplan => by rw [hplan]
  | some bucket =>
    obtain ⟨q, p₁, hrun, hq, -, hcoh, hsame, hplans⟩ :=
      lookUp_spec h.refreshed hu (Names.distinct wanted) hints
    rw [hrefresh.registry] at hq
    have hparams : (do return (← lookUp (Names.distinct wanted) hints).value.params :
        PlannerM V E _).run.run p.refreshed =
          (.ok (find p.registry (Names.distinct wanted) hints).params, p₁) := by
      rw [run_bind_of_ok hrun, hq]
      rfl
    have hbucket : ∀ k, bucket.find? k =
        lookIn p.refreshed.plans (Names.canonicalKey (Names.distinct wanted), k) :=
      fun k => by rw [lookIn, hb]; rfl
    rw [PlanCache.getOrCompile_of_some hb, bind_assoc, run_bind_of_ok hparams]
    cases hp : bucket.find?
        (Names.canonicalKey (find p.registry (Names.distinct wanted) hints).params) with
    | some plan =>
      have hstate : ((requirements (Names.distinct wanted) hints).run.run p).2 =
          { p₁ with plans := p.refreshed.plans } := by
        rw [requirements, run_bind_of_ok (run_modify _), hrun, ← hplans]
      have hfound : Obtained p (Names.distinct wanted) hints (.ok plan) _ :=
        .found ((hbucket _).symm.trans hp)
      rw [hstate] at hfound
      simp only [hp]
      exact hfound
    | none =>
      simp only [hp]
      rw [bind_assoc, ← hplans]
      exact obtained_of_keep hcoh (hsame.registry.trans hrefresh.registry)
        (Nat.le_trans hrefresh.issued_le hsame.issued_le) ⟨hsame.upToDate hu, hplans⟩
        ((hbucket _).symm.trans hp) (fun k => by rw [hplans, hbucket])
        (fun _ => Names.canonicalKey (find p.registry (Names.distinct wanted) hints).params)
        fun _ _ => rfl

section Obtained

variable {wanted hints : List String} {key : String × String}

theorem sameRegistry_requirements (h : Coherent ok since p) (wanted hints : List String) :
    SameRegistry p ((requirements wanted hints).run.run p).2 := by
  obtain ⟨q, p', hrun, -, -, -, hsame, -⟩ := requirements_spec h wanted hints
  rwa [hrun]

theorem samePlans_requirements (h : Coherent ok since p) (wanted hints : List String) :
    SamePlans p ((requirements wanted hints).run.run p).2 := by
  obtain ⟨q, p', hrun, -, -, -, -, hsame⟩ := requirements_spec h wanted hints
  rwa [hrun]

/-- The plan that a query has obtained is kept, and so is everything that was kept before. -/
theorem Obtained.kept_of_ok (h : Coherent ok since p) {plan : Stamped (Plan V E)}
    (ho : Obtained p wanted hints (.ok plan) p') (key : String × String) : p'.kept key =
      if key = planKey p.registry wanted hints then some plan else p.kept key := by
  cases ho with
  | found hkept =>
    rw [kept_of_samePlans (samePlans_requirements h wanted hints)]
    split
    · next hkey => rw [hkey, hkept]
    · rfl
  | built _ _ _ _ hkept => exact hkept key

/-- A query that fails changes nothing of what is kept. -/
theorem Obtained.samePlans_of_error {f : Failure E}
    (ho : Obtained p wanted hints (.error f) p') : SamePlans p p' := by
  cases ho with
  | failed _ _ hsame => exact hsame

theorem Obtained.kept_of_error {f : Failure E} (ho : Obtained p wanted hints (.error f) p') :
    p'.kept = p.kept := kept_of_samePlans ho.samePlans_of_error

/-- If a plan is kept for a query, this is the one that it obtains. -/
theorem Obtained.of_kept_some {x : Except (Failure E) (Stamped (Plan V E))}
    (ho : Obtained p wanted hints x p') {plan : Stamped (Plan V E)}
    (hsome : p.kept (planKey p.registry wanted hints) = some plan) :
    x = .ok plan ∧ p' = ((requirements wanted hints).run.run p).2 := by
  cases ho with
  | found hk =>
    rw [hsome] at hk
    rw [Option.some.inj hk]
    exact ⟨rfl, rfl⟩
  | built hk | failed hk => cases hsome.symm.trans hk

/-- If none is kept, it obtains a new one, if anything. -/
theorem Obtained.of_kept_none {x : Except (Failure E) (Stamped (Plan V E))}
    (ho : Obtained p wanted hints x p')
    (hnone : p.kept (planKey p.registry wanted hints) = none) :
    x.map Stamped.value = (Plan.ofQuery p.registry wanted hints).mapError .reported ∧
      ∀ plan, x = .ok plan → p.issued ≤ plan.stamp := by
  cases ho with
  | found hk => cases hnone.symm.trans hk
  | built _ hplan hle =>
    rw [hplan]
    exact ⟨rfl, fun _ h => Except.ok.inj h ▸ hle⟩
  | failed _ he =>
    rw [he]
    exact ⟨rfl, fun _ h => by cases h⟩

theorem Obtained.kept_mono (h : Coherent ok since p) {x : Except (Failure E) (Stamped (Plan V E))}
    (ho : Obtained p wanted hints x p') {plan : Stamped (Plan V E)} (hk : p.kept key = some plan) :
    p'.kept key = some plan := by
  cases x with
  | error f => rw [ho.kept_of_error, hk]
  | ok plan' =>
    rw [ho.kept_of_ok h key]
    split
    · next hkey =>
      subst hkey
      rw [Except.ok.inj (ho.of_kept_some hk).1]
    · exact hk

end Obtained

/-! ## Any requests -/

namespace Request

/-- The query of a request for a plan or for values: the wanted names and the hints. -/
def query? : Request V E → Option (List String × List String)
  | .planFor wanted hints => some (wanted, hints)
  | .calculate wanted args => some (wanted, args.keys)
  | _ => none

/-- What a request does to a registry. -/
def change (r : Registry V E) : Request V E → Registry V E
  | .register op override =>
    match r.register op override with
    | .ok r' => r'
    | .error _ => r
  | .registerMany ops => (r.registerMany ops).1
  | .unregister name => r.remove name
  | _ => r

theorem follows_change (r : Registry V E) (q : Request V E) : r.Follows (q.change r) := by
  cases q with
  | register op override =>
    unfold change
    dsimp only
    split
    · next r' hr =>
      obtain rfl := Registry.eq_place_of_register hr
      exact Registry.follows_place r op
    · exact .inl rfl
  | registerMany ops => exact Registry.follows_registerMany r ops
  | unregister name => exact Registry.follows_remove r name
  | forget | requirements | params | compile | planFor | calculate => exact .inl rfl

theorem change_of_query? {q : Request V E} {query : List String × List String}
    (hq : q.query? = some query) (r : Registry V E) : q.change r = r := by
  cases q with
  | planFor | calculate => rfl
  | register | registerMany | unregister | forget | requirements | params | compile => cases hq

/-- Whether a request makes a planner drop what it keeps: by forgetting it, or by changing the
registry. -/
def Drops (r : Registry V E) (q : Request V E) : Prop :=
  q = .forget ∨ (q.change r).version ≠ r.version

end Request

/-- A request for values does to a planner what the request for the plan does. -/
theorem perform_of_query? {q : Request V E} {wanted hints : List String}
    (hq : q.query? = some (wanted, hints)) (p : Planner V E) :
    (q.perform p).2 = ((planFor wanted hints).run.run p).2 := by
  cases q with
  | planFor wanted' hints' =>
    cases hq
    rfl
  | calculate wanted' args =>
    cases hq
    rfl
  | register | registerMany | unregister | forget | requirements | params | compile => cases hq

/-- What every request leaves as it is. -/
structure Effect (p : Planner V E) (q : Request V E) (p' : Planner V E) : Prop where
  registry : p'.registry = q.change p.registry
  config : p'.config = p.config

theorem SameRegistry.effect (h : SameRegistry p p') {q : Request V E}
    (hq : q.change p.registry = p.registry) : Effect p q p' where
  registry := h.registry.trans hq.symm
  config := h.config

theorem effect_perform (h : Coherent (fun _ => True) since p) (q : Request V E) :
    Effect p q (q.perform p).2 := by
  have hquery : ∀ wanted hints, SameRegistry p ((planFor wanted hints).run.run p).2 := by
    intro wanted hints
    have hw : ∀ n ∈ wanted, True := fun _ _ => trivial
    obtain ⟨x, p', hrun, -, -, -, hsame⟩ := planFor_spec h hints hw
    rwa [hrun]
  cases q with
  | register op override =>
    simp only [Request.perform, register, run_bind_of_ok run_get]
    cases hr : p.registry.register op override with
    | error e => exact ⟨by simp [Request.change, hr]; rfl, rfl⟩
    | ok r' => exact ⟨by simp [Request.change, hr]; rfl, rfl⟩
  | registerMany ops => exact ⟨rfl, rfl⟩
  | unregister name => exact ⟨rfl, rfl⟩
  | forget => exact ⟨rfl, rfl⟩
  | requirements wanted hints | params wanted hints =>
    exact (sameRegistry_requirements h wanted hints).effect rfl
  | compile wanted hints =>
    obtain ⟨x, p', hrun, -, -, -, hsame, -⟩ := compile_spec h wanted hints
    simp only [Request.perform, hrun]
    exact hsame.effect rfl
  | planFor wanted hints => exact (hquery wanted hints).effect rfl
  | calculate wanted args =>
    rw [perform_of_query? rfl]
    exact (hquery wanted args.keys).effect rfl

/-- A changed registry has not been seen, so nothing is kept for it. -/
theorem kept_of_change (h : Coherent ok since p) {registry : Registry V E}
    (hf : p.registry.Follows registry) (hv : registry.version ≠ p.registry.version)
    (key : String × String) : kept { p with registry } key = none := by
  refine kept_of_stale (fun hu => ?_) key
  have hu : registry.version = p.seenVersion := hu
  have hle := h.version_le
  rcases hf with rfl | hlt
  · exact hv rfl
  · omega

theorem eq_of_unchanged {registry : Registry V E} (hf : p.registry.Follows registry)
    (hv : registry.version = p.registry.version) : { p with registry } = p := by
  rcases hf with rfl | hlt
  · rfl
  · omega

/-- What is kept after a request that is neither for a plan nor for values. -/
structure Aside (p : Planner V E) (q : Request V E) (p' : Planner V E) : Prop where
  dropped : q.Drops p.registry → ∀ key, p'.kept key = none
  same : ¬q.Drops p.registry → p'.kept = p.kept

theorem aside_change (h : Coherent ok since p) {q : Request V E} (hq : q ≠ .forget) :
    Aside p q { p with registry := q.change p.registry } where
  dropped hd := kept_of_change h (q.follows_change _) (hd.resolve_left hq)
  same hd := by rw [eq_of_unchanged (q.follows_change _) (not_not.1 (not_or.1 hd).2)]

theorem SamePlans.aside (h : SamePlans p p') {q : Request V E} (hq : ¬q.Drops p.registry) :
    Aside p q p' where
  dropped hd := absurd hd hq
  same _ := kept_of_samePlans h

theorem aside_perform (h : Coherent (fun _ => True) since p) {q : Request V E}
    (hq : q.query? = none) : Aside p q (q.perform p).2 := by
  have hstill : ∀ {q : Request V E}, q ≠ .forget → q.change p.registry = p.registry →
      ¬q.Drops p.registry := fun hne hr hd =>
    hd.elim hne fun hv => hv (congrArg Registry.version hr)
  cases q with
  | register op override =>
    have hperform : ((Request.register op override).perform p).2 =
        { p with registry := (Request.register op override).change p.registry } := by
      simp only [Request.perform, register, run_bind_of_ok run_get, Request.change]
      cases hr : p.registry.register op override <;> rfl
    rw [hperform]
    exact aside_change h (by simp)
  | registerMany ops => exact aside_change (q := .registerMany ops) h (by simp)
  | unregister name => exact aside_change (q := .unregister name) h (by simp)
  | forget => exact ⟨fun _ => kept_forget p, fun hd => absurd (.inl rfl) hd⟩
  | requirements wanted hints | params wanted hints =>
    exact (samePlans_requirements h wanted hints).aside (hstill (by simp) rfl)
  | compile wanted hints =>
    obtain ⟨x, p', hrun, -, -, -, -, hsame⟩ := compile_spec h wanted hints
    simp only [Request.perform, hrun]
    exact hsame.aside (hstill (by simp) rfl)
  | planFor | calculate => cases hq

/-! ## Stamps of kept plans -/

/-- Plans that are kept have been made already, each under its own keys. -/
structure KeptOnce (p : Planner V E) : Prop where
  stamp_lt : ∀ {key plan}, p.kept key = some plan → plan.stamp < p.issued
  key_eq : ∀ {key key' plan plan'}, p.kept key = some plan → p.kept key' = some plan' →
    plan.stamp = plan'.stamp → key = key'

theorem KeptOnce.of_kept (h : KeptOnce p) (hissued : p.issued ≤ p'.issued)
    (hkept : ∀ key plan, p'.kept key = some plan → p.kept key = some plan) : KeptOnce p' where
  stamp_lt hk := Nat.lt_of_lt_of_le (h.stamp_lt (hkept _ _ hk)) hissued
  key_eq hk hk' := h.key_eq (hkept _ _ hk) (hkept _ _ hk')

/-- A new plan has a stamp of its own. -/
theorem KeptOnce.obtained (h : KeptOnce p) (hc : Coherent ok since p) {wanted hints : List String}
    {x : Except (Failure E) (Stamped (Plan V E))} (ho : Obtained p wanted hints x p')
    (hissued : p.issued ≤ p'.issued) : KeptOnce p' := by
  cases ho with
  | found _ =>
    refine h.of_kept hissued fun key plan hk => ?_
    rwa [kept_of_samePlans (samePlans_requirements hc wanted hints)] at hk
  | failed _ _ hsame =>
    refine h.of_kept hissued fun key plan hk => ?_
    rwa [kept_of_samePlans hsame] at hk
  | @built new _ _ _ hle hlt hkept =>
    -- What is kept afterwards is the new plan, under the key of the query, or it has been kept
    -- before.
    have hcases : ∀ {key plan}, p'.kept key = some plan →
        key = planKey p.registry wanted hints ∧ plan = new ∨ p.kept key = some plan := by
      intro key plan hk
      rw [hkept key] at hk
      split at hk
      · next hkey => exact .inl ⟨hkey, (Option.some.inj hk).symm⟩
      · exact .inr hk
    constructor
    · intro key plan hk
      rcases hcases hk with ⟨-, rfl⟩ | hold
      · exact hlt
      · exact Nat.lt_of_lt_of_le (h.stamp_lt hold) hissued
    · intro key key' plan plan' hk hk' hstamp
      -- An old plan and the new one have different stamps, because the new stamp had not been
      -- issued.
      rcases hcases hk with ⟨rfl, rfl⟩ | hold <;> rcases hcases hk' with ⟨rfl, rfl⟩ | hold'
      · rfl
      · have := h.stamp_lt hold'
        omega
      · have := h.stamp_lt hold
        omega
      · exact h.key_eq hold hold' hstamp

/-- A planner that keeps plans, as it is after any requests. -/
structure Keeps (p : Planner V E) : Prop where
  coherent : Coherent (fun _ => True) 0 p
  cached : p.config.cachePlans = true
  once : KeptOnce p

theorem keeps_of_fresh (r : Registry V E) {config : Config} (hc : config.cachePlans = true) :
    Keeps ({ registry := r, config } : Planner V E) where
  coherent := coherent_of_fresh (fun _ _ _ _ => trivial) config
  cached := hc
  once := by
    have hnone : ∀ key, ({ registry := r, config } : Planner V E).kept key = none := fun key => by
      have hu : ({ registry := r, config } : Planner V E).UpToDate := rfl
      rw [kept_of_upToDate hu]
      rfl
    exact ⟨fun hk => by (rw [hnone] at hk; cases hk), fun hk => by (rw [hnone] at hk; cases hk)⟩

theorem Keeps.obtained (h : Keeps p) (wanted hints : List String) :
    Obtained p (Names.distinct wanted) hints ((planFor wanted hints).run.run p).1
      ((planFor wanted hints).run.run p).2 := planFor_obtained h.coherent h.cached wanted hints

theorem Keeps.step (h : Keeps p) (q : Request V E) : Step p (q.perform p).2 :=
  (h.coherent.perform fun _ _ => trivial).2

/-- **Every request keeps the stamps apart.** -/
theorem Keeps.perform (h : Keeps p) (q : Request V E) : Keeps (q.perform p).2 := by
  have hcoh := (h.coherent.perform (q := q) fun _ _ => trivial).1
  have hissued := (h.step q).issued_le
  have hconfig := (effect_perform h.coherent q).config
  refine ⟨hcoh, hconfig ▸ h.cached, ?_⟩
  cases hq : q.query? with
  | none =>
    have haside := aside_perform h.coherent hq
    refine h.once.of_kept hissued fun key plan hk => ?_
    by_cases hd : q.Drops p.registry
    · rw [haside.dropped hd key] at hk
      cases hk
    · rwa [haside.same hd] at hk
  | some query =>
    have ho := h.obtained query.1 query.2
    rw [← perform_of_query? hq] at ho
    exact h.once.obtained h.coherent ho hissued

theorem Keeps.after (h : Keeps p) (qs : List (Request V E)) : Keeps (p.after qs) := by
  induction qs generalizing p with
  | nil => exact h
  | cons q qs ih => exact ih (h.perform q)

/-- What is kept stays kept as long as no request makes the planner drop it. -/
theorem Keeps.kept_perform (h : Keeps p) {q : Request V E} (hq : ¬q.Drops p.registry)
    {key : String × String} {plan : Stamped (Plan V E)} (hk : p.kept key = some plan) :
    (q.perform p).2.kept key = some plan := by
  cases hquery : q.query? with
  | none => rw [(aside_perform h.coherent hquery).same hq, hk]
  | some query =>
    rw [perform_of_query? hquery]
    exact (h.obtained query.1 query.2).kept_mono h.coherent hk

theorem Keeps.kept_after (h : Keeps p) {qs : List (Request V E)} (hf : .forget ∉ qs)
    (hv : (p.after qs).registry.version = p.registry.version) {key : String × String}
    {plan : Stamped (Plan V E)} (hk : p.kept key = some plan) :
    (p.after qs).kept key = some plan ∧ (p.after qs).registry = p.registry := by
  induction qs generalizing p with
  | nil => exact ⟨hk, rfl⟩
  | cons q qs ih =>
    rw [List.mem_cons, not_or] at hf
    have hchange := (effect_perform h.coherent q).registry
    have hstep := h.step q
    have hnext : Next (q.perform p).2 ((q.perform p).2.after qs) :=
      ((h.perform q).coherent.after fun _ _ _ _ => trivial).2
    have hle := hstep.follows.version_le
    have hle' := hnext.follows.version_le
    have hv : ((q.perform p).2.after qs).registry.version = p.registry.version := hv
    have hsame : (q.perform p).2.registry.version = p.registry.version := by omega
    have hregistry : (q.perform p).2.registry = p.registry := by
      rcases hstep.follows with he | hlt
      · exact he
      · omega
    have hdrops : ¬q.Drops p.registry := fun hd =>
      hd.elim (fun he => hf.1 he.symm) fun hne => hne (hchange ▸ hsame)
    obtain ⟨hkept, hr⟩ := ih (h.perform q) hf.2 (hv.trans hsame.symm) (h.kept_perform hdrops hk)
    exact ⟨hkept, hr.trans hregistry⟩

/-! ## Identity -/

/-- Two queries of the same shape: they want the same names and have the same parameters. -/
def SameShape (r : Registry V E) (wanted hints wanted' hints' : List String) : Prop :=
  (∀ n, n ∈ wanted ↔ n ∈ wanted') ∧ (find r wanted hints).params = (find r wanted' hints').params

theorem planKey_distinct (r : Registry V E) (wanted hints : List String) :
    planKey r (Names.distinct wanted) hints = planKey r wanted hints := by
  rw [planKey, planKey, params_find_distinct, Names.canonicalKey_distinct]

/-- Queries of the same shape have the same keys. -/
theorem SameShape.planKey_eq {r : Registry V E} {wanted hints wanted' hints' : List String}
    (h : SameShape r wanted hints wanted' hints') :
    planKey r wanted hints = planKey r wanted' hints' := by
  rw [planKey, planKey, h.2, Names.canonicalKey_congr h.1]

/-- If all names are plain, no other queries have the same keys. -/
theorem planKey_eq_iff {r : Registry V E} {wanted hints wanted' hints' : List String}
    (hw : ∀ n ∈ wanted ++ wanted', Names.IsPlain n)
    (hp : ∀ n ∈ (find r wanted hints).params ++ (find r wanted' hints').params, Names.IsPlain n) :
    planKey r wanted hints = planKey r wanted' hints' ↔
      SameShape r wanted hints wanted' hints' := by
  refine ⟨fun h => ?_, SameShape.planKey_eq⟩
  rw [List.forall_mem_append] at hw hp
  obtain ⟨houtputs, hparams⟩ := Prod.mk.inj h
  refine ⟨(Names.canonicalKey_eq_iff hw.1 hw.2).1 houtputs, ?_⟩
  exact params_eq_of_mem_iff ((Names.canonicalKey_eq_iff hp.1 hp.2).1 hparams)

/-- A query after another one that has obtained a plan, this plan being kept still: it obtains the
same plan just in case it has the same keys, and then it finds the plan. -/
theorem Keeps.stamp_eq_iff (h : Keeps p) {key : String × String} {a : Stamped (Plan V E)}
    (hk : p.kept key = some a) (wanted hints : List String) :
    (∀ b, ((planFor wanted hints).run.run p).1 = .ok b →
      (a.stamp = b.stamp ↔ key = planKey p.registry wanted hints)) ∧
    (key = planKey p.registry wanted hints →
      (planFor wanted hints).run.run p =
        (.ok a, ((requirements (Names.distinct wanted) hints).run.run p).2)) := by
  have ho := h.obtained wanted hints
  rw [← planKey_distinct]
  cases hkept : p.kept (planKey p.registry (Names.distinct wanted) hints) with
  | some plan =>
    obtain ⟨hx, hp⟩ := ho.of_kept_some hkept
    have hplan : key = planKey p.registry (Names.distinct wanted) hints → plan = a := by
      rintro rfl
      exact Option.some.inj (hkept.symm.trans hk)
    refine ⟨fun b hb => ?_, fun hkey => hplan hkey ▸ Prod.ext hx hp⟩
    obtain rfl := Except.ok.inj (hx.symm.trans hb)
    exact ⟨h.once.key_eq hk hkept, fun hkey => by rw [hplan hkey]⟩
  | none =>
    have hne : key ≠ planKey p.registry (Names.distinct wanted) hints := by
      rintro rfl
      cases hk.symm.trans hkept
    refine ⟨fun b hb => iff_of_false (fun hstamp => ?_) hne, fun hkey => absurd hkey hne⟩
    have hlt := h.once.stamp_lt hk
    have hle := (ho.of_kept_none hkept).2 b hb
    omega

/-! ## Failed queries -/

/-- Plans that are equal, and that are the very same plan if one of them was there already when
`issued` stamps had been given. -/
def SamePlan (issued : Nat) (a b : Stamped (Plan V E)) : Prop :=
  a.value = b.value ∧ (a.stamp < issued ∨ b.stamp < issued → a = b)

/-- Two planners over the same registry that keep the same plans, but for the stamps of those that
are new. -/
structure Similar (issued : Nat) (p p' : Planner V E) : Prop where
  left : Keeps p
  right : Keeps p'
  registry : p'.registry = p.registry
  issued_le : issued ≤ p.issued
  issued_le' : issued ≤ p'.issued
  kept : ∀ key, Option.Rel (SamePlan issued) (p.kept key) (p'.kept key)

theorem rel_of_eq {issued : Nat} (x : Option (Stamped (Plan V E))) :
    Option.Rel (SamePlan issued) x x := by
  cases x with
  | none => exact .none
  | some a => exact .some ⟨rfl, fun _ => rfl⟩

section Similar

variable {issued : Nat} {wanted hints : List String} {q q' : Planner V E}
  {x x' : Except (Failure E) (Stamped (Plan V E))}

/-- Similar planners obtain the same plan for a query: both keep one or neither does, and then both
build one or neither can. -/
theorem Similar.agree (h : Similar issued p p') (ho : Obtained p wanted hints x q)
    (ho' : Obtained p' wanted hints x' q') : Outcome.Agree (SamePlan issued) x x' := by
  have hrel := h.kept (planKey p.registry wanted hints)
  have hregistry := h.registry
  generalize hk : p.kept (planKey p.registry wanted hints) = kept at hrel
  generalize hk' : p'.kept (planKey p.registry wanted hints) = kept' at hrel
  cases hrel with
  | some hsame =>
    rw [(ho.of_kept_some hk).1, (ho'.of_kept_some (hregistry ▸ hk')).1]
    exact hsame
  | none =>
    obtain ⟨hx, hnew⟩ := ho.of_kept_none hk
    obtain ⟨hx', hnew'⟩ := ho'.of_kept_none (hregistry ▸ hk')
    rw [hregistry] at hx'
    obtain ⟨f, rfl, rfl⟩ | ⟨plan, plan', rfl, rfl, hvalue⟩ :=
      Outcome.Agree.cases (Outcome.agree_of_map_eq (hx.trans hx'.symm))
    · rfl
    · have hle := Nat.le_trans h.issued_le (hnew plan rfl)
      have hle' := Nat.le_trans h.issued_le' (hnew' plan' rfl)
      exact ⟨hvalue, fun hold => by omega⟩

/-- They keep the same plans afterwards. -/
theorem Similar.kept_obtained (h : Similar issued p p') (ho : Obtained p wanted hints x q)
    (ho' : Obtained p' wanted hints x' q') (key : String × String) :
    Option.Rel (SamePlan issued) (q.kept key) (q'.kept key) := by
  obtain ⟨f, rfl, rfl⟩ | ⟨plan, plan', rfl, rfl, hsame⟩ := Outcome.Agree.cases (h.agree ho ho')
  · rw [ho.kept_of_error, ho'.kept_of_error]
    exact h.kept key
  · rw [ho.kept_of_ok h.left.coherent, ho'.kept_of_ok h.right.coherent, h.registry]
    split
    · exact .some hsame
    · exact h.kept key

end Similar

/-- **Similar planners stay similar**, whatever is requested of both. -/
theorem Similar.perform {issued : Nat} (h : Similar issued p p') (q : Request V E) :
    Similar issued (q.perform p).2 (q.perform p').2 where
  left := h.left.perform q
  right := h.right.perform q
  registry := by
    rw [(effect_perform h.left.coherent q).registry, (effect_perform h.right.coherent q).registry,
      h.registry]
  issued_le := Nat.le_trans h.issued_le (h.left.step q).issued_le
  issued_le' := Nat.le_trans h.issued_le' (h.right.step q).issued_le
  kept key := by
    cases hq : q.query? with
    | some query =>
      rw [perform_of_query? hq, perform_of_query? hq]
      exact h.kept_obtained (h.left.obtained query.1 query.2) (h.right.obtained query.1 query.2) key
    | none =>
      have haside := aside_perform h.left.coherent hq
      have haside' := aside_perform h.right.coherent hq
      by_cases hd : q.Drops p.registry
      · rw [haside.dropped hd, haside'.dropped (h.registry ▸ hd)]
        exact .none
      · rw [haside.same hd, haside'.same (h.registry ▸ hd)]
        exact h.kept key

theorem Similar.after {issued : Nat} (h : Similar issued p p') (qs : List (Request V E)) :
    Similar issued (p.after qs) (p'.after qs) := by
  induction qs generalizing p p' with
  | nil => exact h
  | cons q qs ih => exact ih (h.perform q)

/-- A query that fails leaves a planner similar to what it was. -/
theorem Keeps.similar_of_error (h : Keeps p) {q : Request V E} {wanted hints : List String}
    (hq : q.query? = some (wanted, hints)) {f : Failure E}
    (hx : ((planFor wanted hints).run.run p).1 = .error f) :
    Similar p.issued p (q.perform p).2 where
  left := h
  right := h.perform q
  registry := (effect_perform h.coherent q).registry.trans (Request.change_of_query? hq _)
  issued_le := Nat.le_refl _
  issued_le' := (h.step q).issued_le
  kept key := by
    have ho := h.obtained wanted hints
    rw [hx] at ho
    rw [perform_of_query? hq, ho.kept_of_error]
    exact rel_of_eq _

/-! ## Queries -/

/-- **What plans queries obtain.** A planner that keeps plans is asked anything, then a first query,
anything else, and a second query.

As long as nothing is forgotten and the registry does not change, both queries obtain the very same
plan just in case they have the same shape, and then the second one builds nothing: it only finds
out its parameters. If the first query fails, no plan is kept for it, and the second one obtains the
plan that it would have obtained without. -/
theorem plans_identified (r : Registry V E) (config : Config) (hc : config.cachePlans = true)
    (before between : List (Request V E)) (q₁ q₂ : Request V E)
    {wanted₁ hints₁ wanted₂ hints₂ : List String} (hq₁ : q₁.query? = some (wanted₁, hints₁))
    (hq₂ : q₂.query? = some (wanted₂, hints₂)) :
    let p₁ := ({ registry := r, config } : Planner V E).after before
    let p₂ := (q₁.perform p₁).2.after between
    let x₁ := ((planFor wanted₁ hints₁).run.run p₁).1
    let x₂ := ((planFor wanted₂ hints₂).run.run p₂).1
    (.forget ∉ between → p₂.registry.version = p₁.registry.version →
      ∀ a, x₁ = .ok a →
        ((∀ n ∈ wanted₁ ++ wanted₂, Names.IsPlain n) →
          (∀ n ∈ (find p₁.registry wanted₁ hints₁).params ++
            (find p₁.registry wanted₂ hints₂).params, Names.IsPlain n) →
          ∀ b, x₂ = .ok b →
            (a.stamp = b.stamp ↔ SameShape p₁.registry wanted₁ hints₁ wanted₂ hints₂)) ∧
        (SameShape p₁.registry wanted₁ hints₁ wanted₂ hints₂ →
          x₂ = .ok a ∧
            (q₂.perform p₂).2 = ((requirements (Names.distinct wanted₂) hints₂).run.run p₂).2)) ∧
    (∀ f, x₁ = .error f →
      (q₁.perform p₁).2.plans = p₁.refreshed.plans ∧
        Outcome.Agree (SamePlan p₁.issued)
          ((planFor wanted₂ hints₂).run.run (p₁.after between)).1 x₂) := by
  intro p₁ p₂ x₁ x₂
  have h₁ : Keeps p₁ := (keeps_of_fresh r hc).after before
  have h₂ : Keeps p₂ := (h₁.perform q₁).after between
  have ho : Obtained p₁ _ _ x₁ _ := h₁.obtained wanted₁ hints₁
  have hregistry : (q₁.perform p₁).2.registry = p₁.registry :=
    (effect_perform h₁.coherent q₁).registry.trans (Request.change_of_query? hq₁ _)
  constructor
  · -- What the first query has obtained is kept until the second one asks.
    intro hforget hversion a hx₁
    have hkept : (q₁.perform p₁).2.kept (planKey p₁.registry wanted₁ hints₁) = some a := by
      rw [hx₁] at ho
      rw [perform_of_query? hq₁, ho.kept_of_ok h₁.coherent, planKey_distinct, if_pos rfl]
    obtain ⟨hstill, hr⟩ := (h₁.perform q₁).kept_after hforget
      (hversion.trans (congrArg Registry.version hregistry).symm) hkept
    have hr : p₂.registry = p₁.registry := hr.trans hregistry
    obtain ⟨hstamp, hfound⟩ := h₂.stamp_eq_iff hstill wanted₂ hints₂
    rw [hr] at hstamp hfound
    refine ⟨fun hw hp b hb => ?_, fun hshape => ?_⟩
    · rw [hstamp b hb, planKey_eq_iff hw hp]
    · have hrun := hfound hshape.planKey_eq
      rw [perform_of_query? hq₂]
      exact ⟨congrArg Prod.fst hrun, congrArg Prod.snd hrun⟩
  · -- A failed query leaves a similar planner, and similar planners stay so whatever comes between.
    intro f hx₁
    constructor
    · rw [hx₁] at ho
      rw [perform_of_query? hq₁]
      exact ho.samePlans_of_error.plans
    · have hsimilar := (h₁.similar_of_error hq₁ hx₁).after between
      exact hsimilar.agree (hsimilar.left.obtained wanted₂ hints₂) (h₂.obtained wanted₂ hints₂)

/-- The theorem at queries for the same outputs in another order, for one output less, and for one
that depends on itself. -/
theorem plans_identified_of_reordered :
    let double (output input : String) : Operation Nat Unit :=
      { output, inputs := [input], isAsync := false
        impl :=
          { label := output, style := .plain, pauses := 0, apply := fun vs => .ok (2 * vs.sum) } }
    let r : Registry Nat Unit :=
      { operations := [double "b" "a", double "c" "a", double "x" "y", double "y" "x"]
        nodup := by decide }
    let p₁ : Planner Nat Unit := { registry := r }
    let p₂ := p₁.after [.planFor ["c", "b"] [], .planFor ["x"] []]
    let values : Request Nat Unit := .calculate ["b", "c", "b"] { entries := [("a", 1)] }
    ∃ a, ((planFor ["c", "b"] []).run.run p₁).1 = .ok a ∧
      ((planFor ["b", "c", "b"] ["a"]).run.run p₂).1 = .ok a ∧
      (values.perform p₂).2 = ((requirements ["b", "c"] ["a"]).run.run p₂).2 ∧
      (∀ b, ((planFor ["b"] []).run.run p₂).1 = .ok b → a.stamp ≠ b.stamp) ∧
      ((Request.planFor ["x"] []).perform p₁).2.plans = p₁.plans ∧
      Outcome.Agree (SamePlan 0) ((planFor ["b"] []).run.run p₁).1
        ((planFor ["b"] []).run.run (p₁.after [.planFor ["x"] []])).1 := by
  intro double r p₁ p₂ values
  have hsame : SameShape r ["c", "b"] [] ["b", "c", "b"] ["a"] := ⟨by simp [or_comm], by cbv⟩
  have hother : ¬SameShape r ["c", "b"] [] ["b"] [] := fun h => by simpa using h.1 "c"
  have hok₁ : ((planFor ["c", "b"] []).run.run p₁).1.isOk = true := by
    unfold p₁
    cbv
  have hfails : ((planFor ["x"] []).run.run p₁).1.isOk = false := by
    unfold p₁
    cbv
  obtain ⟨f, hf⟩ : ∃ f, ((planFor ["x"] []).run.run p₁).1 = .error f := by
    cases hx : ((planFor ["x"] []).run.run p₁).1 with
    | error f => exact ⟨f, rfl⟩
    | ok a => cases hx ▸ hfails
  obtain ⟨a, ha⟩ : ∃ a, ((planFor ["c", "b"] []).run.run p₁).1 = .ok a := by
    cases hx : ((planFor ["c", "b"] []).run.run p₁).1 with
    | error f => cases hx ▸ hok₁
    | ok a => exact ⟨a, rfl⟩
  have hidentified := fun q₂ wanted₂ hints₂ (hq₂ : q₂.query? = some (wanted₂, hints₂)) =>
    (plans_identified r {} rfl [] [.planFor ["x"] []] (.planFor ["c", "b"] []) q₂ rfl hq₂).1
      (by simp) (by cbv) a ha
  obtain ⟨hplans, hagree⟩ := (plans_identified r {} rfl [] [] (.planFor ["x"] [])
    (.planFor ["b"] []) rfl rfl).2 f hf
  obtain ⟨hfound, hstate⟩ := (hidentified values _ _ rfl).2 hsame
  have hparams : (find r ["c", "b"] []).params ++ (find r ["b"] []).params = ["a", "a"] := by cbv
  have hplain : ∀ n ∈ (find r ["c", "b"] []).params ++ (find r ["b"] []).params,
      Names.IsPlain n := by
    simp [hparams, Names.IsPlain]
  have hstamps := (hidentified (.planFor ["b"] []) _ _ rfl).1 (by simp [Names.IsPlain]) hplain
  exact ⟨a, ha, hfound, hstate, fun b hb hstamp => hother ((hstamps b hb).1 hstamp), hplans, hagree⟩

end DemandPlan.Planner
