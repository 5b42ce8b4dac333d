import DemandPlan.Proofs.Requests

/-!
# What a planner keeps

What a planner keeps is right for the registry it was found for: as long as the registry has not
changed since, every remembered requirement is what the walk would find now, and every kept plan is
one that would be compiled now for the same outputs and parameters. The stamps tell more: nothing
that is kept is older than the last change.

* `Coherent`: this invariant.
* `lookUp_spec`, `build_spec`, `compile_spec`: what these give, and that they keep the invariant.
-/

namespace DemandPlan

open Requirements

variable {V E : Type}

theorem Memo.Key.of_eq_iff {wanted hints wanted' hints' : List String} :
    Memo.Key.of wanted hints = .of wanted' hints' ↔
      wanted = wanted' ∧ ∀ n, n ∈ hints ↔ n ∈ hints' := by
  rw [of, of, Memo.Key.mk.injEq]
  refine and_congr_right fun _ => ⟨fun h n => ?_, fun h => ?_⟩
  · have := congrArg (n ∈ ·) h
    simpa using this
  · exact Names.sorted_congr (Names.distinct_nodup _) (Names.distinct_nodup _) (by simpa using h)

namespace Planner

/-! ## Runs of requests -/

section Runs

variable {α β : Type} {p p' : Planner V E} {x : PlannerM V E α} {f : α → PlannerM V E β}

theorem run_bind_of_ok {a : α} (h : x.run.run p = (.ok a, p')) :
    (x >>= f).run.run p = (f a).run.run p' := by
  show (x.run >>= ExceptT.bindCont f).run p = _
  rw [StateT.run_bind, h]
  rfl

theorem run_bind_of_error {e : Failure E} (h : x.run.run p = (.error e, p')) :
    (x >>= f).run.run p = (.error e, p') := by
  show (x.run >>= ExceptT.bindCont f).run p = _
  rw [StateT.run_bind, h]
  rfl

theorem run_get : (get : PlannerM V E (Planner V E)).run.run p = (.ok p, p) := rfl

theorem run_modify (g : Planner V E → Planner V E) :
    (modify g : PlannerM V E PUnit).run.run p = (.ok ⟨⟩, g p) := rfl

theorem run_stamp (a : α) : (stamp a : PlannerM V E (Stamped α)).run.run p =
    (.ok ⟨p.issued, a⟩, { p with issued := p.issued + 1 }) := rfl

end Runs

/-! ## The invariant -/

/-- Remembered requirements that are what the walk finds, and that are not older than `since`. -/
def MemoRight (since : Nat) (r : Registry V E) (m : Memo (Stamped (Requirements V E))) : Prop :=
  ∀ e ∈ m.entries, since ≤ e.2.stamp ∧
    ∃ wanted hints, e.1 = .of wanted hints ∧ e.2.value = find r wanted hints

/-- A plan of a query that has these keys, and that is not older than `since`. -/
def PlanRight (ok : String → Prop) (since : Nat) (r : Registry V E) (outputsKey paramsKey : String)
    (plan : Stamped (Plan V E)) : Prop :=
  since ≤ plan.stamp ∧ ∃ wanted hints, wanted.Nodup ∧ (∀ n ∈ wanted, ok n) ∧
    outputsKey = Names.canonicalKey wanted ∧
    paramsKey = Names.canonicalKey plan.value.record.params ∧
    Plan.ofQuery r wanted hints = .ok plan.value

/-- Kept plans that are kept under the right keys. -/
def PlansRight (ok : String → Prop) (since : Nat) (r : Registry V E)
    (c : PlanCache (Stamped (Plan V E))) : Prop :=
  ∀ outputsKey bucket, c.buckets.find? outputsKey = some bucket →
    ∀ paramsKey plan, bucket.find? paramsKey = some plan →
      PlanRight ok since r outputsKey paramsKey plan

/-- **The invariant of planners.** The names that they have to do with satisfy `ok`. -/
structure Coherent (ok : String → Prop) (since : Nat) (p : Planner V E) : Prop where
  inputs : p.registry.InputsSatisfy ok
  since_le : since ≤ p.issued
  version_le : p.seenVersion ≤ p.registry.version
  capacity : 0 ≤ p.memo.capacity
  memo : p.registry.version = p.seenVersion → MemoRight since p.registry p.memo
  plans : p.registry.version = p.seenVersion → PlansRight ok since p.registry p.plans

/-- A planner that has seen the latest version of its registry. -/
def UpToDate (p : Planner V E) : Prop := p.registry.version = p.seenVersion

/-- A planner after a query: its registry is the same, and maybe it has given stamps. -/
structure SameRegistry (p p' : Planner V E) : Prop where
  registry : p'.registry = p.registry
  config : p'.config = p.config
  issued_le : p.issued ≤ p'.issued
  upToDate : p.UpToDate → p'.UpToDate

theorem SameRegistry.trans {p p' p'' : Planner V E} (h : SameRegistry p p')
    (h' : SameRegistry p' p'') : SameRegistry p p'' where
  registry := h'.registry.trans h.registry
  config := h'.config.trans h.config
  issued_le := Nat.le_trans h.issued_le h'.issued_le
  upToDate hu := h'.upToDate (h.upToDate hu)

/-- A planner after a query that has kept no plan. -/
structure SamePlans (p p' : Planner V E) : Prop where
  upToDate : p'.UpToDate
  plans : p'.plans = p.refreshed.plans

variable {ok : String → Prop} {since : Nat} {p : Planner V E}

/-- A planner that keeps nothing. -/
theorem coherent_of_fresh {r : Registry V E} (hr : r.InputsSatisfy ok) (config : Config) :
    Coherent ok 0 { registry := r, config } where
  inputs := hr
  since_le := Nat.zero_le _
  version_le := Nat.le_refl _
  capacity := Int.natCast_nonneg _
  memo _ := fun _ he => nomatch he
  plans _ := fun _ _ hb => nomatch hb

theorem Coherent.mono {since' : Nat} (h : Coherent ok since p) (hle : since' ≤ since) :
    Coherent ok since' p where
  inputs := h.inputs
  since_le := Nat.le_trans hle h.since_le
  version_le := h.version_le
  capacity := h.capacity
  memo hv e he := ⟨Nat.le_trans hle (h.memo hv e he).1, (h.memo hv e he).2⟩
  plans hv _ _ hb _ _ hp :=
    ⟨Nat.le_trans hle (h.plans hv _ _ hb _ _ hp).1, (h.plans hv _ _ hb _ _ hp).2⟩

/-- Nothing that is kept by a planner that has not seen the latest version will be used, so what
will be used has yet to be made. -/
theorem Coherent.restart (h : Coherent ok since p) (hv : p.registry.version ≠ p.seenVersion) :
    Coherent ok p.issued p where
  inputs := h.inputs
  since_le := Nat.le_refl _
  version_le := h.version_le
  capacity := h.capacity
  memo he := absurd he hv
  plans he := absurd he hv

theorem Coherent.change (h : Coherent ok since p) {registry : Registry V E}
    (hr : registry.InputsSatisfy ok) (hf : p.registry.Follows registry) :
    Coherent ok since { p with registry } := by
  rcases hf with rfl | hlt
  · exact h
  · have hv : registry.version ≠ p.seenVersion := by
      have := h.version_le
      omega
    exact ⟨hr, h.since_le, Nat.le_trans h.version_le (Nat.le_of_lt hlt), h.capacity,
      fun he => absurd he hv, fun he => absurd he hv⟩

theorem memoRight_clear (r : Registry V E) (m : Memo (Stamped (Requirements V E))) :
    MemoRight since r m.clear := fun _ he => nomatch he

theorem plansRight_clear (r : Registry V E) (c : PlanCache (Stamped (Plan V E))) :
    PlansRight ok since r c.clear := fun _ _ hb => nomatch hb

theorem Coherent.forget (h : Coherent ok since p) : Coherent ok since p.forget where
  inputs := h.inputs
  since_le := h.since_le
  version_le := h.version_le
  capacity := h.capacity
  memo _ := memoRight_clear _ _
  plans _ := plansRight_clear _ p.plans

theorem upToDate_refreshed (p : Planner V E) : p.refreshed.UpToDate := by
  unfold refreshed
  split
  · next h => exact h
  · rfl

theorem sameRegistry_refreshed (p : Planner V E) : SameRegistry p p.refreshed := by
  unfold refreshed
  split
  · exact ⟨rfl, rfl, Nat.le_refl _, id⟩
  · exact ⟨rfl, rfl, Nat.le_refl _, fun _ => rfl⟩

theorem Coherent.refreshed (h : Coherent ok since p) : Coherent ok since p.refreshed := by
  unfold Planner.refreshed
  split
  · exact h
  · exact ⟨h.inputs, h.since_le, Nat.le_refl _, h.capacity, fun _ => memoRight_clear _ _,
      fun _ => plansRight_clear _ p.plans⟩

/-! ## Requirements -/

theorem memoRight_remember {r : Registry V E} {m m' : Memo (Stamped (Requirements V E))}
    (h : MemoRight since r m) {q : Stamped (Requirements V E)} (hs : since ≤ q.stamp)
    {wanted hints : List String} (hq : q.value = find r wanted hints)
    (hm : m.remember (.of wanted hints) q = some m') : MemoRight since r m' := by
  unfold Memo.remember at hm
  split at hm
  · cases hm
  · obtain rfl := Option.some.inj hm
    intro e he
    rcases List.mem_append.1 he with he | he
    · exact h e (List.mem_of_mem_drop he)
    · obtain rfl := List.mem_singleton.1 he
      exact ⟨hs, wanted, hints, rfl, hq⟩

theorem capacity_remember {α : Type} {m m' : Memo α} {key : Memo.Key} {a : α}
    (h : m.remember key a = some m') : m'.capacity = m.capacity := by
  unfold Memo.remember at h
  split at h
  · cases h
  · rw [← Option.some.inj h]

/-- A remembered requirement is what the walk finds, also for other lists of the same hints. -/
theorem MemoRight.of_find? {r : Registry V E} {m : Memo (Stamped (Requirements V E))}
    (h : MemoRight since r m) {wanted hints : List String} {q : Stamped (Requirements V E)}
    (hq : m.find? (.of wanted hints) = some q) :
    since ≤ q.stamp ∧ q.value = find r wanted hints := by
  obtain ⟨e, he, rfl⟩ := Option.map_eq_some_iff.1 hq
  obtain ⟨hs, wanted', hints', hkey, hvalue⟩ := h e (List.mem_of_find?_eq_some he)
  have hkey' : e.1 = .of wanted hints := by simpa using List.find?_some he
  obtain ⟨rfl, hhints⟩ := Memo.Key.of_eq_iff.1 (hkey.symm.trans hkey')
  exact ⟨hs, hvalue.trans (find_congr_hints hhints)⟩

/-- **Looking up requirements** gives what the walk finds. -/
theorem lookUp_spec (h : Coherent ok since p) (hu : p.UpToDate) (wanted hints : List String) :
    ∃ q p', (lookUp wanted hints).run.run p = (.ok q, p') ∧
      q.value = find p.registry wanted hints ∧ since ≤ q.stamp ∧
      Coherent ok since p' ∧ SameRegistry p p' ∧ p'.plans = p.plans := by
  have hrun : ∀ q memo p', (p.memo.getOrCompute wanted hints
        (stamp (find p.registry wanted hints) : PlannerM V E _)).run.run p =
        (.ok (some q, memo), p') →
      (lookUp wanted hints).run.run p = (.ok q, { p' with memo }) := by
    intro q memo p' hget
    rw [lookUp, run_bind_of_ok run_get, run_bind_of_ok hget]
    rfl
  -- The planner after a new requirement has been found and maybe remembered.
  have hnew : ∀ memo, 0 ≤ memo.capacity → MemoRight since p.registry memo →
      Coherent ok since { p with memo, issued := p.issued + 1 } ∧
        SameRegistry p { p with memo, issued := p.issued + 1 } := fun memo hcap hmemo =>
    ⟨⟨h.inputs, Nat.le_succ_of_le h.since_le, h.version_le, hcap, fun _ => hmemo, h.plans⟩,
      ⟨rfl, rfl, Nat.le_succ _, id⟩⟩
  by_cases hc : p.memo.capacity = 0
  · obtain ⟨hcoh, hsame⟩ := hnew p.memo h.capacity (h.memo hu)
    refine ⟨_, _, hrun ⟨p.issued, _⟩ p.memo { p with issued := p.issued + 1 } ?_, rfl,
      h.since_le, hcoh, hsame, rfl⟩
    rw [Memo.getOrCompute, if_pos hc, run_bind_of_ok (run_stamp _)]
    rfl
  · cases hm : p.memo.find? (.of wanted hints) with
    | some q =>
      obtain ⟨hs, hq⟩ := (h.memo hu).of_find? hm
      refine ⟨q, p, hrun q p.memo p ?_, hq, hs, h, ⟨rfl, rfl, Nat.le_refl _, id⟩, rfl⟩
      rw [Memo.getOrCompute, if_neg hc]
      simp only [hm]
      rfl
    | none =>
      have hpos : ¬p.memo.capacity ≤ 0 := by
        have := h.capacity
        omega
      obtain ⟨m', hm'⟩ : ∃ m', p.memo.remember (.of wanted hints)
          ⟨p.issued, find p.registry wanted hints⟩ = some m' :=
        ⟨_, if_neg hpos⟩
      obtain ⟨hcoh, hsame⟩ := hnew m' (capacity_remember hm' ▸ h.capacity)
        (memoRight_remember (h.memo hu) h.since_le rfl hm')
      refine ⟨_, _, hrun ⟨p.issued, _⟩ m' { p with issued := p.issued + 1 } ?_, rfl,
        h.since_le, hcoh, hsame, rfl⟩
      rw [Memo.getOrCompute, if_neg hc]
      simp only [hm]
      rw [run_bind_of_ok (run_stamp _)]
      simp only [hm']
      rfl

/-! ## Plans -/

theorem ofSchedule_ofQuery {r : Registry V E} {wanted hints : List String} {s : Schedule V E}
    (h : Schedule.ofQuery r wanted hints = .ok s) :
    Plan.ofSchedule s (find r wanted hints).params wanted =
      .ok (Plan.laidOut s (find r wanted hints).params wanted) :=
  Plan.ofSchedule_eq (Schedule.complete_ofQuery h) _

/-- **Building a plan** gives the plan of the query. -/
theorem build_spec (h : Coherent ok since p) (hu : p.UpToDate) (wanted hints : List String) :
    ∃ x p', (build wanted hints).run.run p = (x, p') ∧
      x.map Stamped.value = (Plan.ofQuery p.registry wanted hints).mapError .reported ∧
      (∀ plan, x = .ok plan → p.issued ≤ plan.stamp ∧ plan.stamp < p'.issued) ∧
      Coherent ok since p' ∧ SameRegistry p p' ∧ p'.plans = p.plans := by
  obtain ⟨q, p', hrun, hq, -, hcoh, hsame, hplans⟩ := lookUp_spec h hu wanted hints
  have hops : Schedule.ofOperations (find p.registry wanted hints).operations
      ((find p.registry wanted hints).params ++ hints) = Schedule.ofQuery p.registry wanted hints :=
    rfl
  rw [build, run_bind_of_ok hrun, Plan.ofQuery]
  simp only [hq, hops]
  cases hs : Schedule.ofQuery p.registry wanted hints with
  | error e =>
    exact ⟨_, _, rfl, rfl, fun _ h => by (cases h), hcoh, hsame, hplans⟩
  | ok s =>
    simp only [ofSchedule_ofQuery hs]
    refine ⟨_, _, rfl, rfl, ?_, ?_, ?_, hplans⟩
    · intro plan hplan
      obtain rfl := Except.ok.inj hplan
      exact ⟨hsame.issued_le, Nat.lt_succ_self _⟩
    · exact ⟨hcoh.inputs, Nat.le_succ_of_le hcoh.since_le, hcoh.version_le, hcoh.capacity,
        hcoh.memo, hcoh.plans⟩
    · exact hsame.trans ⟨rfl, rfl, Nat.le_succ _, id⟩

/-- **Compiling** gives the plan of the query. -/
theorem compile_spec (h : Coherent ok since p) (wanted hints : List String) :
    ∃ x p', (compile wanted hints).run.run p = (x, p') ∧
      x.map Stamped.value =
        (Plan.ofQuery p.registry (Names.distinct wanted) hints).mapError .reported ∧
      (∀ plan, x = .ok plan → since ≤ plan.stamp) ∧
      Coherent ok since p' ∧ SameRegistry p p' ∧ SamePlans p p' := by
  obtain ⟨x, p', hrun, hx, hs, hcoh, hsame, hplans⟩ :=
    build_spec h.refreshed (upToDate_refreshed p) (Names.distinct wanted) hints
  rw [(sameRegistry_refreshed p).registry] at hx
  refine ⟨x, p', ?_, hx, fun plan hplan => ?_, hcoh, (sameRegistry_refreshed p).trans hsame,
    hsame.upToDate (upToDate_refreshed p), hplans⟩
  · rw [compile, run_bind_of_ok (run_modify _), hrun]
  · exact Nat.le_trans h.refreshed.since_le (hs plan hplan).1

/-- A compiled plan is the plan of the query. -/
theorem ofQuery_of_compile (h : Coherent ok since p) {wanted hints : List String}
    {plan : Stamped (Plan V E)} {p' : Planner V E}
    (hrun : (compile wanted hints).run.run p = (.ok plan, p')) :
    Plan.ofQuery p.registry (Names.distinct wanted) hints = .ok plan.value := by
  obtain ⟨x, p'', hrun', hx, -⟩ := compile_spec h wanted hints
  obtain ⟨rfl, -⟩ := Prod.mk.inj (hrun.symm.trans hrun')
  obtain ⟨e, he, -⟩ | ⟨plan', he, hq⟩ := Outcome.cases_of_map_eq_mapError hx
  · cases he
  · exact Except.ok.inj he ▸ hq

/-- If a query has a plan, it is compiled to this plan. -/
theorem compile_of_ofQuery (h : Coherent ok since p) {wanted hints : List String} {q : Plan V E}
    (hq : Plan.ofQuery p.registry (Names.distinct wanted) hints = .ok q) :
    ∃ plan p', (compile wanted hints).run.run p = (.ok plan, p') ∧ plan.value = q := by
  obtain ⟨x, p', hrun, hx, -⟩ := compile_spec h wanted hints
  obtain ⟨e, -, he⟩ | ⟨plan, rfl, hplan⟩ := Outcome.cases_of_map_eq_mapError hx
  · cases hq.symm.trans he
  · exact ⟨plan, p', hrun, Except.ok.inj (hplan.symm.trans hq)⟩

/-- **Asking for requirements** gives what the walk finds. -/
theorem requirements_spec (h : Coherent ok since p) (wanted hints : List String) :
    ∃ q p', (requirements wanted hints).run.run p = (.ok q, p') ∧
      q.value = find p.registry wanted hints ∧ since ≤ q.stamp ∧
      Coherent ok since p' ∧ SameRegistry p p' ∧ SamePlans p p' := by
  obtain ⟨q, p', hrun, hq, hs, hcoh, hsame, hplans⟩ :=
    lookUp_spec h.refreshed (upToDate_refreshed p) wanted hints
  rw [(sameRegistry_refreshed p).registry] at hq
  refine ⟨q, p', ?_, hq, hs, hcoh, (sameRegistry_refreshed p).trans hsame,
    hsame.upToDate (upToDate_refreshed p), hplans⟩
  rw [requirements, run_bind_of_ok (run_modify _), hrun]

end Planner

end DemandPlan
