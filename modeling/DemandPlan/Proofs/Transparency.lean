import DemandPlan.Proofs.KeptPlans
import Mathlib

/-!
# What is kept does not show

Whatever a planner has been asked before, each of its answers is the answer of a planner that keeps
nothing and has the same registry. Only the order of the outputs of a plan may be another one.

* `Coherent.perform`, `Coherent.after`: the invariant of planners holds after any requests.
* `Coherent.after_change`: after a change of the registry, nothing from before is used.
* `answers_agree_uncached`: the answers of a planner, after any requests.
-/

namespace DemandPlan.Planner

open Requirements

variable {V E : Type} {ok : String → Prop} {since : Nat} {p : Planner V E}

/-! ## Calculating -/

theorem planAndCall_run (p : Planner V E) (wanted : List String) (args : Table V) :
    (planAndCall wanted args).run p =
      let (plan, p') := (planFor wanted args.keys).run.run p
      ((plan, invoked p'.registry.operations args (plan.map Stamped.value)), p') := rfl

theorem calculate_run (p : Planner V E) (wanted : List String) (args : Table V) :
    (calculate wanted args).run p =
      let (plan, p') := (planFor wanted args.keys).run.run p
      (invoked p'.registry.operations args (plan.map Stamped.value), p') := rfl

theorem Serves.invoked_agree {r : Registry V E} {wanted hints : List String}
    {x : Except (Failure E) (Stamped (Plan V E))} (h : Serves r wanted hints x)
    (registered : List (Operation V E)) (args : Table V) :
    (invoked registered args (x.map Stamped.value)).Agree
      (invoked registered args ((Plan.ofQuery r wanted hints).mapError .reported)) := by
  obtain ⟨f, rfl, hq⟩ | ⟨plan, q, rfl, hq, wanted', hints', hshared⟩ := Outcome.Agree.cases h
  · rw [hq]
    exact .refl _
  · rw [hq]
    exact hshared.call_agree registered args

theorem Serves.alike {r : Registry V E} {wanted hints : List String}
    {x y : Except (Failure E) (Stamped (Plan V E))} (h : Serves r wanted hints x)
    (hy : y.map Stamped.value = (Plan.ofQuery r wanted hints).mapError .reported) :
    Outcome.Agree (fun p q => p.value.Alike q.value) x y := by
  unfold Serves at h
  rw [← hy] at h
  cases y with
  | error f => cases x <;> exact h
  | ok plan' =>
    cases x with
    | error f => exact h
    | ok plan =>
      obtain ⟨wanted', hints', hshared⟩ := h
      exact hshared.alike

/-! ## Any requests -/

/-- A planner after some requests. -/
structure Next (p p' : Planner V E) : Prop where
  follows : p.registry.Follows p'.registry
  issued_le : p.issued ≤ p'.issued

theorem Next.trans {p p' p'' : Planner V E} (h : Next p p') (h' : Next p' p'') : Next p p'' :=
  ⟨h.follows.trans h'.follows, Nat.le_trans h.issued_le h'.issued_le⟩

/-- A planner after one request: if the registry has changed, this has not been seen yet. -/
structure Step (p p' : Planner V E) : Prop extends Next p p' where
  unseen : p'.registry.version ≠ p.registry.version → ¬p'.UpToDate

theorem SameRegistry.step {p p' : Planner V E} (h : SameRegistry p p') : Step p p' where
  follows := .inl h.registry
  issued_le := h.issued_le
  unseen hv := absurd (congrArg Registry.version h.registry) hv

theorem Coherent.step (h : Coherent ok since p) {registry : Registry V E}
    (hf : p.registry.Follows registry) : Step p { p with registry } where
  follows := hf
  issued_le := Nat.le_refl _
  unseen hv hu := by
    have hle := h.version_le
    rcases hf with rfl | hlt
    · exact hv rfl
    · change registry.version = p.seenVersion at hu
      omega

theorem registry_register (p : Planner V E) (op : Operation V E) (override : Option Bool) :
    ∃ x, (register op override).run.run p = (x, p) ∨
      (register op override).run.run p = (x, { p with registry := p.registry.place op }) := by
  rw [register, run_bind_of_ok run_get]
  cases h : p.registry.register op override with
  | error e => exact ⟨_, .inl rfl⟩
  | ok registry =>
    obtain rfl := Registry.eq_place_of_register h
    exact ⟨_, .inr rfl⟩

/-- **Every request keeps the invariant.** -/
theorem Coherent.perform (h : Coherent ok since p) {q : Request V E} (hq : ∀ n ∈ q.names, ok n) :
    Coherent ok since (q.perform p).2 ∧ Step p (q.perform p).2 := by
  have hsame : Step p p := SameRegistry.step ⟨rfl, rfl, Nat.le_refl _, id⟩
  have hchange : ∀ {registry : Registry V E}, registry.InputsSatisfy ok →
      p.registry.Follows registry →
      Coherent ok since { p with registry } ∧ Step p { p with registry } :=
    fun hr hf => ⟨h.change hr hf, h.step hf⟩
  -- Only the first three kinds of requests change the registry. The others leave it as it is, and
  -- what they keep is right by the lemma about what they ask for.
  cases q with
  | register op override =>
    have hop : ∀ i ∈ op.inputs, ok i := fun i hi => hq i (List.mem_cons_of_mem _ hi)
    obtain ⟨x, hrun | hrun⟩ := registry_register p op override <;>
      simp only [Request.perform, hrun]
    · exact ⟨h, hsame⟩
    · exact hchange (h.inputs.place hop) (Registry.follows_place _ _)
  | registerMany ops =>
    refine hchange (h.inputs.registerMany fun op hop i hi => hq i ?_)
      (Registry.follows_registerMany _ _)
    exact List.mem_flatMap.2 ⟨op, hop, List.mem_cons_of_mem _ hi⟩
  | unregister name => exact hchange (h.inputs.remove name) (Registry.follows_remove _ _)
  | forget => exact ⟨h.forget, SameRegistry.step ⟨rfl, rfl, Nat.le_refl _, id⟩⟩
  | requirements wanted hints | params wanted hints =>
    obtain ⟨q, p', hrun, -, -, hcoh, hsame, -⟩ := requirements_spec h wanted hints
    simp only [Request.perform, hrun]
    exact ⟨hcoh, hsame.step⟩
  | compile wanted hints =>
    obtain ⟨x, p', hrun, -, -, hcoh, hsame, -⟩ := compile_spec h wanted hints
    simp only [Request.perform, hrun]
    exact ⟨hcoh, hsame.step⟩
  | planFor wanted hints =>
    obtain ⟨x, p', hrun, -, -, hcoh, hsame⟩ :=
      planFor_spec h hints fun n hn => hq n (List.mem_append_left _ hn)
    simp only [Request.perform, hrun]
    exact ⟨hcoh, hsame.step⟩
  | calculate wanted args =>
    obtain ⟨x, p', hrun, -, -, hcoh, hsame⟩ :=
      planFor_spec h args.keys fun n hn => hq n (List.mem_append_left _ hn)
    simp only [Request.perform, planAndCall_run, hrun]
    exact ⟨hcoh, hsame.step⟩

/-- **The invariant holds after any requests.** -/
theorem Coherent.after (h : Coherent ok since p) {qs : List (Request V E)}
    (hq : ∀ q ∈ qs, ∀ n ∈ q.names, ok n) :
    Coherent ok since (p.after qs) ∧ Next p (p.after qs) := by
  induction qs generalizing p with
  | nil => exact ⟨h, .inl rfl, Nat.le_refl _⟩
  | cons q qs ih =>
    obtain ⟨hcoh, hstep⟩ := h.perform (hq q List.mem_cons_self)
    obtain ⟨hcoh', hnext⟩ := ih hcoh fun q hqs => hq q (List.mem_cons_of_mem _ hqs)
    exact ⟨hcoh', hstep.toNext.trans hnext⟩

/-- Where nothing is asked of the names, a fresh planner satisfies the invariant after any
requests. -/
theorem coherent_after_of_fresh (r : Registry V E) (config : Config) (qs : List (Request V E)) :
    Coherent (fun _ => True) 0 (({ registry := r, config } : Planner V E).after qs) :=
  ((coherent_of_fresh (fun _ _ _ _ => trivial) config).after fun _ _ _ _ => trivial).1

/-- **A change is a new beginning.** Nothing that was made before it will be used after it. -/
theorem Coherent.after_change (h : Coherent ok since p) {qs : List (Request V E)}
    (hq : ∀ q ∈ qs, ∀ n ∈ q.names, ok n)
    (hv : (p.after qs).registry.version ≠ p.registry.version) :
    Coherent ok p.issued (p.after qs) := by
  induction qs generalizing p since with
  | nil => exact absurd rfl hv
  | cons q qs ih =>
    obtain ⟨hcoh, hstep⟩ := h.perform (hq q List.mem_cons_self)
    have hqs : ∀ q ∈ qs, ∀ n ∈ q.names, ok n := fun q hqs => hq q (List.mem_cons_of_mem _ hqs)
    -- The first request that moves the version is the beginning: no stamp has seen the version
    -- after it.
    by_cases he : (q.perform p).2.registry.version = p.registry.version
    · rw [← he] at hv
      exact (ih hcoh hqs hv).mono hstep.issued_le
    · have hnew := (hcoh.restart (hstep.unseen he)).mono hstep.issued_le
      exact (hnew.after hqs).1

/-! ## Answers -/

/-- A planner that keeps no plans compiles each of them anew. -/
theorem planFor_of_not_cached (h : p.config.cachePlans = false) (wanted hints : List String) :
    (planFor wanted hints).run.run p = (compile wanted hints).run.run p := by
  have hc : p.refreshed.config.cachePlans = false := by
    rw [(sameRegistry_refreshed p).config, h]
  rw [planFor, compile, run_bind_of_ok (run_modify _), run_bind_of_ok (run_modify _),
    run_bind_of_ok run_get]
  simp only [hc]
  rfl

theorem exists_of_stamp {α : Type} {x : Except (Failure E) (Stamped α)} {stamp : Nat}
    (h : x.toOption.map Stamped.stamp = some stamp) : ∃ a, x = .ok a ∧ a.stamp = stamp := by
  cases x with
  | error f => cases h
  | ok a => exact ⟨a, rfl, Option.some.inj h⟩

/-- What a planner answers with has been made since the beginning. -/
theorem stamp_of_answer (h : Coherent ok since p) {q : Request V E} (hq : ∀ n ∈ q.names, ok n)
    {stamp : Nat} (hs : (q.perform p).1.stamp? = some stamp) : since ≤ stamp := by
  cases q with
  | register op override => cases hs
  | registerMany ops => cases hs
  | unregister name => cases hs
  | forget => cases hs
  | requirements wanted hints | params wanted hints =>
    obtain ⟨q, p', hrun, -, hstamp, -⟩ := requirements_spec h wanted hints
    simp only [Request.perform, hrun] at hs
    exact Option.some.inj hs ▸ hstamp
  | compile wanted hints =>
    obtain ⟨x, p', hrun, -, hstamp, -⟩ := compile_spec h wanted hints
    simp only [Request.perform, hrun] at hs
    obtain ⟨plan, hplan, rfl⟩ := exists_of_stamp hs
    exact hstamp plan hplan
  | planFor wanted hints =>
    obtain ⟨x, p', hrun, -, hright, -⟩ :=
      planFor_spec h hints fun n hn => hq n (List.mem_append_left _ hn)
    simp only [Request.perform, hrun] at hs
    obtain ⟨plan, hplan, rfl⟩ := exists_of_stamp hs
    exact (hright plan hplan).1
  | calculate wanted args =>
    obtain ⟨x, p', hrun, -, hright, -⟩ :=
      planFor_spec h args.keys fun n hn => hq n (List.mem_append_left _ hn)
    simp only [Request.perform, planAndCall_run, hrun] at hs
    obtain ⟨plan, hplan, rfl⟩ := exists_of_stamp hs
    exact (hright plan hplan).1

/-- The answer to one request. -/
theorem Coherent.answer_agree (h : Coherent ok since p) (hok : ∀ n, ok n → Names.IsPlain n)
    {q : Request V E} (hq : ∀ n ∈ q.names, ok n) :
    (q.perform p).1.Agree (q.perform p.uncached).1 := by
  have hu : Coherent ok 0 p.uncached := coherent_of_fresh h.inputs _
  cases q with
  | register op override =>
    simp only [Request.perform, register, run_bind_of_ok run_get, uncached]
    cases p.registry.register op override <;> rfl
  | registerMany ops => rfl
  | unregister name => rfl
  | forget => rfl
  | requirements wanted hints =>
    obtain ⟨q, p', hrun, hvalue, -⟩ := requirements_spec h wanted hints
    obtain ⟨q', p'', hrun', hvalue', -⟩ := requirements_spec hu wanted hints
    simp only [Request.perform, hrun, hrun']
    exact hvalue.trans hvalue'.symm
  | params wanted hints =>
    obtain ⟨q, p', hrun, hvalue, -⟩ := requirements_spec h wanted hints
    obtain ⟨q', p'', hrun', hvalue', -⟩ := requirements_spec hu wanted hints
    simp only [Request.perform, hrun, hrun', Except.map, hvalue, hvalue']
    exact rfl
  | compile wanted hints =>
    obtain ⟨x, p', hrun, hx, -⟩ := compile_spec h wanted hints
    obtain ⟨y, p'', hrun', hy, -⟩ := compile_spec hu wanted hints
    simp only [Request.perform, hrun, hrun']
    exact Outcome.agree_of_map_eq (hx.trans hy.symm)
  | planFor wanted hints =>
    -- Here the two plans may differ: what is kept may have been compiled for another order of the
    -- wanted names.
    obtain ⟨x, p', hrun, hserves, -⟩ :=
      planFor_spec h hints fun n hn => hq n (List.mem_append_left _ hn)
    obtain ⟨y, p'', hrun', hy, -⟩ := compile_spec hu wanted hints
    simp only [Request.perform, hrun, planFor_of_not_cached (p := p.uncached) rfl, hrun']
    exact (hserves hok).alike hy
  | calculate wanted args =>
    obtain ⟨x, p', hrun, hserves, -, -, hsame⟩ :=
      planFor_spec h args.keys fun n hn => hq n (List.mem_append_left _ hn)
    obtain ⟨y, p'', hrun', hy, -, -, hsame', -⟩ := compile_spec hu wanted args.keys
    simp only [Request.perform, planAndCall_run, hrun, planFor_of_not_cached (p := p.uncached) rfl,
      hrun', hy, hsame.registry, hsame'.registry]
    exact (hserves hok).invoked_agree _ args

/-- **What is kept does not show.** After any requests, successful or not, a request to a planner is
answered as by a planner over the same registry that keeps nothing. If the registry has changed
since some moment, no answer has been made before that moment. -/
theorem answers_agree_uncached (r : Registry V E) (config : Config)
    (before between : List (Request V E)) (q : Request V E)
    (hr : r.InputsSatisfy Names.IsPlain)
    (hq : ∀ q' ∈ before ++ between ++ [q], ∀ n ∈ q'.names, Names.IsPlain n) :
    let p : Planner V E := { registry := r, config }
    let p₁ := p.after before
    let p₂ := p₁.after between
    (q.perform p₂).1.Agree (q.perform p₂.uncached).1 ∧
      (p₂.registry.version ≠ p₁.registry.version →
        ∀ stamp, (q.perform p₂).1.stamp? = some stamp → p₁.issued ≤ stamp) := by
  intro p p₁ p₂
  have hq₁ : ∀ q' ∈ before, ∀ n ∈ q'.names, Names.IsPlain n := fun q' h => hq q' (by simp [h])
  have hq₂ : ∀ q' ∈ between, ∀ n ∈ q'.names, Names.IsPlain n := fun q' h => hq q' (by simp [h])
  have hq₃ : ∀ n ∈ q.names, Names.IsPlain n := hq q (by simp)
  have h₁ : Coherent Names.IsPlain 0 p₁ := ((coherent_of_fresh hr config).after hq₁).1
  have h₂ : Coherent Names.IsPlain 0 p₂ := (h₁.after hq₂).1
  refine ⟨h₂.answer_agree (fun _ h => h) hq₃, fun hv stamp hs => ?_⟩
  exact stamp_of_answer (h₁.after_change hq₂ hv) hq₃ hs

/-- The theorem at a plan that is asked for again after its operation has been overridden. -/
theorem answers_agree_uncached_of_override :
    let twice : Operation Nat Unit :=
      { output := "b", inputs := ["a"], isAsync := false
        impl :=
          { label := "twice", style := .plain, pauses := 0, apply := fun vs => .ok (2 * vs.sum) } }
    let p : Planner Nat Unit := { registry := { operations := [twice] } }
    let p₁ := p.after [.planFor ["b"] []]
    let p₂ := p₁.after [.register { twice with inputs := ["c"] } none]
    let q : Request Nat Unit := .planFor ["b"] []
    (q.perform p₂).1.Agree (q.perform p₂.uncached).1 ∧
      ∀ stamp, (q.perform p₂).1.stamp? = some stamp → p₁.issued ≤ stamp := by
  intro twice p p₁ p₂ q
  have h := answers_agree_uncached p.registry {} [.planFor ["b"] []]
    [.register { twice with inputs := ["c"] } none] q
    (by simp [Registry.InputsSatisfy, Names.IsPlain, p, twice])
    (by simp [Request.names, Names.IsPlain, q, twice])
  exact ⟨h.1, h.2 (by cbv)⟩

end DemandPlan.Planner
