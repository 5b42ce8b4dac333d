import DemandPlan.Planner
import DemandPlan.Proofs.Sharing

/-!
# Requests to a planner

A planner is asked one request after the other, some of which change its registry. The answer of a
planner is compared with that of a planner that keeps nothing and has the same registry.

* `Planner.Request.perform`: the answer to one request, and the planner after it.
* `Planner.Answer.Agree`: answers that say the same; a plan may have its outputs in another order.
* `Registry.Follows`: a registry after some changes.
-/

namespace DemandPlan

variable {V E : Type}

namespace Planner

/-- What a planner and its registry can be asked. -/
inductive Request (V E : Type)
  | register (op : Operation V E) (override : Option Bool)
  | registerMany (ops : List (Operation V E))
  | unregister (name : String)
  | forget
  | requirements (wanted hints : List String)
  | params (wanted hints : List String)
  | compile (wanted hints : List String)
  | planFor (wanted hints : List String)
  | calculate (wanted : List String) (args : Table V)

/-- What they answer. -/
inductive Answer (V E : Type)
  | changed (outcome : Except (Failure E) Unit)
  | removed (outcome : Except (Failure E) Bool)
  | requirements (outcome : Except (Failure E) (Stamped (Requirements V E)))
  /-- The parameters and the intermediates of a query. -/
  | params (outcome : Except (Failure E) (Stamped (List String × List String)))
  | compiled (outcome : Except (Failure E) (Stamped (Plan V E)))
  | plan (outcome : Except (Failure E) (Stamped (Plan V E)))
  /-- What comes of a call, with the stamp of the plan that has been called. -/
  | invocation (stamp : Option Nat) (invocation : Invocation V E)

namespace Request

/-- The names that a request is about. -/
def names : Request V E → List String
  | .register op _ => op.output :: op.inputs
  | .registerMany ops => ops.flatMap fun op => op.output :: op.inputs
  | .unregister name => [name]
  | .forget => []
  | .requirements wanted hints | .params wanted hints | .compile wanted hints
  | .planFor wanted hints => wanted ++ hints
  | .calculate wanted args => wanted ++ args.keys

/-- The answer to a request, and the planner after it. -/
def perform (p : Planner V E) : Request V E → Answer V E × Planner V E
  | .register op override =>
    let (x, p) := (Planner.register op override).run.run p
    (.changed x, p)
  | .registerMany ops =>
    let (registry, x) := p.registry.registerMany ops
    (.changed (x.mapError .reported), { p with registry })
  | .unregister name =>
    let (x, p) := (Planner.unregister name).run.run p
    (.removed x, p)
  | .forget => (.changed (.ok ()), p.forget)
  | .requirements wanted hints =>
    let (x, p) := (Planner.requirements wanted hints).run.run p
    (.requirements x, p)
  | .params wanted hints =>
    let (x, p) := (Planner.requirements wanted hints).run.run p
    (.params (x.map fun q => ⟨q.stamp, (q.value.params, q.value.intermediates)⟩), p)
  | .compile wanted hints =>
    let (x, p) := (Planner.compile wanted hints).run.run p
    (.compiled x, p)
  | .planFor wanted hints =>
    let (x, p) := (Planner.planFor wanted hints).run.run p
    (.plan x, p)
  | .calculate wanted args =>
    let ((plan, i), p) := (planAndCall wanted args).run p
    (.invocation (plan.toOption.map Stamped.stamp) i, p)

end Request

/-- The planner after some requests. -/
def after (p : Planner V E) (requests : List (Request V E)) : Planner V E :=
  requests.foldl (fun p q => (q.perform p).2) p

/-- A planner that keeps nothing, over the same registry. -/
def uncached (p : Planner V E) : Planner V E :=
  { registry := p.registry, config := { p.config with cachePlans := false, memoSize := 0 } }

namespace Answer

/-- Answers that say the same. When something was made does not count, and a plan that may be kept
for other queries may have its outputs in another order. -/
def Agree : Answer V E → Answer V E → Prop
  | .changed x, .changed y => x = y
  | .removed x, .removed y => x = y
  | .requirements x, .requirements y => Outcome.Agree (fun q q' => q.value = q'.value) x y
  | .params x, .params y => Outcome.Agree (fun q q' => q.value = q'.value) x y
  | .compiled x, .compiled y => Outcome.Agree (fun p p' => p.value = p'.value) x y
  | .plan x, .plan y => Outcome.Agree (fun p p' => p.value.Alike p'.value) x y
  | .invocation _ i, .invocation _ j => i.Agree j
  | _, _ => False

/-- The stamp of what has been answered, or of the plan that gave the answer: it tells when this was
made. -/
def stamp? : Answer V E → Option Nat
  | .requirements x => x.toOption.map Stamped.stamp
  | .params x => x.toOption.map Stamped.stamp
  | .compiled x | .plan x => x.toOption.map Stamped.stamp
  | .invocation stamp _ => stamp
  | .changed _ | .removed _ => none

end Answer

end Planner

/-! ## Changes of a registry -/

namespace Registry

variable {r r' : Registry V E}

/-- The inputs of all operations satisfy a condition. -/
def InputsSatisfy (ok : String → Prop) (r : Registry V E) : Prop :=
  ∀ op ∈ r.operations, ∀ i ∈ op.inputs, ok i

/-- A registry after some changes: if there was one, it can be seen from the version. -/
def Follows (r r' : Registry V E) : Prop := r' = r ∨ r.version < r'.version

theorem Follows.trans {r'' : Registry V E} (h : Follows r r') (h' : Follows r' r'') :
    Follows r r'' := by
  rcases h with rfl | h
  · exact h'
  · rcases h' with rfl | h'
    · exact .inr h
    · exact .inr (Nat.lt_trans h h')

theorem Follows.version_le (h : Follows r r') : r.version ≤ r'.version := by
  rcases h with rfl | h
  · exact Nat.le_refl _
  · exact Nat.le_of_lt h

/-- A later registry with the same version is the same registry. -/
theorem Follows.eq_of_version (h : Follows r r') (hv : r'.version = r.version) : r' = r :=
  h.resolve_right fun hlt => Nat.lt_irrefl _ (hv ▸ hlt)

theorem version_place (r : Registry V E) (op : Operation V E) :
    (r.place op).version = r.version + 1 := by
  unfold place
  split <;> rfl

theorem mem_operations_place {op op' : Operation V E} (h : op' ∈ (r.place op).operations) :
    op' = op ∨ op' ∈ r.operations := by
  unfold place at h
  split at h
  · obtain ⟨o, ho, rfl⟩ := List.mem_map.1 h
    split
    · exact .inl rfl
    · exact .inr ho
  · rcases List.mem_append.1 h with h | h
    · exact .inr h
    · exact .inl (List.mem_singleton.1 h)

theorem eq_place_of_register {op : Operation V E} {override : Option Bool}
    (h : r.register op override = .ok r') : r' = r.place op := by
  unfold register at h
  split at h
  · cases h
  · exact (Except.ok.inj h).symm

theorem follows_place (r : Registry V E) (op : Operation V E) : Follows r (r.place op) :=
  .inr (version_place r op ▸ Nat.lt_succ_self _)

theorem follows_registerMany (r : Registry V E) (ops : List (Operation V E)) :
    Follows r (r.registerMany ops).1 := by
  induction ops generalizing r with
  | nil => exact .inl rfl
  | cons op ops ih =>
    rw [registerMany]
    split
    · next r' h =>
      obtain rfl := eq_place_of_register h
      exact (follows_place r op).trans (ih _)
    · exact .inl rfl

theorem follows_remove (r : Registry V E) (name : String) : Follows r (r.remove name) := by
  unfold remove
  split
  · exact .inr (Nat.lt_succ_self _)
  · exact .inl rfl

variable {ok : String → Prop}

theorem InputsSatisfy.place (h : r.InputsSatisfy ok) {op : Operation V E}
    (hop : ∀ i ∈ op.inputs, ok i) : (r.place op).InputsSatisfy ok := by
  intro op' hop'
  rcases mem_operations_place hop' with rfl | hop'
  · exact hop
  · exact h op' hop'

theorem InputsSatisfy.registerMany (h : r.InputsSatisfy ok) {ops : List (Operation V E)}
    (hops : ∀ op ∈ ops, ∀ i ∈ op.inputs, ok i) : (r.registerMany ops).1.InputsSatisfy ok := by
  induction ops generalizing r with
  | nil => exact h
  | cons op ops ih =>
    rw [Registry.registerMany]
    split
    · next r' hr =>
      obtain rfl := eq_place_of_register hr
      exact ih (h.place (hops op List.mem_cons_self)) fun op hop =>
        hops op (List.mem_cons_of_mem _ hop)
    · exact h

theorem InputsSatisfy.remove (h : r.InputsSatisfy ok) (name : String) :
    (r.remove name).InputsSatisfy ok := by
  unfold Registry.remove
  split
  · exact fun op hop => h op (List.mem_filter.1 hop).1
  · exact h

end Registry

end DemandPlan
