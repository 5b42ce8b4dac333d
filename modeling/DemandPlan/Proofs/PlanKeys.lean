import DemandPlan.Proofs.Transparency

/-!
# What the keys of kept plans tell

A kept plan is found by two keys, one for the wanted outputs and one for the parameters, and by
nothing else. So a plan that is given out computes the wanted outputs of the query from its
parameters as far as the keys tell one set of names from another. They do if all names are plain.

* `KeysRight.keys_eq`: a plan that is given out has the keys of the query, whatever the names.
* `KeysRight.same_names`: if the names are plain, it has the outputs and the parameters of the
  query.
* `exists_planFor_of_other_outputs`: with a NUL in a name, it may be a plan for other outputs.
-/

namespace DemandPlan.Planner

open Requirements

variable {V E : Type} {r : Registry V E} {ok : String → Prop} {since : Nat}
  {wanted hints : List String} {plan : Stamped (Plan V E)}

/-- A plan that is given out has the keys of the query. -/
theorem KeysRight.keys_eq (h : KeysRight ok since r wanted hints plan) :
    Names.canonicalKey plan.value.record.returns = Names.canonicalKey wanted ∧
      Names.canonicalKey plan.value.record.params =
        Names.canonicalKey (find r wanted hints).params := by
  obtain ⟨-, wanted', hints', -, -, houtputs, hparams, hplan⟩ := h
  rw [Plan.returns_of_ofQuery hplan, Names.canonicalKey_distinct]
  exact ⟨houtputs.symm, hparams.symm⟩

/-- If all names are plain, it has the outputs and the parameters of the query. -/
theorem KeysRight.same_names (h : KeysRight ok since r wanted hints plan)
    (hok : ∀ n, ok n → Names.IsPlain n) (hr : r.InputsSatisfy ok) (hw : ∀ n ∈ wanted, ok n) :
    (∀ n, n ∈ plan.value.record.returns ↔ n ∈ wanted) ∧
      plan.value.record.params = (find r wanted hints).params := by
  obtain ⟨houtputs, hparams⟩ := h.keys_eq
  obtain ⟨-, wanted', hints', -, hw', -, -, hplan⟩ := h
  rw [Plan.returns_of_ofQuery hplan] at houtputs ⊢
  rw [Plan.params_of_ofQuery hplan] at hparams ⊢
  have hplain : ∀ {wanted hints : List String}, (∀ n ∈ wanted, ok n) →
      ∀ n ∈ (find r wanted hints).params, Names.IsPlain n := fun hw n hn =>
    hok n (needed_ok hr hw (mem_params_iff.1 hn).1)
  constructor
  · refine (Names.canonicalKey_eq_iff (fun n hn => ?_) fun n hn => hok n (hw n hn)).1 houtputs
    exact hok n (hw' n (Names.mem_distinct.1 hn))
  · exact params_eq_of_mem_iff ((Names.canonicalKey_eq_iff (hplain hw') (hplain hw)).1 hparams)

/-- **What the keys of kept plans tell.** Lists of names without NUL have the same key just in case
they have the same names, apart from the empty list and the empty name; but every key is also the
key of a single name. After any requests, a plan that is given out has the keys of the query. If all
names are plain, it computes the wanted outputs and needs the parameters of the query. -/
theorem planFor_keys (r : Registry V E) (config : Config) (before : List (Request V E))
    (wanted hints : List String) :
    let p := ({ registry := r, config } : Planner V E).after before
    (∀ a b : List String, (∀ n ∈ a ++ b, '\x00' ∉ n.toList) →
      (Names.canonicalKey a = Names.canonicalKey b ↔
        (∀ n, n ∈ a ↔ n ∈ b) ∨ ∀ n ∈ a ++ b, n = "")) ∧
    (∀ a, Names.canonicalKey [Names.canonicalKey a] = Names.canonicalKey a) ∧
    ∀ plan p', (planFor wanted hints).run.run p = (.ok plan, p') →
      Names.canonicalKey plan.value.record.returns = Names.canonicalKey wanted ∧
      Names.canonicalKey plan.value.record.params =
        Names.canonicalKey (find p.registry wanted hints).params ∧
      (r.InputsSatisfy Names.IsPlain →
        (∀ q ∈ before ++ [.planFor wanted hints], ∀ n ∈ q.names, Names.IsPlain n) →
        (∀ n, n ∈ plan.value.record.returns ↔ n ∈ wanted) ∧
          plan.value.record.params = (find p.registry wanted hints).params) := by
  intro p
  refine ⟨fun a b h => ?_, fun a => Names.canonicalKey_singleton _, fun plan p' hrun => ?_⟩
  · rw [List.forall_mem_append] at h
    exact Names.canonicalKey_eq_iff_of_nulFree h.1 h.2
  -- The invariant is used twice: for any names, which gives the keys, and for plain ones, where the
  -- keys determine the names.
  have hkeys : ∀ {ok : String → Prop}, Coherent ok 0 p → (∀ n ∈ wanted, ok n) →
      KeysRight ok 0 p.registry (Names.distinct wanted) hints plan := by
    intro ok hcoh hw
    obtain ⟨x, p'', hrun', -, hright, -⟩ := planFor_spec hcoh hints hw
    exact hright plan (Prod.mk.inj (hrun'.symm.trans hrun)).1
  obtain ⟨houtputs, hparams⟩ :=
    (hkeys (coherent_after_of_fresh r config before) fun _ _ => trivial).keys_eq
  rw [Names.canonicalKey_distinct] at houtputs
  rw [params_find_distinct] at hparams
  refine ⟨houtputs, hparams, fun hr hq => ?_⟩
  rw [List.forall_mem_append] at hq
  have hcoh : Coherent Names.IsPlain 0 p := ((coherent_of_fresh hr config).after hq.1).1
  have hw : ∀ n ∈ wanted, Names.IsPlain n := fun n hn =>
    hq.2 _ (List.mem_singleton_self _) n (List.mem_append_left _ hn)
  obtain ⟨hreturns, hlist⟩ := (hkeys hcoh hw).same_names (fun _ h => h) hcoh.inputs
    fun n hn => hw n (Names.mem_distinct.1 hn)
  rw [params_find_distinct] at hlist
  exact ⟨fun n => (hreturns n).trans Names.mem_distinct, hlist⟩

/-- The theorem at a plan that was compiled for the outputs in another order. -/
theorem planFor_keys_of_reordered :
    let double (output : String) : Operation Nat Unit :=
      { output, inputs := ["a"], isAsync := false
        impl :=
          { label := output, style := .plain, pauses := 0, apply := fun vs => .ok (2 * vs.sum) } }
    let r : Registry Nat Unit := { operations := [double "b", double "c"], nodup := by decide }
    let p := ({ registry := r } : Planner Nat Unit).after [.planFor ["c", "b"] ["a"]]
    Names.canonicalKey ["", "b"] ≠ Names.canonicalKey ["b"] ∧
      ∃ plan p', (planFor ["b", "c", "b"] []).run.run p = (.ok plan, p') ∧ plan.stamp = 1 ∧
        (∀ n, n ∈ plan.value.record.returns ↔ n ∈ ["b", "c", "b"]) ∧
        plan.value.record.params = ["a"] := by
  intro double r p
  have hr : r.InputsSatisfy Names.IsPlain := by
    simp [Registry.InputsSatisfy, Names.IsPlain, r, double]
  obtain ⟨hkeys, -, hserved⟩ :=
    planFor_keys r {} [.planFor ["c", "b"] ["a"]] ["b", "c", "b"] []
  have hstamp : (((planFor ["b", "c", "b"] []).run.run p).1.toOption.map Stamped.stamp) =
      some 1 := by
    unfold p
    cbv
  have hparams : (find p.registry ["b", "c", "b"] []).params = ["a"] := by
    unfold p
    cbv
  refine ⟨?_, ?_⟩
  · rw [ne_eq, hkeys ["", "b"] ["b"] (by simp)]
    rintro (h | h)
    · simpa using h ""
    · simpa using h "b"
  · generalize hrun : (planFor ["b", "c", "b"] []).run.run p = result at hstamp
    obtain ⟨_ | plan, p'⟩ := result
    · cases hstamp
    · obtain ⟨-, -, hplain⟩ := hserved plan p' hrun
      obtain ⟨hreturns, hlist⟩ := hplain hr (by simp [Request.names, Names.IsPlain])
      exact ⟨plan, p', rfl, Option.some.inj hstamp, hreturns, hlist.trans hparams⟩

/-- With a NUL in a name, a plan for two outputs is found under the key of one. With an empty name,
a plan without outputs is found where this name is wanted. -/
theorem exists_planFor_of_other_outputs :
    let double (output : String) : Operation Nat Unit :=
      { output, inputs := ["x"], isAsync := false
        impl :=
          { label := output, style := .plain, pauses := 0, apply := fun vs => .ok (2 * vs.sum) } }
    let r : Registry Nat Unit :=
      { operations := [double "a", double "b", double "a\x00b"], nodup := by decide }
    let p : Planner Nat Unit := { registry := r }
    let returns (q q' : List String) : Option (List String) :=
      ((planFor q' []).run.run (p.after [.planFor q []])).1.toOption.map
        fun plan => plan.value.record.returns
    Names.canonicalKey ["a", "b"] = Names.canonicalKey ["a\x00b"] ∧
      returns ["a", "b"] ["a\x00b"] = some ["a", "b"] ∧
      Names.canonicalKey [] = Names.canonicalKey [""] ∧ returns [] [""] = some [] := by
  cbv

end DemandPlan.Planner
