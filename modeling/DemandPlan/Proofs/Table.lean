import DemandPlan.Table
import DemandPlan.Proofs.Names
import Mathlib.Data.List.Induction

/-!
# Tables from lists

What a table holds, pair by pair, and how it is filled from a list of pairs.

* `find?_eq_some_iff`: look-up is membership of a pair.
* `entries_ofList`, `merge_ofList`: pairs with distinct names stay as they are, in their order.
* `find?_ofList_eq_some_iff`, `find?_ofList_map_eq_some_iff`: of pairs with the same name the last
  one counts.
* `find?_merge`: of two tables put together the second one counts.
* `restrict`: the part of a table that is about some names.
-/

namespace DemandPlan.Table

variable {α β : Type}

/-! ## Entries -/

theorem mem_iff_exists_find? {t : Table α} {k : String} : k ∈ t ↔ ∃ v, t.find? k = some v := by
  rw [← find?_isSome_iff, Option.isSome_iff_exists]

@[simp] theorem contains_eq_decide (t : Table α) (k : String) :
    t.contains k = decide (k ∈ t) := by
  rw [contains, List.contains_eq_mem]
  rfl

theorem mem_of_find? {t : Table α} {k : String} {v : α} (h : t.find? k = some v) : k ∈ t :=
  mem_iff_exists_find?.2 ⟨v, h⟩

theorem lookup_eq_some_iff {es : List (String × α)} (h : (es.map Prod.fst).Nodup) {k : String}
    {v : α} : es.lookup k = some v ↔ (k, v) ∈ es := by
  induction es with
  | nil => simp
  | cons e es ih =>
    obtain ⟨a, b⟩ := e
    obtain ⟨ha, hes⟩ := List.nodup_cons.1 h
    rw [lookup_cons_eq_ite, List.mem_cons, Prod.mk.injEq]
    by_cases hk : k = a
    · subst hk
      have hnot : (k, v) ∉ es := fun hm => ha (List.mem_map.2 ⟨_, hm, rfl⟩)
      simp [hnot, eq_comm]
    · rw [if_neg hk, ih hes]
      simp [hk]

theorem find?_eq_some_iff {t : Table α} {k : String} {v : α} :
    t.find? k = some v ↔ (k, v) ∈ t.entries :=
  lookup_eq_some_iff t.nodup

theorem entries_insert_of_not_mem {t : Table α} {k : String} (h : k ∉ t) (v : α) :
    (t.insert k v).entries = t.entries ++ [(k, v)] := by
  unfold insert
  rw [dif_neg (mt mem_def.2 h)]

theorem filter_replaced (k : String) (v : α) (es : List (String × α)) :
    (replaced k v es).filter (fun e => decide (e.1 ≠ k)) = es.filter fun e => decide (e.1 ≠ k) := by
  induction es with
  | nil => rfl
  | cons e es ih =>
    have hcons : replaced k v (e :: es) = (if e.1 = k then (k, v) else e) :: replaced k v es := rfl
    rw [hcons, List.filter_cons, List.filter_cons, ih]
    by_cases he : e.1 = k <;> simp [he]

/-- A name that is written and then erased leaves no trace. -/
theorem erase_insert_self (t : Table α) (k : String) (v : α) :
    (t.insert k v).erase k = t.erase k := by
  refine Table.ext ?_
  unfold erase insert
  split
  · exact filter_replaced k v t.entries
  · simp

theorem mapM_find?_eq_some {t : Table α} {names : List String} {vs : List α}
    (h : names.mapM t.find? = some vs) : List.Forall₂ (fun n v => t.find? n = some v) names vs := by
  induction names generalizing vs with
  | nil =>
    rw [List.mapM_nil] at h
    obtain rfl := Option.some.inj h
    exact .nil
  | cons n names ih =>
    rw [List.mapM_cons] at h
    obtain ⟨v, hv, h⟩ := Option.bind_eq_some_iff.1 h
    obtain ⟨vs', hvs, h⟩ := Option.bind_eq_some_iff.1 h
    obtain rfl := Option.some.inj h
    exact .cons hv (ih hvs)

/-! ## Filling a table -/

/-- Pairs with new and distinct names are put at the end. -/
theorem entries_foldl_insert {es : List (String × α)} {t : Table α}
    (h : ((t.entries ++ es).map Prod.fst).Nodup) :
    (es.foldl (fun t e => t.insert e.1 e.2) t).entries = t.entries ++ es := by
  induction es generalizing t with
  | nil => simp
  | cons e es ih =>
    have hnot : e.1 ∉ t := by
      rw [List.map_append, List.nodup_append] at h
      exact fun hm => h.2.2 _ (mem_def.1 hm) _ (by simp) rfl
    have happ : t.entries ++ e :: es = (t.insert e.1 e.2).entries ++ es := by
      rw [entries_insert_of_not_mem hnot]
      simp
    rw [List.foldl_cons, ih (by rw [← happ]; exact h), ← happ]

theorem entries_ofList {es : List (String × α)} (h : (es.map Prod.fst).Nodup) :
    (ofList es).entries = es :=
  entries_foldl_insert (t := empty) (by simpa [empty] using h)

theorem ofList_snoc (es : List (String × α)) (e : String × α) :
    ofList (es ++ [e]) = (ofList es).insert e.1 e.2 := by
  simp [ofList]

theorem mem_ofList {es : List (String × α)} {k : String} : k ∈ ofList es ↔ k ∈ es.map Prod.fst := by
  induction es using List.reverseRecOn with
  | nil => simp [ofList, mem_def]
  | append_singleton es e ih => rw [ofList_snoc, mem_insert, ih]; simp [or_comm]

/-- **The last pair counts.** A name has the value of the pair after which it does not occur. -/
theorem find?_ofList_eq_some_iff {es : List (String × α)} {k : String} {v : α} :
    (ofList es).find? k = some v ↔
      ∃ before after, es = before ++ (k, v) :: after ∧ ∀ e ∈ after, e.1 ≠ k := by
  -- From the end, as the last pair is the one that counts.
  induction es using List.reverseRecOn with
  | nil => simp [ofList]
  | append_singleton es e ih =>
    rw [ofList_snoc, find?_insert]
    constructor
    · intro h
      split at h
      · next hk =>
        obtain rfl := Option.some.inj h
        exact ⟨es, [], by rw [hk], by simp⟩
      · next hk =>
        obtain ⟨before, after, rfl, hafter⟩ := ih.1 h
        refine ⟨before, after ++ [e], by simp, fun e' he' => ?_⟩
        rcases List.mem_append.1 he' with he' | he'
        · exact hafter e' he'
        · obtain rfl := List.mem_singleton.1 he'
          exact Ne.symm hk
    · rintro ⟨before, after, he, hafter⟩
      rcases List.eq_nil_or_concat after with rfl | ⟨after, e', rfl⟩
      · obtain ⟨-, he⟩ := List.append_inj' he rfl
        obtain rfl := List.singleton_inj.1 he
        simp
      · have he : es ++ [e] = (before ++ (k, v) :: after) ++ [e'] := by simpa using he
        obtain ⟨rfl, h'⟩ := List.append_inj' he rfl
        obtain rfl := List.singleton_inj.1 h'
        rw [if_neg (Ne.symm (hafter e (by simp)))]
        exact ih.2 ⟨before, after, rfl, fun e' he' => hafter e' (by simp [he'])⟩

theorem find?_ofList_map_eq_some_iff {f : β → String × α} {l : List β} {k : String} {v : α} :
    (ofList (l.map f)).find? k = some v ↔
      ∃ before b after, l = before ++ b :: after ∧ f b = (k, v) ∧ ∀ b' ∈ after, (f b').1 ≠ k := by
  rw [find?_ofList_eq_some_iff]
  constructor
  · rintro ⟨_, _, hmap, hafter⟩
    obtain ⟨before, rest, rfl, -, hrest⟩ := List.map_eq_append_iff.1 hmap
    obtain ⟨b, after, rfl, hb, rfl⟩ := List.map_eq_cons_iff.1 hrest
    exact ⟨before, b, after, rfl, hb, fun b' hb' => hafter _ (List.mem_map_of_mem hb')⟩
  · rintro ⟨before, b, after, rfl, hb, hafter⟩
    rw [List.map_append, List.map_cons, hb]
    exact ⟨_, _, rfl, List.forall_mem_map.2 hafter⟩

/-- Two lists with distinct names give the table of both, one after the other. -/
theorem merge_ofList {es fs : List (String × α)} (h : ((es ++ fs).map Prod.fst).Nodup) :
    (ofList es).merge (ofList fs) = ofList (es ++ fs) := by
  have hfs : (fs.map Prod.fst).Nodup := by
    rw [List.map_append, List.nodup_append] at h
    exact h.2.1
  unfold merge
  rw [entries_ofList hfs]
  simp [ofList]

/-- In two tables put together, the second one counts. -/
theorem find?_merge (s t : Table α) (k : String) :
    (s.merge t).find? k = (t.find? k).or (s.find? k) := by
  have hfold : ∀ (es : List (String × α)) (s : Table α), (es.map Prod.fst).Nodup →
      (es.foldl (fun u e => u.insert e.1 e.2) s).find? k = (es.lookup k).or (s.find? k) := by
    intro es
    induction es with
    | nil => intro s _; simp
    | cons e es ih =>
      intro s hn
      obtain ⟨hnew, hn⟩ := List.nodup_cons.1 hn
      rw [List.foldl_cons, ih _ hn, find?_insert, lookup_cons_eq_ite]
      split
      · next hk => simp [lookup_eq_none_iff.2 (hk ▸ hnew)]
      · rfl
  exact hfold t.entries s t.nodup

theorem mem_merge {s t : Table α} {k : String} : k ∈ s.merge t ↔ k ∈ s ∨ k ∈ t := by
  rw [← find?_isSome_iff, find?_merge, Option.isSome_or, Bool.or_eq_true, find?_isSome_iff,
    find?_isSome_iff, or_comm]

/-! ## Parts of a table -/

/-- The part of a table that is about some names. -/
def restrict (t : Table α) (names : List String) : Table α :=
  ⟨t.entries.filter fun e => e.1 ∈ names, t.nodup.sublist (List.filter_sublist.map _)⟩

theorem keys_restrict (t : Table α) (names : List String) :
    (t.restrict names).keys = t.keys.filter fun n => decide (n ∈ names) := by
  simp [restrict, keys, List.filter_map, Function.comp_def]

/-- Tables that hold the same pairs differ in the order of their names only. -/
theorem entries_perm {s t : Table α} (h : ∀ e, e ∈ s.entries ↔ e ∈ t.entries) :
    s.entries.Perm t.entries :=
  (List.perm_ext_iff_of_nodup (.of_map _ s.nodup) (.of_map _ t.nodup)).2 h

end DemandPlan.Table
