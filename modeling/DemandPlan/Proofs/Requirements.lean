import DemandPlan.Requirements
import DemandPlan.Proofs.Names
import Mathlib.Logic.Relation

/-!
# What a query needs

The names of a query are the wanted ones and, again and again, the inputs of the operations that
compute them (`Needed`). The walk of `Requirements.reach` finds exactly these.

* `mem_reach_iff`: the walk meets the needed names, each with the operation that computes it.
* `reach_append`: the walk takes the names on its stack one after the other.
* `mem_params_iff`, `mem_operations_iff`: the parameters are the needed names that nobody computes,
  the operations are those that compute the others.
* `find_congr`, `find_congr_hints`: of the hints only those count that are met, and only as a set.
* `SameNeeds.operations_perm`, `SameNeeds.params_eq`: queries that need the same names need the same
  operations and have the same parameters.
-/

namespace DemandPlan.Requirements

variable {V E : Type} {r : Registry V E} {hints wanted : List String}

/-- To compute the first name, the second one is read. -/
def Reads (r : Registry V E) (hints : List String) (name input : String) : Prop :=
  ∃ op, producer r hints name = some op ∧ input ∈ op.inputs

theorem reads_iff {name input : String} {op : Operation V E} (h : producer r hints name = some op) :
    Reads r hints name input ↔ input ∈ op.inputs := by
  refine ⟨fun ⟨op', h', hi⟩ => ?_, fun hi => ⟨op, h, hi⟩⟩
  rw [h, Option.some.injEq] at h'
  exact h' ▸ hi

/-- The names that come up when some names are wanted. -/
inductive Needed (r : Registry V E) (hints wanted : List String) : String → Prop
  | wanted {name : String} : name ∈ wanted → Needed r hints wanted name
  | input {name input : String} :
    Needed r hints wanted name → Reads r hints name input → Needed r hints wanted input

theorem Needed.trans {wanted' : List String} (h : ∀ n ∈ wanted, Needed r hints wanted' n)
    {name : String} (hn : Needed r hints wanted name) : Needed r hints wanted' name := by
  induction hn with
  | wanted hw => exact h _ hw
  | input _ hr ih => exact .input ih hr

/-- A name that is computed in finitely many steps: every way down along the inputs ends. -/
def Grounded (r : Registry V E) (hints : List String) : String → Prop :=
  Acc fun input name => Reads r hints name input

theorem grounded_of_producer_none {name : String} (h : producer r hints name = none) :
    Grounded r hints name := by
  refine Acc.intro _ fun i ⟨op, hop, _⟩ => ?_
  rw [h] at hop
  cases hop

theorem grounded_of_inputs {name : String} {op : Operation V E}
    (h : producer r hints name = some op) (hi : ∀ i ∈ op.inputs, Grounded r hints i) :
    Grounded r hints name := by
  exact Acc.intro _ fun i hr => hi i ((reads_iff h).1 hr)

/-- From a name every way down from which ends, no way leads back to it. -/
theorem not_transGen_of_acc {R : String → String → Prop} {name : String}
    (h : Acc (Function.swap R) name) : ¬Relation.TransGen R name name := by
  have hacc : Acc (Relation.TransGen (Function.swap R)) name := h.transGen
  rw [← Relation.transGen_swap]
  clear h
  induction hacc with
  | intro n _ ih => exact fun hc => ih n hc hc

/-- A grounded name does not need itself. -/
theorem Grounded.irrefl {name : String} (h : Grounded r hints name) :
    ¬Relation.TransGen (Reads r hints) name name :=
  not_transGen_of_acc h

theorem lookup_of_producer {name : String} {op : Operation V E}
    (h : producer r hints name = some op) : r.lookup name = some op := by
  unfold producer at h
  split at h
  · cases h
  · exact h

theorem output_of_producer {name : String} {op : Operation V E}
    (h : producer r hints name = some op) : op.output = name :=
  Registry.output_of_lookup (lookup_of_producer h)

theorem producer_of_mem_hints {name : String} (h : name ∈ hints) :
    producer r hints name = none := if_pos h

theorem not_mem_hints_of_producer {name : String} {op : Operation V E}
    (h : producer r hints name = some op) : name ∉ hints := fun hm => by
  rw [producer_of_mem_hints hm] at h
  cases h

theorem producer_of_not_mem_hints {name : String} (h : name ∉ hints) :
    producer r hints name = r.lookup name := if_neg h

theorem producer_eq_some_iff {name : String} {op : Operation V E} :
    producer r hints name = some op ↔ name ∉ hints ∧ r.lookup name = some op := by
  constructor
  · exact fun h => ⟨not_mem_hints_of_producer h, lookup_of_producer h⟩
  · rintro ⟨hh, h⟩
    rwa [producer_of_not_mem_hints hh]

theorem producer_eq_none_iff {name : String} :
    producer r hints name = none ↔ name ∈ hints ∨ r.lookup name = none := by
  by_cases hh : name ∈ hints
  · simp [hh, producer_of_mem_hints]
  · simp [hh, producer_of_not_mem_hints]

/-! ## The walk -/

section Walk

variable {name : String} {stack visited : List String}

theorem reach_cons_of_mem (h : name ∈ visited) :
    reach r hints (name :: stack) visited = reach r hints stack visited := by
  rw [reach, dif_pos h]

theorem reach_cons_of_none (h : name ∉ visited) (hp : producer r hints name = none) :
    reach r hints (name :: stack) visited =
      (name, none) :: reach r hints stack (name :: visited) := by
  rw [reach, dif_neg h]
  split
  · rfl
  · next op hp' => rw [hp] at hp'; cases hp'

theorem reach_cons_of_some {op : Operation V E} (h : name ∉ visited)
    (hp : producer r hints name = some op) :
    reach r hints (name :: stack) visited =
      (name, some op) :: reach r hints (op.inputs ++ stack) (name :: visited) := by
  rw [reach, dif_neg h]
  split
  · next hp' => rw [hp] at hp'; cases hp'
  · next op' hp' =>
    rw [hp] at hp'
    cases hp'
    rfl

end Walk

theorem producer_of_mem_reach {stack visited : List String} {m : String × Option (Operation V E)}
    (h : m ∈ reach r hints stack visited) : m.2 = producer r hints m.1 := by
  fun_induction reach r hints stack visited with
  | case1 => cases h
  | case2 visited name stack hv ih => exact ih h
  | case3 visited name stack hv hp ih =>
    rcases List.mem_cons.1 h with rfl | h
    · exact hp.symm
    · exact ih h
  | case4 visited name stack hv op hp _ ih =>
    rcases List.mem_cons.1 h with rfl | h
    · exact hp.symm
    · exact ih h

/-- The walk meets a name at most once, and no name that it has met before. -/
theorem nodup_reach (stack visited : List String) :
    ((reach r hints stack visited).map Prod.fst).Nodup ∧
      ∀ n ∈ (reach r hints stack visited).map Prod.fst, n ∉ visited := by
  fun_induction reach r hints stack visited with
  | case1 => simp
  | case2 visited name stack hv ih => exact ih
  | case3 visited name stack hv hp ih =>
    simp only [List.map_cons, List.nodup_cons, List.mem_cons, forall_eq_or_imp]
    exact ⟨⟨fun hm => ih.2 _ hm List.mem_cons_self, ih.1⟩, hv,
      fun n hn hnv => ih.2 n hn (List.mem_cons_of_mem _ hnv)⟩
  | case4 visited name stack hv op hp _ ih =>
    simp only [List.map_cons, List.nodup_cons, List.mem_cons, forall_eq_or_imp]
    exact ⟨⟨fun hm => ih.2 _ hm List.mem_cons_self, ih.1⟩, hv,
      fun n hn hnv => ih.2 n hn (List.mem_cons_of_mem _ hnv)⟩

theorem needed_of_mem_reach {stack visited : List String} {n : String}
    (h : n ∈ (reach r hints stack visited).map Prod.fst) : Needed r hints stack n := by
  fun_induction reach r hints stack visited with
  | case1 => cases h
  | case2 visited name stack hv ih =>
    exact (ih h).trans fun m hm => .wanted (List.mem_cons_of_mem _ hm)
  | case3 visited name stack hv hp ih =>
    rcases List.mem_cons.1 h with rfl | h
    · exact .wanted List.mem_cons_self
    · exact (ih h).trans fun m hm => .wanted (List.mem_cons_of_mem _ hm)
  | case4 visited name stack hv op hp _ ih =>
    rcases List.mem_cons.1 h with rfl | h
    · exact .wanted List.mem_cons_self
    · refine (ih h).trans fun m hm => ?_
      rcases List.mem_append.1 hm with hm | hm
      · exact .input (.wanted List.mem_cons_self) ⟨op, hp, hm⟩
      · exact .wanted (List.mem_cons_of_mem _ hm)

/-- When the walk is over, nothing is left that it has still to look at: neither on the stack nor
among the inputs of what it has met. -/
theorem closed_reach (r : Registry V E) (hints stack visited : List String) :
    (∀ n ∈ stack, n ∈ visited ∨ n ∈ (reach r hints stack visited).map Prod.fst) ∧
      ∀ m ∈ reach r hints stack visited, ∀ i, Reads r hints m.1 i →
        i ∈ visited ∨ i ∈ (reach r hints stack visited).map Prod.fst := by
  fun_induction reach r hints stack visited with
  | case1 => simp
  | case2 visited name stack hv ih =>
    refine ⟨fun n hn => ?_, ih.2⟩
    rcases List.mem_cons.1 hn with rfl | hn
    · exact .inl hv
    · exact ih.1 n hn
  | case3 visited name stack hv hp ih =>
    -- A name that nobody computes reads nothing.
    constructor
    · intro n hn
      rcases List.mem_cons.1 hn with rfl | hn
      · exact .inr (by simp)
      · have := ih.1 n hn
        simp only [List.map_cons, List.mem_cons] at this ⊢
        tauto
    · intro m hm i hi
      rcases List.mem_cons.1 hm with rfl | hm
      · obtain ⟨op, hop, -⟩ := hi
        rw [hp] at hop
        cases hop
      · have := ih.2 m hm i hi
        simp only [List.map_cons, List.mem_cons] at this ⊢
        tauto
  | case4 visited name stack hv op hp _ ih =>
    -- The inputs are put on the stack, and whatever was on the stack is looked at in the end.
    have hin : ∀ i ∈ op.inputs ++ stack, i ∈ visited ∨
        i ∈ ((name, some op) :: reach r hints (op.inputs ++ stack) (name :: visited)).map
          Prod.fst := by
      intro i hi
      have := ih.1 i hi
      simp only [List.map_cons, List.mem_cons] at this ⊢
      tauto
    constructor
    · intro n hn
      rcases List.mem_cons.1 hn with rfl | hn
      · exact .inr (by simp)
      · exact hin n (List.mem_append_right _ hn)
    · intro m hm i hi
      rcases List.mem_cons.1 hm with rfl | hm
      · obtain ⟨op', hop, hi⟩ := hi
        obtain rfl : op = op' := Option.some.inj (hp.symm.trans hop)
        exact hin i (List.mem_append_left _ hi)
      · have := ih.2 m hm i hi
        simp only [List.map_cons, List.mem_cons] at this ⊢
        tauto

/-- **What the walk meets.** These are the needed names, each with the operation that computes
it. -/
theorem mem_reach_iff {m : String × Option (Operation V E)} :
    m ∈ reach r hints wanted [] ↔ Needed r hints wanted m.1 ∧ m.2 = producer r hints m.1 := by
  constructor
  · intro h
    exact ⟨needed_of_mem_reach (List.mem_map_of_mem h), producer_of_mem_reach h⟩
  · rintro ⟨hn, hp⟩
    obtain ⟨hstack, hinputs⟩ := closed_reach r hints wanted []
    have hmet : ∀ n, Needed r hints wanted n → n ∈ (reach r hints wanted []).map Prod.fst := by
      intro n hn
      induction hn with
      | wanted hw => exact (hstack _ hw).resolve_left List.not_mem_nil
      | input _ hr ih =>
        obtain ⟨m', hm', rfl⟩ := List.mem_map.1 ih
        exact (hinputs m' hm' _ hr).resolve_left List.not_mem_nil
    obtain ⟨m', hm', he⟩ := List.mem_map.1 (hmet m.1 hn)
    have : m' = m := Prod.ext he (by rw [producer_of_mem_reach hm', he, hp])
    exact this ▸ hm'

theorem mem_map_reach_iff {n : String} :
    n ∈ (reach r hints wanted []).map Prod.fst ↔ Needed r hints wanted n :=
  ⟨needed_of_mem_reach, fun hn =>
    List.mem_map_of_mem (mem_reach_iff (m := (n, producer r hints n)).2 ⟨hn, rfl⟩)⟩

/-- The walk from a longer stack goes on where the walk from its beginning ends, with everything met
so far behind it. -/
theorem reach_append (stack rest visited : List String) :
    reach r hints (stack ++ rest) visited = reach r hints stack visited ++
      reach r hints rest (((reach r hints stack visited).map Prod.fst).reverse ++ visited) := by
  fun_induction reach r hints stack visited with
  | case1 => rfl
  | case2 visited name stack hv ih => rw [List.cons_append, reach_cons_of_mem hv, ih]
  | case3 visited name stack hv hp ih =>
    rw [List.cons_append, reach_cons_of_none hv hp, ih]
    simp
  | case4 visited name stack hv op hp _ ih =>
    rw [List.cons_append, reach_cons_of_some hv hp, ← List.append_assoc, ih]
    simp

/-! ## Parameters and operations -/

theorem params_nodup : (find r wanted hints).params.Nodup :=
  Names.sorted_nodup ((nodup_reach wanted []).1.sublist (List.filter_sublist.map _))

/-- Parameters are in order, so the same ones are the same list. -/
theorem params_eq_of_mem_iff {r' : Registry V E} {hints' wanted' : List String}
    (h : ∀ n, n ∈ (find r wanted hints).params ↔ n ∈ (find r' wanted' hints').params) :
    (find r wanted hints).params = (find r' wanted' hints').params :=
  Names.eq_of_ascending params_nodup params_nodup (Names.sorted_pairwise _)
    (Names.sorted_pairwise _) h

theorem mem_params_iff {n : String} :
    n ∈ (find r wanted hints).params ↔ Needed r hints wanted n ∧ producer r hints n = none := by
  simp only [find, Names.mem_sorted, List.mem_map, List.mem_filter, mem_reach_iff,
    Option.isNone_iff_eq_none]
  constructor
  · rintro ⟨m, ⟨⟨hn, hp⟩, hnone⟩, rfl⟩
    exact ⟨hn, hp ▸ hnone⟩
  · rintro ⟨hn, hp⟩
    exact ⟨(n, none), ⟨⟨hn, hp.symm⟩, rfl⟩, rfl⟩

theorem mem_operations_iff {op : Operation V E} :
    op ∈ (find r wanted hints).operations ↔
      Needed r hints wanted op.output ∧ producer r hints op.output = some op := by
  simp only [find, List.mem_filterMap, mem_reach_iff]
  constructor
  · rintro ⟨m, ⟨hn, hp⟩, hop⟩
    rw [hop] at hp
    rw [output_of_producer hp.symm]
    exact ⟨hn, hp.symm⟩
  · rintro ⟨hn, hp⟩
    exact ⟨(op.output, some op), ⟨hn, hp.symm⟩, rfl⟩

/-- The operation that computes a needed name is one of the query. -/
theorem mem_operations_of_producer {name : String} {op : Operation V E}
    (hn : Needed r hints wanted name) (hp : producer r hints name = some op) :
    op ∈ (find r wanted hints).operations := by
  obtain rfl := output_of_producer hp
  exact mem_operations_iff.2 ⟨hn, hp⟩

/-- The operations of a query are registered. -/
theorem mem_registry {op : Operation V E} (h : op ∈ (find r wanted hints).operations) :
    op ∈ r.operations :=
  Registry.mem_of_lookup (lookup_of_producer (mem_operations_iff.1 h).2)

theorem mem_outputs_iff {n : String} :
    n ∈ (find r wanted hints).operations.map Operation.output ↔
      Needed r hints wanted n ∧ producer r hints n ≠ none := by
  rw [List.mem_map]
  constructor
  · rintro ⟨op, hop, rfl⟩
    obtain ⟨hn, hp⟩ := mem_operations_iff.1 hop
    exact ⟨hn, by rw [hp]; exact Option.some_ne_none _⟩
  · rintro ⟨hn, hp⟩
    obtain ⟨op, hop⟩ := Option.ne_none_iff_exists'.1 hp
    exact ⟨op, mem_operations_of_producer hn hop, output_of_producer hop⟩

theorem outputs_nodup : ((find r wanted hints).operations.map Operation.output).Nodup := by
  have hsub : ∀ {ms : List (String × Option (Operation V E))},
      (∀ m ∈ ms, m.2 = producer r hints m.1) →
      ((ms.filterMap Prod.snd).map Operation.output).Sublist (ms.map Prod.fst) := by
    intro ms hms
    induction ms with
    | nil => exact List.Sublist.slnil
    | cons m ms ih =>
      have ih := ih fun m hm => hms m (List.mem_cons_of_mem _ hm)
      cases hm : m.2 with
      | none =>
        rw [List.filterMap_cons_none hm]
        exact ih.cons _
      | some op =>
        have hout : op.output = m.1 :=
          output_of_producer ((hms m List.mem_cons_self).symm.trans hm)
        rw [List.filterMap_cons_some hm, List.map_cons, List.map_cons, hout]
        exact ih.cons_cons _
  exact (nodup_reach wanted []).1.sublist (hsub fun _ => producer_of_mem_reach)

theorem operations_nodup : (find r wanted hints).operations.Nodup :=
  .of_map _ outputs_nodup

/-- Operations of a query, each once, are all of them if all outputs are there. -/
theorem perm_operations {ops : List (Operation V E)} (hn : (ops.map Operation.output).Nodup)
    (hops : ∀ op ∈ ops, op ∈ (find r wanted hints).operations)
    (hall : ∀ op ∈ (find r wanted hints).operations, op.output ∈ ops.map Operation.output) :
    ops.Perm (find r wanted hints).operations := by
  refine (List.perm_ext_iff_of_nodup (.of_map _ hn) operations_nodup).2 fun op =>
    ⟨hops op, fun hop => ?_⟩
  obtain ⟨op', hop', he⟩ := List.mem_map.1 (hall op hop)
  have hp := (mem_operations_iff.1 hop).2
  have hp' := (mem_operations_iff.1 (hops op' hop')).2
  rw [he, hp, Option.some.injEq] at hp'
  exact hp' ▸ hop'

/-! ## Equal needs -/

/-- The walk depends on how the names that it meets are computed, and on nothing else of the
hints. -/
theorem reach_congr {hints' stack visited : List String}
    (h : ∀ m ∈ reach r hints stack visited, producer r hints' m.1 = m.2) :
    reach r hints' stack visited = reach r hints stack visited := by
  fun_induction reach r hints stack visited with
  | case1 => rw [reach]
  | case2 visited name stack hv ih => rw [reach_cons_of_mem hv, ih h]
  | case3 visited name stack hv hp ih =>
    rw [List.forall_mem_cons] at h
    rw [reach_cons_of_none hv h.1, ih h.2]
  | case4 visited name stack hv op hp _ ih =>
    rw [List.forall_mem_cons] at h
    rw [reach_cons_of_some hv h.1, ih h.2]

/-- So does what a query needs. -/
theorem find_congr {hints' : List String}
    (h : ∀ n, Needed r hints wanted n → producer r hints' n = producer r hints n) :
    find r wanted hints' = find r wanted hints := by
  have hreach : reach r hints' wanted [] = reach r hints wanted [] := by
    refine reach_congr fun m hm => ?_
    obtain ⟨hn, hp⟩ := mem_reach_iff.1 hm
    rw [hp, h m.1 hn]
  unfold find
  rw [hreach]

theorem producer_congr {hints' : List String} (h : ∀ n, n ∈ hints ↔ n ∈ hints') :
    producer r hints = producer r hints' := by
  funext n
  unfold producer
  simp only [h n]

/-- Of the hints only the set counts. -/
theorem find_congr_hints {hints' : List String} (h : ∀ n, n ∈ hints ↔ n ∈ hints') :
    find r wanted hints = find r wanted hints' :=
  find_congr fun n _ => by rw [producer_congr h]

theorem needed_congr {wanted' : List String} (h : ∀ n, n ∈ wanted ↔ n ∈ wanted') {n : String} :
    Needed r hints wanted n ↔ Needed r hints wanted' n :=
  ⟨fun hn => hn.trans fun m hm => .wanted ((h m).1 hm),
    fun hn => hn.trans fun m hm => .wanted ((h m).2 hm)⟩

theorem needed_distinct_iff {n : String} :
    Needed r hints (Names.distinct wanted) n ↔ Needed r hints wanted n :=
  needed_congr fun _ => Names.mem_distinct

/-- Two queries that meet the same names, computed in the same way. -/
def SameNeeds (r : Registry V E) (hints wanted hints' wanted' : List String) : Prop :=
  (∀ n, Needed r hints wanted n ↔ Needed r hints' wanted' n) ∧
    ∀ n, Needed r hints wanted n → producer r hints n = producer r hints' n

section SameNeeds

variable {hints' wanted' : List String}

theorem SameNeeds.params_eq (h : SameNeeds r hints wanted hints' wanted') :
    (find r wanted hints).params = (find r wanted' hints').params := by
  refine params_eq_of_mem_iff fun n => ?_
  rw [mem_params_iff, mem_params_iff, ← h.1 n]
  exact and_congr_right fun hn => by rw [h.2 n hn]

theorem SameNeeds.operations_perm (h : SameNeeds r hints wanted hints' wanted') :
    (find r wanted hints).operations.Perm (find r wanted' hints').operations := by
  refine (List.perm_ext_iff_of_nodup operations_nodup operations_nodup).2 fun op => ?_
  rw [mem_operations_iff, mem_operations_iff, ← h.1]
  exact and_congr_right fun hn => by rw [h.2 _ hn]

theorem sameNeeds_of_wanted (h : ∀ n, n ∈ wanted ↔ n ∈ wanted') :
    SameNeeds r hints wanted hints wanted' :=
  ⟨fun _ => needed_congr h, fun _ _ => rfl⟩

theorem params_find_distinct (r : Registry V E) (wanted hints : List String) :
    (find r (Names.distinct wanted) hints).params = (find r wanted hints).params :=
  (sameNeeds_of_wanted fun _ => Names.mem_distinct).params_eq

/-- Whether a needed name is computed can be seen from the parameters. -/
theorem producer_eq_of_params {n : String} (hn : Needed r hints wanted n)
    (hn' : Needed r hints' wanted' n)
    (hp : ∀ n, n ∈ (find r wanted hints).params ↔ n ∈ (find r wanted' hints').params) :
    producer r hints n = producer r hints' n := by
  have hiff := hp n
  rw [mem_params_iff, mem_params_iff, and_iff_right hn, and_iff_right hn'] at hiff
  unfold producer at hiff ⊢
  split <;> split <;> simp_all

/-- **Shared plans.** Queries for the same outputs that have the same parameters need the same
names and compute them in the same way, whatever the hints were. -/
theorem sameNeeds_of_params (hw : ∀ n, n ∈ wanted ↔ n ∈ wanted')
    (hp : ∀ n, n ∈ (find r wanted hints).params ↔ n ∈ (find r wanted' hints').params) :
    SameNeeds r hints wanted hints' wanted' := by
  have half : ∀ {hints hints' wanted wanted' : List String}, (∀ n, n ∈ wanted → n ∈ wanted') →
      (∀ n, n ∈ (find r wanted hints).params ↔ n ∈ (find r wanted' hints').params) →
      ∀ n, Needed r hints wanted n → Needed r hints' wanted' n := by
    intro hints hints' wanted wanted' hw hp n hn
    induction hn with
    | wanted h => exact .wanted (hw _ h)
    | input hm hr ih =>
      obtain ⟨op, hop, hi⟩ := hr
      exact .input ih ⟨op, producer_eq_of_params hm ih hp ▸ hop, hi⟩
  have hto := half (fun n => (hw n).1) hp
  have hfrom := half (fun n => (hw n).2) fun n => (hp n).symm
  exact ⟨fun n => ⟨hto n, hfrom n⟩, fun n hn => producer_eq_of_params hn (hto n hn) hp⟩

/-- Of the hints only the set counts. -/
theorem sameNeeds_of_hints (h : ∀ n, n ∈ hints ↔ n ∈ hints') :
    SameNeeds r hints wanted hints' wanted :=
  sameNeeds_of_params (fun _ => Iff.rfl) fun n => by rw [find_congr_hints h]

end SameNeeds

end DemandPlan.Requirements
