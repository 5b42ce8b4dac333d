import DemandPlan.Cycle
import DemandPlan.Proofs.Requirements
import DemandPlan.Proofs.Table
import Mathlib.Data.List.Chain

/-!
# The search for cycles is right

The search finds a cycle just in case there is one. Names that are done lead to no cycle: from them,
every way along the inputs ends. Each name on the path reads the next one, so meeting one of them
again closes a circle.

* `Circle`: names of which each leads to the next one, and the last one back to the first.
* `search_ok`, `search_error`: what the two results of the search mean.
* `find?_eq_none_iff`, `find?_eq_some_iff`: whether a cycle is found in the operations of a query.
* `circle_of_find?`: what is found is a circle.
-/

namespace DemandPlan

open Relation

/-! ## Circles -/

/-- Names of which each leads to the next one, and the last one back to the first. -/
structure Circle (R : String → String → Prop) (names : List String) : Prop where
  nodup : names.Nodup
  closed : ∃ first rest, names = first :: rest ∧ (first :: (rest ++ [first])).IsChain R

namespace Circle

variable {R S : String → String → Prop} {names : List String}

theorem mono (h : Circle R names) (hRS : ∀ ⦃a b⦄, R a b → S a b) : Circle S names := by
  obtain ⟨first, rest, hnames, hchain⟩ := h.closed
  exact ⟨h.nodup, first, rest, hnames, hchain.imp hRS⟩

theorem mono_mem (h : Circle R names) (hRS : ∀ a ∈ names, ∀ b ∈ names, R a b → S a b) :
    Circle S names := by
  obtain ⟨first, rest, rfl, hchain⟩ := h.closed
  have hmem : ∀ {a}, a ∈ first :: (rest ++ [first]) → a ∈ first :: rest := fun ha => by
    simpa [or_comm, or_assoc] using ha
  exact ⟨h.nodup, first, rest, rfl, hchain.imp_of_mem_imp fun a b ha hb => hRS a (hmem ha) b (hmem hb)⟩

theorem exists_mem (h : Circle R names) : ∃ n, n ∈ names := by
  obtain ⟨first, rest, rfl, -⟩ := h.closed
  exact ⟨first, List.mem_cons_self⟩

/-- From each name of a circle there is a way back to it. -/
theorem transGen (h : Circle R names) {n : String} (hn : n ∈ names) : TransGen R n n := by
  obtain ⟨first, rest, rfl, hchain⟩ := h.closed
  have hpairs := (hchain.imp fun _ _ => TransGen.single).pairwise
  obtain ⟨hfirst, hrest⟩ := List.pairwise_cons.1 hpairs
  rcases List.mem_cons.1 hn with rfl | hn
  · exact hfirst n (by simp)
  · have hback := (List.pairwise_append.1 hrest).2.2 n hn first (List.mem_singleton_self _)
    exact hback.trans (hfirst n (List.mem_append_left _ hn))

end Circle

/-- A path without repetition on which each name leads to the next one, and the last one to a
further name. -/
structure LeadsTo (R : String → String → Prop) (path : List String) (name : String) : Prop where
  nodup : path.Nodup
  chain : (path ++ [name]).IsChain R

namespace LeadsTo

variable {R : String → String → Prop} {path : List String} {name next : String}

theorem nil : LeadsTo R [] name := ⟨List.nodup_nil, List.isChain_singleton name⟩

theorem snoc (h : LeadsTo R path name) (hnot : name ∉ path) (hR : R name next) :
    LeadsTo R (path ++ [name]) next where
  nodup := by simpa only [List.concat_eq_append] using h.nodup.concat hnot
  chain := h.chain.append (List.isChain_singleton next) (by simpa using hR)

/-- A path that comes back to one of its names ends with a circle. -/
theorem circle (h : LeadsTo R path name) (hmem : name ∈ path) :
    Circle R (path.dropWhile fun n => decide (n ≠ name)) ∧
      name ∈ path.dropWhile fun n => decide (n ≠ name) := by
  obtain ⟨hnodup, hchain⟩ := h
  obtain ⟨before, after, rfl, hnot⟩ := List.eq_append_cons_of_mem hmem
  have hdrop : (before ++ name :: after).dropWhile (fun n => decide (n ≠ name)) =
      name :: after := by
    rw [List.dropWhile_append_of_pos]
    · simp
    · intro n hn
      exact decide_eq_true fun he => hnot (he ▸ hn)
  rw [List.append_assoc] at hchain
  rw [hdrop]
  exact ⟨⟨(List.nodup_append.1 hnodup).2.1, name, after, rfl, hchain.right_of_append⟩,
    List.mem_cons_self⟩

end LeadsTo

/-- Some operation computes the first name and reads the second one. -/
def DependsOn {V E : Type} (ops : List (Operation V E)) (name input : String) : Prop :=
  ∃ op ∈ ops, op.output = name ∧ input ∈ op.inputs

namespace Cycle

open Requirements

variable {V E : Type} {graph : Table (List String)} {path names done : List String}

/-! ## The search -/

/-- An edge of a graph, which leads from an output to one of its inputs. -/
def Edge (graph : Table (List String)) (name input : String) : Prop :=
  ∃ inputs, graph.find? name = some inputs ∧ input ∈ inputs

/-- Every way from a name along the edges ends. -/
def Ends (graph : Table (List String)) : String → Prop :=
  Acc fun input name => Edge graph name input

theorem ends_of_inputs {name : String} {inputs : List String}
    (h : graph.find? name = some inputs) (hi : ∀ i ∈ inputs, Ends graph i) : Ends graph name := by
  refine Acc.intro _ fun i ⟨inputs', h', hi'⟩ => hi i ?_
  rw [h, Option.some.injEq] at h'
  exact h' ▸ hi'

theorem ends_of_not_mem {name : String} (h : graph.find? name = none) : Ends graph name := by
  refine Acc.intro _ fun i ⟨inputs, h', _⟩ => ?_
  rw [h] at h'
  cases h'

/-- A search that ends without a cycle has seen that every way from the names ends. -/
theorem search_ok {done' : List String} (h : search graph path names done = .ok done')
    (hd : ∀ n ∈ done, Ends graph n) :
    (∀ n ∈ names, Ends graph n) ∧ ∀ n ∈ done', Ends graph n := by
  fun_induction search graph path names done generalizing done' with
  | case1 path done =>
    cases h
    exact ⟨fun _ h => (nomatch h), hd⟩
  | case2 path done name names hg ih =>
    obtain ⟨hnames, hdone⟩ := ih h hd
    exact ⟨List.forall_mem_cons.2 ⟨ends_of_not_mem hg, hnames⟩, hdone⟩
  | case3 path done name names inputs hg hmem ih =>
    obtain ⟨hnames, hdone⟩ := ih h hd
    exact ⟨List.forall_mem_cons.2 ⟨hd name hmem, hnames⟩, hdone⟩
  | case4 => cases h
  | case5 => cases h
  | case6 path done name names inputs hg hmem hp _ done₁ hinner ih₁ ih₂ =>
    obtain ⟨hinputs, hdone₁⟩ := ih₁ hinner hd
    have hname := ends_of_inputs hg hinputs
    obtain ⟨hnames, hdone⟩ := ih₂ h (List.forall_mem_cons.2 ⟨hname, hdone₁⟩)
    exact ⟨List.forall_mem_cons.2 ⟨hname, hnames⟩, hdone⟩

/-- A search that ends with a cycle has closed a circle. -/
theorem search_error {cycle : List String} (h : search graph path names done = .error cycle)
    (hp : ∀ n ∈ names, LeadsTo (Edge graph) path n) : Circle (Edge graph) cycle := by
  fun_induction search graph path names done with
  | case1 => cases h
  | case2 path done name names hg ih => exact ih h (List.forall_mem_cons.1 hp).2
  | case3 path done name names inputs hg hmem ih => exact ih h (List.forall_mem_cons.1 hp).2
  | case4 path done name names inputs hg hmem hpath =>
    obtain rfl := Except.error.inj h
    exact ((hp name List.mem_cons_self).circle hpath).1
  | case5 path done name names inputs hg hmem hpath _ cycle' hinner ih =>
    obtain rfl := Except.error.inj h
    exact ih hinner fun i hi => (hp name List.mem_cons_self).snoc hpath ⟨inputs, hg, hi⟩
  | case6 path done name names inputs hg hmem hpath _ done₁ hinner ih₁ ih₂ =>
    exact ih₂ h (List.forall_mem_cons.1 hp).2

/-! ## The operations of a query -/

section Query

variable {r : Registry V E} {hints wanted : List String}

theorem edge_iff_dependsOn {ops : List (Operation V E)} (hn : (ops.map Operation.output).Nodup)
    {name input : String} : Edge (inputsOf ops) name input ↔ DependsOn ops name input := by
  have hnodup : ((ops.map fun op => (op.output, op.inputs)).map Prod.fst).Nodup := by
    simpa [Function.comp_def] using hn
  have hfind : ∀ {inputs : List String}, (inputsOf ops).find? name = some inputs ↔
      ∃ op ∈ ops, op.output = name ∧ op.inputs = inputs := by
    intro inputs
    rw [Table.find?_eq_some_iff, inputsOf, Table.entries_ofList hnodup, List.mem_map]
    simp only [Prod.mk.injEq]
  constructor
  · rintro ⟨inputs, h, hi⟩
    obtain ⟨op, hop, hout, rfl⟩ := hfind.1 h
    exact ⟨op, hop, hout, hi⟩
  · rintro ⟨op, hop, hout, hi⟩
    exact ⟨op.inputs, hfind.2 ⟨op, hop, hout, rfl⟩, hi⟩

/-- What depends on what in a query. -/
theorem dependsOn_iff {name input : String} :
    DependsOn (find r wanted hints).operations name input ↔
      Needed r hints wanted name ∧ Reads r hints name input := by
  constructor
  · rintro ⟨op, hop, rfl, hi⟩
    obtain ⟨hn, hp⟩ := mem_operations_iff.1 hop
    exact ⟨hn, op, hp, hi⟩
  · rintro ⟨hn, op, hp, hi⟩
    exact ⟨op, mem_operations_of_producer hn hp, output_of_producer hp, hi⟩

theorem edge_iff {name input : String} :
    Edge (inputsOf (find r wanted hints).operations) name input ↔
      Needed r hints wanted name ∧ Reads r hints name input :=
  (edge_iff_dependsOn outputs_nodup).trans dependsOn_iff

theorem transGen_dependsOn_iff {name input : String} :
    TransGen (DependsOn (find r wanted hints).operations) name input ↔
      Needed r hints wanted name ∧ TransGen (Reads r hints) name input := by
  constructor
  · intro h
    obtain ⟨m, hfirst, -⟩ := TransGen.head'_iff.1 h
    exact ⟨(dependsOn_iff.1 hfirst).1, h.lift id fun _ _ h => (dependsOn_iff.1 h).2⟩
  · rintro ⟨hn, h⟩
    induction h using TransGen.head_induction_on with
    | single hr => exact .single (dependsOn_iff.2 ⟨hn, hr⟩)
    | head hr _ ih => exact .head (dependsOn_iff.2 ⟨hn, hr⟩) (ih (.input hn hr))

theorem grounded_of_ends {name : String}
    (h : Ends (inputsOf (find r wanted hints).operations) name) (hn : Needed r hints wanted name) :
    Grounded r hints name := by
  induction h with
  | intro name _ ih =>
    exact Acc.intro _ fun i hr => ih i (edge_iff.2 ⟨hn, hr⟩) (.input hn hr)

/-- The names of a circle are needed, and they need themselves. -/
theorem needed_of_circle {cycle : List String}
    (h : Circle (DependsOn (find r wanted hints).operations) cycle) {n : String} (hn : n ∈ cycle) :
    Needed r hints wanted n ∧ TransGen (Reads r hints) n n :=
  transGen_dependsOn_iff.1 (h.transGen hn)

/-- What is found is a circle. -/
theorem circle_of_find? {ops : List (Operation V E)} {cycle : List String}
    (h : find? ops = some cycle) : Circle (Edge (inputsOf ops)) cycle := by
  unfold find? at h
  dsimp only at h
  split at h
  · next hs =>
    obtain rfl := Option.some.inj h
    exact search_error hs fun _ _ => .nil
  · cases h

/-- If nothing is found, every way along the inputs ends. -/
theorem ends_of_find?_eq_none {ops : List (Operation V E)} (h : find? ops = none) (n : String) :
    Ends (inputsOf ops) n := by
  by_cases hk : n ∈ inputsOf ops
  · unfold find? at h
    dsimp only at h
    split at h
    · cases h
    · next hs => exact (search_ok hs (List.forall_mem_nil _)).1 n hk
  · exact ends_of_not_mem (Table.find?_eq_none_iff.2 hk)

theorem circle_dependsOn {cycle : List String}
    (h : find? (find r wanted hints).operations = some cycle) :
    Circle (DependsOn (find r wanted hints).operations) cycle :=
  (circle_of_find? h).mono fun _ _ => (edge_iff_dependsOn outputs_nodup).1

/-- **The search for cycles.** No cycle is found in the operations of a query just in case all names
of the query are computed in finitely many steps. -/
theorem find?_eq_none_iff : find? (find r wanted hints).operations = none ↔
    ∀ n, Needed r hints wanted n → Grounded r hints n := by
  cases hfind : find? (find r wanted hints).operations with
  | some cycle =>
    obtain ⟨n, hn⟩ := (circle_dependsOn hfind).exists_mem
    obtain ⟨hneeded, hc⟩ := needed_of_circle (circle_dependsOn hfind) hn
    exact iff_of_false (Option.some_ne_none _) fun hg => (hg n hneeded).irrefl hc
  | none => exact iff_of_true rfl fun n hn => grounded_of_ends (ends_of_find?_eq_none hfind n) hn

/-- A cycle is found just in case some needed name needs itself. -/
theorem find?_eq_some_iff : (∃ cycle, find? (find r wanted hints).operations = some cycle) ↔
    ∃ n, Needed r hints wanted n ∧ TransGen (Reads r hints) n n := by
  constructor
  · rintro ⟨cycle, h⟩
    obtain ⟨n, hn⟩ := (circle_dependsOn h).exists_mem
    exact ⟨n, needed_of_circle (circle_dependsOn h) hn⟩
  · rintro ⟨n, hn, hc⟩
    refine Option.ne_none_iff_exists'.1 fun h => ?_
    exact (find?_eq_none_iff.1 h n hn).irrefl hc

/-- A cycle is found just in case some operation depends on itself. -/
theorem find?_eq_some_iff_dependsOn :
    (∃ cycle, find? (find r wanted hints).operations = some cycle) ↔
    ∃ op ∈ (find r wanted hints).operations,
      TransGen (DependsOn (find r wanted hints).operations) op.output op.output := by
  simp only [find?_eq_some_iff, ← transGen_dependsOn_iff]
  constructor
  · rintro ⟨n, hc⟩
    obtain ⟨m, ⟨op, hop, rfl, -⟩, -⟩ := TransGen.head'_iff.1 hc
    exact ⟨op, hop, hc⟩
  · rintro ⟨op, -, hc⟩
    exact ⟨op.output, hc⟩

/-- If no operation depends on itself, all names are computed in finitely many steps. -/
theorem grounded_of_acyclic
    (h : ∀ op ∈ (find r wanted hints).operations,
      ¬TransGen (DependsOn (find r wanted hints).operations) op.output op.output)
    {n : String} (hn : Needed r hints wanted n) : Grounded r hints n := by
  refine find?_eq_none_iff.1 (Option.eq_none_iff_forall_ne_some.2 fun cycle hc => ?_) n hn
  obtain ⟨op, hop, hself⟩ := find?_eq_some_iff_dependsOn.1 ⟨cycle, hc⟩
  exact h op hop hself

end Query

end Cycle

end DemandPlan
