import DemandPlan.Proofs.Cycle
import Mathlib.Logic.Function.Iterate

/-!
# The search for cycles, turn by turn

The search keeps the path that it has come along, the inputs that are still to be looked at for each
name on the path, and the names that are done. A turn looks at one input, or goes back when there
are none left. The search ends, and it finds a cycle in any operations just in case there is one.

* `Descent.leads_of_search_ok`, `Descent.leads_of_search_error`: where the turns lead to.
* `Points`: the graph that is searched. Of several operations with one output the last one counts.
* `exact_find?`: what is found, and when.
-/

namespace DemandPlan.Cycle

open Relation

variable {V E : Type} {graph : Table (List String)} {path names done : List String}
  {frames : List (List String)}

/-! ## Turn by turn -/

/-- The search between two turns. -/
structure Descent where
  /-- What is still to be looked at: inputs of the last name on the path, then of the one before it,
  and in the end the names from which the search sets out. -/
  frames : List (List String)
  path : List String := []
  done : List String := []
  /-- The cycle that has been found. -/
  found : Option (List String) := none

namespace Descent

/-- One turn of the search. After the inputs of a name the name is done. -/
def turn (graph : Table (List String)) (s : Descent) : Descent :=
  match s.found, s.frames with
  | some _, _ => s
  | none, [] => s
  | none, [] :: frames =>
    { s with frames, path := s.path.dropLast, done := s.path.getLast?.toList ++ s.done }
  | none, (name :: names) :: frames =>
    match graph.find? name with
    | none => { s with frames := names :: frames }
    | some inputs =>
      if name ∈ s.done then { s with frames := names :: frames }
      else if name ∈ s.path then
        { s with found := some (s.path.dropWhile fun n => decide (n ≠ name)) }
      else { s with frames := inputs :: names :: frames, path := s.path ++ [name] }

/-- Some turns lead from a state of the search to another one. -/
def Leads (graph : Table (List String)) (s s' : Descent) : Prop := ∃ k, (turn graph)^[k] s = s'

variable {s s' s'' : Descent}

theorem Leads.refl (s : Descent) : Leads graph s s := ⟨0, rfl⟩

theorem Leads.trans (h : Leads graph s s') (h' : Leads graph s' s'') : Leads graph s s'' := by
  obtain ⟨k, rfl⟩ := h
  obtain ⟨l, rfl⟩ := h'
  exact ⟨l + k, Function.iterate_add_apply _ l k s⟩

theorem Leads.of_turn (h : turn graph s = s') : Leads graph s s' := ⟨1, h⟩

/-- The path is taken down to the name whose inputs have been looked at, and this name is done. -/
theorem turn_back {name : String} :
    turn graph { frames := [] :: frames, path := path ++ [name], done } =
      { frames, path, done := name :: done } := by
  simp [turn]

/-- Turns that find no cycle use up the names that are next. -/
theorem leads_of_search_ok {done' : List String} (h : search graph path names done = .ok done')
    (frames : List (List String)) : Leads graph { frames := names :: frames, path, done }
      { frames := [] :: frames, path, done := done' } := by
  fun_induction search graph path names done generalizing done' frames with
  | case1 path done =>
    cases h
    exact .refl _
  | case2 path done name names hg ih =>
    exact .trans (.of_turn (by simp [turn, hg])) (ih h frames)
  | case3 path done name names inputs hg hmem ih =>
    exact .trans (.of_turn (by simp [turn, hg, hmem])) (ih h frames)
  | case4 => cases h
  | case5 => cases h
  | case6 path done name names inputs hg hmem hp _ done₁ hinner ih₁ ih₂ =>
    have hdown : turn graph { frames := (name :: names) :: frames, path, done } =
        { frames := inputs :: names :: frames, path := path ++ [name], done } := by
      simp [turn, hg, hmem, hp]
    exact .trans (.of_turn hdown) <| .trans (ih₁ hinner _) <| .trans (.of_turn turn_back) (ih₂ h _)

theorem leads_of_search_error {cycle : List String} (h : search graph path names done = .error cycle)
    (frames : List (List String)) : ∃ s, Leads graph { frames := names :: frames, path, done } s ∧
      s.found = some cycle := by
  fun_induction search graph path names done generalizing frames with
  | case1 => cases h
  | case2 path done name names hg ih =>
    obtain ⟨s, hs, hfound⟩ := ih h frames
    exact ⟨s, .trans (.of_turn (by simp [turn, hg])) hs, hfound⟩
  | case3 path done name names inputs hg hmem ih =>
    obtain ⟨s, hs, hfound⟩ := ih h frames
    exact ⟨s, .trans (.of_turn (by simp [turn, hg, hmem])) hs, hfound⟩
  | case4 path done name names inputs hg hmem hp =>
    obtain rfl := Except.error.inj h
    exact ⟨_, .of_turn rfl, by simp [turn, hg, hmem, hp]⟩
  | case5 path done name names inputs hg hmem hp _ cycle' hinner ih =>
    obtain rfl := Except.error.inj h
    -- The cycle is found below, while the rest of this row waits.
    obtain ⟨s, hs, hfound⟩ := ih hinner (names :: frames)
    exact ⟨s, .trans (.of_turn (by simp [turn, hg, hmem, hp])) hs, hfound⟩
  | case6 path done name names inputs hg hmem hp _ done₁ hinner ih₁ ih₂ =>
    -- Below nothing is found: the machine comes back and goes on with the rest of the row.
    have hdown : turn graph { frames := (name :: names) :: frames, path, done } =
        { frames := inputs :: names :: frames, path := path ++ [name], done } := by
      simp [turn, hg, hmem, hp]
    obtain ⟨s, hs, hfound⟩ := ih₂ h frames
    exact ⟨s, .trans (.of_turn hdown) <| .trans (leads_of_search_ok hinner _) <|
      .trans (.of_turn turn_back) hs, hfound⟩

/-- The search has found a cycle, or there is nothing left to be looked at. -/
def IsOver (s : Descent) : Prop := s.found ≠ none ∨ s.frames = []

/-- **The search ends**, with what is found. -/
theorem leads_to_find? (ops : List (Operation V E)) :
    ∃ s, Leads (inputsOf ops) { frames := [(inputsOf ops).keys] } s ∧ s.IsOver ∧
      s.found = find? ops := by
  unfold find?
  dsimp only
  split
  · next cycle h =>
    obtain ⟨s, hs, hfound⟩ := leads_of_search_error h []
    exact ⟨s, hs, .inl (by simp [hfound]), hfound⟩
  · next done h =>
    exact ⟨_, .trans (leads_of_search_ok h []) (.of_turn rfl), .inr rfl, rfl⟩

end Descent

/-! ## The graph -/

section Graph

variable {ops : List (Operation V E)}

/-- The operation that counts for its output: it is the last one that has this output. -/
def Counts (ops : List (Operation V E)) (op : Operation V E) : Prop :=
  ∃ before after, ops = before ++ op :: after ∧ ∀ op' ∈ after, op'.output ≠ op.output

theorem Counts.mem {op : Operation V E} (h : Counts ops op) : op ∈ ops := by
  obtain ⟨before, after, rfl, -⟩ := h
  exact List.mem_append_right _ List.mem_cons_self

/-- The graph of the outputs: each of them points to the inputs of its operation that are outputs
too. -/
def Points (ops : List (Operation V E)) (name input : String) : Prop :=
  ∃ op, Counts ops op ∧ op.output = name ∧ input ∈ op.inputs ∧ input ∈ ops.map Operation.output

theorem find?_inputsOf_eq_some_iff {name : String} {inputs : List String} :
    (inputsOf ops).find? name = some inputs ↔
      ∃ op, Counts ops op ∧ op.output = name ∧ op.inputs = inputs := by
  rw [inputsOf, Table.find?_ofList_map_eq_some_iff]
  constructor
  · rintro ⟨before, op, after, hops, hop, hafter⟩
    obtain ⟨rfl, rfl⟩ := Prod.mk.inj hop
    exact ⟨op, ⟨before, after, hops, hafter⟩, rfl, rfl⟩
  · rintro ⟨op, ⟨before, after, hops, hafter⟩, rfl, rfl⟩
    exact ⟨before, op, after, hops, rfl, hafter⟩

theorem points_iff {name input : String} :
    Points ops name input ↔ Edge (inputsOf ops) name input ∧ input ∈ ops.map Operation.output := by
  constructor
  · rintro ⟨op, hop, hname, hi, hmem⟩
    exact ⟨⟨op.inputs, find?_inputsOf_eq_some_iff.2 ⟨op, hop, hname, rfl⟩, hi⟩, hmem⟩
  · rintro ⟨⟨inputs, h, hi⟩, hmem⟩
    obtain ⟨op, hop, hname, rfl⟩ := find?_inputsOf_eq_some_iff.1 h
    exact ⟨op, hop, hname, hi, hmem⟩

theorem mem_outputs_of_edge {name input : String} (h : Edge (inputsOf ops) name input) :
    name ∈ ops.map Operation.output := by
  obtain ⟨inputs, h, -⟩ := h
  obtain ⟨op, hop, rfl, -⟩ := find?_inputsOf_eq_some_iff.1 h
  exact List.mem_map_of_mem hop.mem

/-- What is found is a circle of the graph. -/
theorem circle_points {cycle : List String} (h : find? ops = some cycle) :
    Circle (Points ops) cycle := by
  have hcircle := circle_of_find? h
  refine hcircle.mono_mem fun a _ b hb hedge => points_iff.2 ⟨hedge, ?_⟩
  -- The circle goes on from every one of its names, so all of them are outputs.
  obtain ⟨c, hc, -⟩ := TransGen.head'_iff.1 (hcircle.transGen hb)
  exact mem_outputs_of_edge hc

/-- **The search for cycles is exact.** It ends. Nothing is found just in case no output leads back
to itself in the graph of the outputs, and what is found is a circle: different outputs, at least
one, each of whose operations reads the next one, and the last one's operation the first. -/
theorem exact_find? (ops : List (Operation V E)) :
    (∃ k s, (Descent.turn (inputsOf ops))^[k] { frames := [(inputsOf ops).keys] } = s ∧ s.IsOver ∧
      s.found = find? ops) ∧
    (find? ops = none ↔ ∀ n, ¬TransGen (Points ops) n n) ∧
    ∀ cycle, find? ops = some cycle → Circle (Points ops) cycle := by
  refine ⟨?_, ⟨fun h n hc => ?_, fun h => ?_⟩, fun cycle h => circle_points h⟩
  · obtain ⟨s, ⟨k, hk⟩, hover, hfound⟩ := Descent.leads_to_find? ops
    exact ⟨k, s, hk, hover, hfound⟩
  · have hends : Acc (Function.swap (Edge (inputsOf ops))) n := ends_of_find?_eq_none h n
    exact Requirements.not_transGen_of_acc hends (hc.lift id fun _ _ hp => (points_iff.1 hp).1)
  · refine Option.eq_none_iff_forall_ne_some.2 fun cycle hcycle => ?_
    obtain ⟨n, hn⟩ := (circle_points hcycle).exists_mem
    exact h n ((circle_points hcycle).transGen hn)

end Graph

end DemandPlan.Cycle
