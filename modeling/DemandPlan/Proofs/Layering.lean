import DemandPlan.Proofs.Schedule
import Mathlib

/-!
# The earliest layering

Operations are laid out in rounds: whatever is ready becomes the next wave, until nothing is ready
any more. So each operation stands in the first wave before which all its inputs are there, and what
remains in the end are the operations whose outputs cannot be derived from what is available.

* `Layering.iterate_round`: the rounds come to an end, with the schedule or what remains.
* `mem_wave_iff`: in which wave an operation stands.
* `isLeast_derivable`: the derivable outputs are the least set that is closed under the operations.
* `earliest_ofOperations`: the schedule is the earliest layering, if there is one.
-/

namespace DemandPlan.Schedule

variable {V E : Type} {available : List String} {ops : List (Operation V E)}
  {waves : List (Wave V E)}

/-! ## Round by round -/

/-- A layering between two rounds. -/
structure Layering (V E : Type) where
  /-- The names that are there. -/
  available : List String
  /-- The operations that stand in no wave yet. -/
  remaining : List (Operation V E)
  waves : List (Wave V E) := []

namespace Layering

/-- One round: the operations that are ready become the next wave, if there are any. -/
def round (l : Layering V E) : Layering V E :=
  if ready l.available l.remaining = [] then l
  else
    { available := l.available ++ (ready l.available l.remaining).map Operation.output
      remaining := unready l.available l.remaining
      waves := l.waves ++ [Wave.ofReady (ready l.available l.remaining)] }

/-- No operation is ready any more. -/
def IsOver (l : Layering V E) : Prop := ready l.available l.remaining = []

/-- What a layering that is over ends with: its waves, or the outputs of what remains. -/
def result (l : Layering V E) : Except (List String) (List (Wave V E)) :=
  if l.remaining.isEmpty then .ok l.waves else .error (l.remaining.map Operation.output)

theorem iterate_round (available : List String) (ops : List (Operation V E))
    (waves : List (Wave V E)) :
    ∃ n ≤ ops.length, (round^[n] { available, remaining := ops, waves }).IsOver ∧
      (round^[n] { available, remaining := ops, waves }).result =
        (layer available ops).map (waves ++ ·) := by
  fun_induction layer available ops generalizing waves with
  | case1 available ops he =>
    refine ⟨0, Nat.zero_le _, ?_, ?_⟩
    · simp [IsOver, List.isEmpty_iff.1 he, ready]
    · simp [result, he, Except.map]
  | case2 available ops he hr =>
    refine ⟨0, Nat.zero_le _, hr, ?_⟩
    simp [result, he, Except.map]
  | case3 available ops he hr _ ih =>
    obtain ⟨n, hn, hover, hresult⟩ := ih (waves ++ [Wave.ofReady (ready available ops)])
    have hround : round { available, remaining := ops, waves } =
        { available := available ++ (ready available ops).map Operation.output
          remaining := unready available ops
          waves := waves ++ [Wave.ofReady (ready available ops)] } := if_neg hr
    refine ⟨n + 1, Nat.succ_le_of_lt (Nat.lt_of_le_of_lt hn (length_unready_lt hr)), ?_, ?_⟩
    · rwa [Function.iterate_succ_apply, hround]
    · rw [Function.iterate_succ_apply, hround, hresult]
      cases layer (available ++ (ready available ops).map Operation.output)
        (unready available ops) <;> simp [Except.map]

end Layering

/-! ## The place of an operation -/

/-- The first `k` waves give an operation all its inputs, with what is available from the
beginning. -/
def ReadyAfter (available : List String) (waves : List (Wave V E)) (op : Operation V E) (k : Nat) :
    Prop :=
  ∀ i ∈ op.inputs, i ∈ available ∨ ∃ w ∈ waves.take k, i ∈ w.outputs

theorem readyAfter_zero {op : Operation V E} :
    ReadyAfter available waves op 0 ↔ ∀ i ∈ op.inputs, i ∈ available := by
  simp [ReadyAfter]

theorem readyAfter_succ {op : Operation V E} {ready : List (Operation V E)} {k : Nat} :
    ReadyAfter available (Wave.ofReady ready :: waves) op (k + 1) ↔
      ReadyAfter (available ++ ready.map Operation.output) waves op k := by
  refine forall₂_congr fun i _ => ?_
  rw [List.take_succ_cons, List.exists_mem_cons_iff, mem_outputs_ofReady, List.mem_append, or_assoc]

theorem isLeast_succ_iff {p q : Nat → Prop} {k : Nat} (h : ¬p 0) (hpq : ∀ n, p (n + 1) ↔ q n) :
    IsLeast {n | p n} (k + 1) ↔ IsLeast {n | q n} k := by
  constructor
  · rintro ⟨hmem, hle⟩
    exact ⟨(hpq k).1 hmem, fun n hn => Nat.le_of_succ_le_succ (hle ((hpq n).2 hn))⟩
  · rintro ⟨hmem, hle⟩
    refine ⟨(hpq k).2 hmem, fun n hn => ?_⟩
    cases n with
    | zero => exact absurd hn h
    | succ n => exact Nat.succ_le_succ (hle ((hpq n).1 hn))

/-- **The place of an operation.** It stands in the first wave before which all its inputs are
there. -/
theorem mem_wave_iff (h : layer available ops = .ok waves) {op : Operation V E} (hop : op ∈ ops)
    (k : Nat) : (∃ w, waves[k]? = some w ∧ op ∈ w.operations) ↔
      IsLeast {n | ReadyAfter available waves op n} k := by
  fun_induction layer available ops generalizing waves k with
  | case1 available ops he =>
    obtain rfl := List.isEmpty_iff.1 he
    cases hop
  | case2 => cases h
  | case3 available ops he hr _ ih =>
    obtain ⟨rest, hrest, rfl⟩ := Outcome.exists_of_map_eq_ok h
    have hfirst : op ∈ (Wave.ofReady (ready available ops)).operations ↔
        ∀ i ∈ op.inputs, i ∈ available := by
      rw [(Wave.operations_ofReady_perm _).mem_iff, mem_ready, and_iff_right hop]
    -- A ready operation stands in the first wave. Any other is placed among the later waves, whose
    -- numbers are greater by one.
    by_cases hready : ∀ i ∈ op.inputs, i ∈ available
    · have hleast : IsLeast {n | ReadyAfter available
          (Wave.ofReady (ready available ops) :: rest) op n} 0 :=
        ⟨readyAfter_zero.2 hready, fun n _ => Nat.zero_le n⟩
      cases k with
      | zero => simpa [hleast] using hfirst.2 hready
      | succ k =>
        refine iff_of_false ?_ fun hk => Nat.succ_ne_zero k (hk.unique hleast)
        rintro ⟨w, hw, hmem⟩
        have hlater : op ∈ rest.flatMap Wave.operations :=
          List.mem_flatMap.2 ⟨w, List.mem_of_getElem? hw, hmem⟩
        exact (mem_unready.1 ((layer_ok hrest).2.1.mem_iff.1 hlater)).2 hready
    · have hzero : ¬ReadyAfter available (Wave.ofReady (ready available ops) :: rest) op 0 :=
        mt readyAfter_zero.1 hready
      cases k with
      | zero => exact iff_of_false (by simpa using mt hfirst.1 hready) fun hk => hzero hk.1
      | succ k =>
        rw [List.getElem?_cons_succ, ih hrest (mem_unready.2 ⟨hop, hready⟩)]
        exact (isLeast_succ_iff hzero fun _ => readyAfter_succ).symm

theorem nonempty_of_layer (h : layer available ops = .ok waves) :
    ∀ w ∈ waves, w.operations ≠ [] := by
  fun_induction layer available ops generalizing waves with
  | case1 =>
    cases h
    exact List.forall_mem_nil _
  | case2 => cases h
  | case3 available ops he hr _ ih =>
    obtain ⟨rest, hrest, rfl⟩ := Outcome.exists_of_map_eq_ok h
    refine List.forall_mem_cons.2 ⟨fun hnil => hr ?_, ih hrest⟩
    exact List.nil_perm.1 (hnil ▸ Wave.operations_ofReady_perm (ready available ops))

/-! ## What can be derived -/

/-- A set of outputs that is closed under the operations: with the inputs of an operation, as far as
they are not available, it holds its output. -/
def Saturated (available : List String) (ops : List (Operation V E)) (s : Set String) : Prop :=
  ∀ op ∈ ops, (∀ i ∈ op.inputs, i ∈ available ∨ i ∈ s) → op.output ∈ s

theorem isLeast_derivable (available : List String) (ops : List (Operation V E)) :
    IsLeast {s | Saturated available ops s} {n | Derivable available ops n} := by
  constructor
  · exact fun op hop hin => .output hop fun i hi hia => (hin i hi).resolve_left hia
  · intro s hs n hn
    induction hn with
    | output hop _ ih => exact hs _ hop fun i hi => or_iff_not_imp_left.2 (ih i hi)

theorem derivable_of_layer (h : layer available ops = .ok waves) :
    ∀ op ∈ ops, Derivable available ops op.output := by
  fun_induction layer available ops generalizing waves with
  | case1 available ops he =>
    obtain rfl := List.isEmpty_iff.1 he
    exact List.forall_mem_nil _
  | case2 => cases h
  | case3 available ops he hr _ ih =>
    obtain ⟨rest, hrest, -⟩ := Outcome.exists_of_map_eq_ok h
    have hperm := ready_append_unready_perm available ops
    have hready : ∀ op ∈ ready available ops, ∀ i ∈ op.inputs, i ∈ available := fun op hop =>
      (mem_ready.1 hop).2
    intro op hop
    rcases List.mem_append.1 (hperm.mem_iff.2 hop) with hop' | hop'
    · exact .of_available hop (hready op hop')
    · exact ((ih hrest op hop').of_ready hready).mono fun _ hmem => hperm.mem_iff.1 hmem

/-! ## The schedule -/

/-- The earliest layering of some operations. -/
structure Earliest (available : List String) (ops : List (Operation V E)) (s : Schedule V E) :
    Prop where
  /-- Each operation stands in a wave, and only once. -/
  perm : s.operations.Perm ops
  nonempty : ∀ w ∈ s.waves, w.operations ≠ []
  /-- An operation stands in the wave whose number is the least one such that its inputs are
  available or the outputs of waves with lower numbers. -/
  earliest : ∀ op ∈ ops, ∀ k, (∃ w, s.waves[k]? = some w ∧ op ∈ w.operations) ↔
    IsLeast {n | ReadyAfter available s.waves op n} k
  grouped : ∀ w ∈ s.waves, w.Grouped
  ascending : ∀ w ∈ s.waves, w.Ascending

theorem earliest_of_layer (h : layer available ops = .ok waves)
    (hn : (ops.map Operation.output).Nodup) : Earliest available ops { waves } where
  perm := (layer_ok h).2.1
  nonempty := nonempty_of_layer h
  earliest := fun _ hop k => mem_wave_iff h hop k
  grouped := (layer_ok h).2.2
  ascending := ascending_of_layer h hn

/-- **Schedules.** Let operations with different outputs be laid out when some names are available.
The rounds end after at most as many of them as there are operations. Let `derivable` be the least
set of outputs that is closed under the operations. If it holds all outputs, the schedule is the
earliest layering; if not, the error names the outputs that it does not hold, in ascending order.
Neither the order of the operations nor that of the available names shows. -/
theorem earliest_ofOperations {ops : List (Operation V E)} (hn : (ops.map Operation.output).Nodup)
    (available : List String) :
    (∃ n ≤ ops.length, ∃ l, Layering.round^[n] { available, remaining := ops } = l ∧ l.IsOver ∧
      ofOperations ops available =
        (l.result.map fun waves => { waves }).mapError Error.cycleAmong) ∧
    (∃ derivable : Set String, IsLeast {s | Saturated available ops s} derivable ∧
      ((∀ op ∈ ops, op.output ∈ derivable) →
        ∃ s, ofOperations ops available = .ok s ∧ Earliest available ops s) ∧
      ((∃ op ∈ ops, op.output ∉ derivable) →
        ∃ outputs, ofOperations ops available = .error (.cycle outputs) ∧
          outputs.Pairwise (· < ·) ∧
          ∀ n, n ∈ outputs ↔ n ∈ ops.map Operation.output ∧ n ∉ derivable)) ∧
    ∀ ops' available', ops.Perm ops' → (∀ n, n ∈ available ↔ n ∈ available') →
      ofOperations ops' available' = ofOperations ops available := by
  refine ⟨?_, ⟨{n | Derivable available ops n}, isLeast_derivable available ops, ?_, ?_⟩, ?_⟩
  · obtain ⟨n, hle, hover, hresult⟩ := Layering.iterate_round available ops []
    refine ⟨n, hle, _, rfl, hover, ?_⟩
    rw [hresult, ofOperations_eq hn]
    cases layer available ops <;> rfl
  · intro hall
    rw [ofOperations_eq hn]
    cases hl : layer available ops with
    | ok waves => exact ⟨_, rfl, earliest_of_layer hl hn⟩
    | error outputs =>
      -- The layering is stuck only at outputs that cannot be derived.
      obtain ⟨_, stuck, -, hne, rfl, -⟩ := layer_error hl
      obtain ⟨op, hop⟩ := List.exists_mem_of_ne_nil _ hne
      obtain ⟨hmem, hnot⟩ := (mem_stuck_iff hl hn).1 (List.mem_map_of_mem hop)
      obtain ⟨op', hop', he⟩ := List.mem_map.1 hmem
      exact absurd (he ▸ hall op' hop') hnot
  · rintro ⟨op, hop, hnot⟩
    rw [ofOperations_eq hn]
    cases hl : layer available ops with
    | ok waves => exact absurd (derivable_of_layer hl op hop) hnot
    | error outputs =>
      have hnodup : outputs.Nodup := by
        obtain ⟨_, stuck, hperm, -, rfl, -⟩ := layer_error hl
        exact ((hperm.map Operation.output).nodup_iff.2 hn).sublist
          ((List.sublist_append_right _ _).map _)
      refine ⟨Names.sorted outputs, rfl, ?_, fun n => ?_⟩
      · exact Names.pairwise_lt (Names.sorted_nodup hnodup) (Names.sorted_pairwise _)
      · rw [Names.mem_sorted, mem_stuck_iff hl hn]
        rfl
  · intro ops' available' hp ha
    exact (ofOperations_congr hp hn fun _ _ i _ => ha i).symm

/-- The theorem at operations of which one computes a name that is available, and at the same
operations with one that reads its own output and one that reads a name nobody supplies. -/
theorem earliest_ofOperations_of_supplied :
    let op (output : String) (inputs : List String) (isAsync : Bool) : Operation Nat Unit :=
      { output, inputs, isAsync
        impl := { label := output, style := .coroutine, pauses := 1, apply := fun vs => .ok vs.sum } }
    let ops := [op "c" ["a", "b"] true, op "d" ["b"] false, op "a" ["x"] false, op "b" ["a"] true]
    let more := op "f" ["b", "y"] false :: op "e" ["e"] true :: ops
    (∃ s, ofOperations ops ["x", "b"] = .ok s ∧
      s.waves.map Wave.outputs = [["a", "d"], ["b", "c"]] ∧ Earliest ["x", "b"] ops s) ∧
    ∃ derivable, IsLeast {s | Saturated ["x", "b"] more s} derivable ∧
      ofOperations more ["x", "b"] = .error (.cycle ["e", "f"]) ∧
      ∀ n, n ∈ ["e", "f"] ↔ n ∈ more.map Operation.output ∧ n ∉ derivable := by
  intro op ops more
  have hops : ((ofOperations ops ["x", "b"]).map fun s => s.waves.map Wave.outputs) =
      .ok [["a", "d"], ["b", "c"]] := by cbv
  have hmore : ((ofOperations more ["x", "b"]).map fun s => s.waves.map Wave.outputs) =
      .error (.cycle ["e", "f"]) := by cbv
  have hn : (ops.map Operation.output).Nodup := by decide
  have hn' : (more.map Operation.output).Nodup := by decide
  obtain ⟨-, ⟨derivable, -, hok, herror⟩, -⟩ := earliest_ofOperations hn ["x", "b"]
  obtain ⟨-, ⟨derivable', hleast', hok', herror'⟩, -⟩ := earliest_ofOperations hn' ["x", "b"]
  constructor
  · by_cases hall : ∀ op ∈ ops, op.output ∈ derivable
    · obtain ⟨s, hs, hearliest⟩ := hok hall
      rw [hs] at hops
      exact ⟨s, hs, Except.ok.inj hops, hearliest⟩
    · push Not at hall
      obtain ⟨outputs, hs, -⟩ := herror hall
      rw [hs] at hops
      cases hops
  · by_cases hall : ∀ op ∈ more, op.output ∈ derivable'
    · obtain ⟨s, hs, -⟩ := hok' hall
      rw [hs] at hmore
      cases hmore
    · push Not at hall
      obtain ⟨outputs, hs, -, hmem⟩ := herror' hall
      rw [hs] at hmore
      obtain rfl : outputs = ["e", "f"] := Error.cycle.inj (Except.error.inj hmore)
      exact ⟨derivable', hleast', hs, hmem⟩

end DemandPlan.Schedule
