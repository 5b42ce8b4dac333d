import DemandPlan.Schedule
import DemandPlan.Proofs.Outcome
import DemandPlan.Proofs.Requirements
import DemandPlan.Proofs.Table

/-!
# Schedules

The waves of a schedule can run one after the other (`Runnable`), and together they are the
operations that were laid out.

* `layer_ok`, `layer_error`: what the layering says when it succeeds and when it is stuck.
* `mem_stuck_iff`: it is stuck at the outputs that cannot be derived from what is available.
* `layer_congr`, `ofOperations_congr`: the waves depend neither on the order of the operations nor
  on available names that no operation reads.
* `ofQuery_isOk_iff`, `ofQuery_error`: the operations of a query can be laid out just in case every
  name of the query is computed in finitely many steps; otherwise the error names those that are
  not.
* `ofQuery_congr`: queries with the same needs have the same schedule.
-/

namespace DemandPlan

variable {V E : Type}

/-! ## Waves -/

namespace Operation

theorem sorted_pairwise (ops : List (Operation V E)) :
    (sorted ops).Pairwise (·.output ≤ ·.output) := by
  have h := @List.pairwise_mergeSort (Operation V E) (fun a b => decide (a.output ≤ b.output))
    (fun a b c hab hbc => by
      simpa using String.le_trans (by simpa using hab) (by simpa using hbc))
    (fun a b => by simpa using String.le_total a.output b.output) ops
  simpa [sorted] using h

theorem sorted_eq_of_perm {a b : List (Operation V E)} (h : a.Perm b)
    (hn : (a.map Operation.output).Nodup) : sorted a = sorted b := by
  refine List.Perm.eq_of_pairwise (fun o o' ho ho' hle hge => ?_) (sorted_pairwise a)
    (sorted_pairwise b) (((sorted_perm a).trans h).trans (sorted_perm b).symm)
  exact List.inj_on_of_nodup_map hn (by simpa using ho) (by simpa [h.mem_iff] using ho')
    (String.le_antisymm hle hge)

end Operation

namespace Wave

theorem operations_ofReady_perm (ready : List (Operation V E)) :
    (ofReady ready).operations.Perm ready := by
  have h := List.filter_append_perm (fun op => !op.isAsync) (Operation.sorted ready)
  simp only [Bool.not_not] at h
  exact h.trans (Operation.sorted_perm ready)

/-- The groups of a wave hold operations of one kind each. -/
def Grouped (w : Wave V E) : Prop :=
  (∀ op ∈ w.sync, op.isAsync = false) ∧ ∀ op ∈ w.async, op.isAsync = true

theorem grouped_ofReady (ready : List (Operation V E)) : (ofReady ready).Grouped := by
  simp [Grouped, ofReady]

/-- The operations of each group are in ascending order of their outputs, which are different. -/
def Ascending (w : Wave V E) : Prop :=
  (w.sync.map Operation.output).Pairwise (· < ·) ∧ (w.async.map Operation.output).Pairwise (· < ·)

theorem ascending_ofReady {ready : List (Operation V E)} (hn : (ready.map Operation.output).Nodup) :
    (ofReady ready).Ascending := by
  have hnodup : ((Operation.sorted ready).map Operation.output).Nodup :=
    ((Operation.sorted_perm ready).map _).nodup_iff.2 hn
  have hlt : ((Operation.sorted ready).map Operation.output).Pairwise (· < ·) :=
    Names.pairwise_lt hnodup (List.pairwise_map.2 (Operation.sorted_pairwise ready))
  exact ⟨hlt.sublist (List.filter_sublist.map _), hlt.sublist (List.filter_sublist.map _)⟩

end Wave

namespace Schedule

/-! ## The layering -/

/-- Waves that can run one after the other: each reads only what is available from the beginning
or computed by an earlier wave. -/
def Runnable (available : List String) : List (Wave V E) → Prop
  | [] => True
  | w :: waves => (∀ op ∈ w.operations, ∀ i ∈ op.inputs, i ∈ available) ∧
      Runnable (available ++ w.outputs) waves

/-- Of the available names only those count that some operation reads. -/
theorem Runnable.of_read {waves : List (Wave V E)} {a b : List String}
    (h : ∀ op ∈ waves.flatMap Wave.operations, ∀ i ∈ op.inputs, i ∈ a → i ∈ b)
    (hr : Runnable a waves) : Runnable b waves := by
  induction waves generalizing a b with
  | nil => trivial
  | cons w waves ih =>
    rw [List.flatMap_cons] at h
    refine ⟨fun op hop i hi => h op (List.mem_append_left _ hop) i hi (hr.1 op hop i hi),
      ih (fun op hop i hi hin => ?_) hr.2⟩
    rcases List.mem_append.1 hin with hin | hin
    · exact List.mem_append_left _ (h op (List.mem_append_right _ hop) i hi hin)
    · exact List.mem_append_right _ hin

theorem isReady_iff {available : List String} {op : Operation V E} :
    isReady available op = true ↔ ∀ i ∈ op.inputs, i ∈ available := by
  simp [isReady]

theorem mem_ready {available : List String} {ops : List (Operation V E)} {op : Operation V E} :
    op ∈ ready available ops ↔ op ∈ ops ∧ ∀ i ∈ op.inputs, i ∈ available := by
  rw [ready, List.mem_filter, isReady_iff]

theorem mem_unready {available : List String} {ops : List (Operation V E)} {op : Operation V E} :
    op ∈ unready available ops ↔ op ∈ ops ∧ ¬∀ i ∈ op.inputs, i ∈ available := by
  rw [unready, List.mem_filter, Bool.not_eq_true', ← Bool.not_eq_true, isReady_iff]

theorem ready_append_unready_perm (available : List String) (ops : List (Operation V E)) :
    (ready available ops ++ unready available ops).Perm ops :=
  List.filter_append_perm (isReady available) ops

theorem mem_outputs_ofReady {ready : List (Operation V E)} {n : String} :
    n ∈ (Wave.ofReady ready).outputs ↔ n ∈ ready.map Operation.output :=
  ((Wave.operations_ofReady_perm ready).map _).mem_iff

/-- One wave, and then the layering of what remains. -/
theorem layer_of_ready {available : List String} {ops : List (Operation V E)}
    (h : ready available ops ≠ []) :
    layer available ops =
      (layer (available ++ (ready available ops).map Operation.output)
        (unready available ops)).map (Wave.ofReady (ready available ops) :: ·) := by
  have he : ¬ops.isEmpty = true := fun he => h (by rw [List.isEmpty_iff.1 he]; rfl)
  rw [layer, if_neg he, dif_neg h]

/-- What the layering says when it succeeds. -/
theorem layer_ok {available : List String} {ops : List (Operation V E)} {waves : List (Wave V E)}
    (h : layer available ops = .ok waves) :
    Runnable available waves ∧ (waves.flatMap Wave.operations).Perm ops ∧
      ∀ w ∈ waves, w.Grouped := by
  fun_induction layer available ops generalizing waves with
  | case1 available ops he =>
    cases h
    simp only [List.isEmpty_iff] at he
    simp [he, Runnable]
  | case2 => cases h
  | case3 available ops he hr _ ih =>
    obtain ⟨rest, hrest, rfl⟩ := Outcome.exists_of_map_eq_ok h
    obtain ⟨hrun, hperm, hgroup⟩ := ih hrest
    refine ⟨⟨fun op hop i hi => ?_, hrun.of_read fun _ _ n _ hn => ?_⟩, ?_, ?_⟩
    · rw [(Wave.operations_ofReady_perm _).mem_iff, mem_ready] at hop
      exact hop.2 i hi
    · simpa [mem_outputs_ofReady] using hn
    · rw [List.flatMap_cons]
      exact ((Wave.operations_ofReady_perm _).append hperm).trans
        (ready_append_unready_perm available ops)
    · intro w hw
      rcases List.mem_cons.1 hw with rfl | hw
      · exact Wave.grouped_ofReady _
      · exact hgroup w hw

theorem ascending_of_layer {available : List String} {ops : List (Operation V E)}
    {waves : List (Wave V E)} (h : layer available ops = .ok waves)
    (hn : (ops.map Operation.output).Nodup) : ∀ w ∈ waves, w.Ascending := by
  fun_induction layer available ops generalizing waves with
  | case1 =>
    cases h
    exact fun _ hw => (nomatch hw)
  | case2 => cases h
  | case3 available ops he hr _ ih =>
    obtain ⟨rest, hrest, rfl⟩ := Outcome.exists_of_map_eq_ok h
    rw [List.forall_mem_cons]
    exact ⟨Wave.ascending_ofReady (hn.sublist (List.filter_sublist.map _)),
      ih hrest (hn.sublist (List.filter_sublist.map _))⟩

/-- The outputs that can be computed from what is available, in any order. -/
inductive Derivable (available : List String) (ops : List (Operation V E)) : String → Prop
  | output {op : Operation V E} : op ∈ ops →
    (∀ i ∈ op.inputs, i ∉ available → Derivable available ops i) → Derivable available ops op.output

theorem Derivable.mem_outputs {available : List String} {ops : List (Operation V E)} {n : String}
    (h : Derivable available ops n) : n ∈ ops.map Operation.output := by
  obtain ⟨hop, -⟩ := h
  exact List.mem_map_of_mem hop

theorem Derivable.mono {available : List String} {ops ops' : List (Operation V E)} {n : String}
    (h : Derivable available ops n) (hops : ∀ op ∈ ops, op ∈ ops') :
    Derivable available ops' n := by
  induction h with
  | output hop _ ih => exact .output (hops _ hop) ih

theorem Derivable.of_available {available : List String} {ops : List (Operation V E)}
    {op : Operation V E} (hop : op ∈ ops) (h : ∀ i ∈ op.inputs, i ∈ available) :
    Derivable available ops op.output :=
  .output hop fun i hi hia => absurd (h i hi) hia

/-- What the operations of the first wave compute can be derived as well as be available. -/
theorem Derivable.of_ready {available : List String} {ops rest : List (Operation V E)}
    (hready : ∀ op ∈ ops, ∀ i ∈ op.inputs, i ∈ available) {n : String}
    (h : Derivable (available ++ ops.map Operation.output) rest n) :
    Derivable available (ops ++ rest) n := by
  induction h with
  | output hop _ ih =>
    refine .output (List.mem_append_right _ hop) fun i hi hia => ?_
    by_cases hout : i ∈ ops.map Operation.output
    · obtain ⟨op, hop, rfl⟩ := List.mem_map.1 hout
      exact .of_available (List.mem_append_left _ hop) (hready op hop)
    · exact ih i hi fun hmem => (List.mem_append.1 hmem).elim hia hout

/-- What the layering says when it is stuck: each of the operations it names reads a name that is
neither available nor the output of another operation than these, and the outputs of the others can
be derived. -/
theorem layer_error {available : List String} {ops : List (Operation V E)} {outputs : List String}
    (h : layer available ops = .error outputs) :
    ∃ laid stuck : List (Operation V E), (laid ++ stuck).Perm ops ∧ stuck ≠ [] ∧
      outputs = stuck.map Operation.output ∧ (∀ op ∈ laid, Derivable available laid op.output) ∧
      ∀ op ∈ stuck, ∃ i ∈ op.inputs, i ∉ available ∧ i ∉ laid.map Operation.output := by
  fun_induction layer available ops with
  | case1 => cases h
  | case2 available ops he hr =>
    cases h
    refine ⟨[], ops, List.Perm.refl _, by simpa using he, rfl, fun _ h => (nomatch h),
      fun op hop => ?_⟩
    have hnot : ¬∀ i ∈ op.inputs, i ∈ available := fun hin => by
      have : op ∈ ready available ops := mem_ready.2 ⟨hop, hin⟩
      rw [hr] at this
      cases this
    push Not at hnot
    obtain ⟨i, hi, hia⟩ := hnot
    exact ⟨i, hi, hia, List.not_mem_nil⟩
  | case3 available ops he hr _ ih =>
    -- One wave is laid out, and the rest is stuck with its outputs available.
    obtain ⟨laid, stuck, hperm, hne, rfl, hlaid, hstuck⟩ :=
      ih (Outcome.eq_of_map_eq_error h)
    have hready : ∀ op ∈ ready available ops, ∀ i ∈ op.inputs, i ∈ available := fun op hop =>
      (mem_ready.1 hop).2
    refine ⟨ready available ops ++ laid, stuck, ?_, hne, rfl, fun op hop => ?_, fun op hop => ?_⟩
    · rw [List.append_assoc]
      exact (hperm.append_left _).trans (ready_append_unready_perm available ops)
    · rcases List.mem_append.1 hop with hop' | hop'
      · exact .of_available hop (hready op hop')
      · exact (hlaid op hop').of_ready hready
    · obtain ⟨i, hi, hia, hil⟩ := hstuck op hop
      rw [List.mem_append, not_or] at hia
      exact ⟨i, hi, hia.1, by simpa using ⟨by simpa using hia.2, by simpa using hil⟩⟩

/-- **What the layering is stuck at.** These are the outputs that cannot be derived. -/
theorem mem_stuck_iff {available : List String} {ops : List (Operation V E)}
    {outputs : List String} (h : layer available ops = .error outputs)
    (hn : (ops.map Operation.output).Nodup) {n : String} :
    n ∈ outputs ↔ n ∈ ops.map Operation.output ∧ ¬Derivable available ops n := by
  obtain ⟨laid, stuck, hperm, -, rfl, hlaid, hstuck⟩ := layer_error h
  have houtputs : ∀ {m}, m ∈ ops.map Operation.output ↔
      m ∈ laid.map Operation.output ∨ m ∈ stuck.map Operation.output := by
    intro m
    rw [← (hperm.map _).mem_iff, List.map_append, List.mem_append]
  have hnot : ∀ m, Derivable available ops m → m ∉ stuck.map Operation.output := by
    intro m hm
    -- A derivation of a stuck output reads one of the names that stop it, which is another stuck
    -- output.
    induction hm with
    | @output op' hop' hinputs ih =>
      intro hmem
      obtain ⟨op, hop, he⟩ := List.mem_map.1 hmem
      have hmem' : op ∈ ops := hperm.mem_iff.1 (List.mem_append_right _ hop)
      obtain rfl := List.inj_on_of_nodup_map hn hmem' hop' he
      obtain ⟨i, hi, hia, hil⟩ := hstuck op hop
      exact ih i hi hia ((houtputs.1 (hinputs i hi hia).mem_outputs).resolve_left hil)
  constructor
  · exact fun hmem => ⟨houtputs.2 (.inr hmem), fun hm => hnot n hm hmem⟩
  · rintro ⟨hmem, hunderivable⟩
    refine (houtputs.1 hmem).resolve_left fun hl => hunderivable ?_
    obtain ⟨op, hop, rfl⟩ := List.mem_map.1 hl
    exact (hlaid op hop).mono fun _ hop => hperm.mem_iff.1 (List.mem_append_left _ hop)

/-- Two results of the layering with the same waves, or stuck at the same outputs. -/
def SameLayers : Except (List String) (List (Wave V E)) →
    Except (List String) (List (Wave V E)) → Prop
  | .ok waves, .ok waves' => waves = waves'
  | .error outputs, .error outputs' => outputs.Perm outputs'
  | _, _ => False

/-- Which operations are ready depends on no other names than those that they read. -/
theorem ready_perm {a b : List String} {ops ops' : List (Operation V E)} (hp : ops.Perm ops')
    (h : ∀ op ∈ ops, ∀ i ∈ op.inputs, i ∈ a ↔ i ∈ b) :
    (ready a ops).Perm (ready b ops') ∧ (unready a ops).Perm (unready b ops') := by
  have hsame : ∀ op ∈ ops, isReady a op = isReady b op := fun op hop => by
    rw [Bool.eq_iff_iff, isReady_iff, isReady_iff]
    exact forall₂_congr (h op hop)
  have hready : ready a ops = ready b ops := List.filter_congr hsame
  have hunready : unready a ops = unready b ops :=
    List.filter_congr fun op hop => by rw [hsame op hop]
  rw [hready, hunready]
  exact ⟨hp.filter _, hp.filter _⟩

/-- **The layering depends on little.** The order of the operations does not show, nor do available
names that no operation reads. -/
theorem layer_congr {a b : List String} {ops ops' : List (Operation V E)} (hp : ops.Perm ops')
    (hn : (ops.map Operation.output).Nodup)
    (h : ∀ op ∈ ops, ∀ i ∈ op.inputs, i ∈ a ↔ i ∈ b) : SameLayers (layer a ops) (layer b ops') := by
  fun_induction layer a ops generalizing b ops' with
  | case1 a ops he =>
    obtain rfl := List.isEmpty_iff.1 he
    obtain rfl := List.nil_perm.1 hp
    rw [layer]
    simp [SameLayers]
  | case2 a ops he hr =>
    have hr' : ready b ops' = [] := List.nil_perm.1 (hr ▸ (ready_perm hp h).1)
    have he' : ¬ops'.isEmpty = true := by rwa [← hp.isEmpty_eq]
    rw [layer, if_neg he', dif_pos hr']
    exact hp.map _
  | case3 a ops he hr _ ih =>
    obtain ⟨hready, hunready⟩ := ready_perm hp h
    have hr' : ready b ops' ≠ [] := fun e => hr (List.perm_nil.1 (e ▸ hready))
    -- A wave is sorted by name, which hides the order in which its operations came.
    have hwave : Wave.ofReady (ready a ops) = Wave.ofReady (ready b ops') := by
      unfold Wave.ofReady
      rw [Operation.sorted_eq_of_perm hready (hn.sublist (List.filter_sublist.map _))]
    have hrest := ih hunready (hn.sublist (List.filter_sublist.map _))
      (b := b ++ (ready b ops').map Operation.output) fun op hop i hi => by
        have hop' : op ∈ ops := (List.mem_filter.1 hop).1
        rw [List.mem_append, List.mem_append, h op hop' i hi, (hready.map _).mem_iff]
    rw [layer_of_ready hr', hwave]
    revert hrest
    cases layer (a ++ (ready a ops).map Operation.output) (unready a ops) <;>
      cases layer (b ++ (ready b ops').map Operation.output) (unready b ops') <;>
      simp [SameLayers, Except.map]

theorem distinctOutputs_eq_self {ops : List (Operation V E)}
    (h : (ops.map Operation.output).Nodup) : distinctOutputs ops = ops := by
  rw [distinctOutputs, Table.values, Table.entries_ofList (by simpa [Function.comp_def] using h)]
  simp [Function.comp_def]

/-- Operations with different outputs are layered as they are. -/
theorem ofOperations_eq {available : List String} {ops : List (Operation V E)}
    (hn : (ops.map Operation.output).Nodup) : ofOperations ops available =
      match layer available ops with
      | .ok waves => .ok { waves }
      | .error outputs => .error (.cycleAmong outputs) := by
  cases hl : layer available ops <;> simp only [ofOperations, distinctOutputs_eq_self hn, hl]

/-- **Schedules depend on little.** The order of the operations does not show, not in the error
either, nor do available names that no operation reads. -/
theorem ofOperations_congr {a b : List String} {ops ops' : List (Operation V E)}
    (hp : ops.Perm ops') (hn : (ops.map Operation.output).Nodup)
    (h : ∀ op ∈ ops, ∀ i ∈ op.inputs, i ∈ a ↔ i ∈ b) : ofOperations ops a = ofOperations ops' b := by
  have hl := layer_congr hp hn h
  rw [ofOperations_eq hn, ofOperations_eq ((hp.map _).nodup hn)]
  revert hl
  cases layer a ops <;> cases layer b ops' <;> simp only [SameLayers, false_imp_iff]
  · intro hp
    rw [Error.cycleAmong, Error.cycleAmong, Names.sorted_eq_of_perm hp]
  · rintro rfl
    rfl

/-! ## Schedules of queries -/

section Query

open Requirements

variable {r : Registry V E} {hints wanted : List String}

/-- The schedule of a query, if there is one. -/
def ofQuery (r : Registry V E) (wanted hints : List String) : Except Error (Schedule V E) :=
  ofOperations (find r wanted hints).operations ((find r wanted hints).params ++ hints)

theorem ofQuery_eq : ofQuery r wanted hints =
    match layer ((find r wanted hints).params ++ hints) (find r wanted hints).operations with
    | .ok waves => .ok { waves }
    | .error outputs => .error (.cycleAmong outputs) :=
  ofOperations_eq outputs_nodup

/-- A needed name is available from the beginning just in case nobody computes it. -/
theorem mem_available_iff {n : String} (hn : Needed r hints wanted n) :
    n ∈ (find r wanted hints).params ++ hints ↔ producer r hints n = none := by
  rw [List.mem_append, mem_params_iff, and_iff_right hn]
  exact ⟨fun h => h.elim id producer_of_mem_hints, Or.inl⟩

/-- What an operation of a query reads is available from the beginning or the output of another
operation. -/
theorem input_mem {op : Operation V E} (h : op ∈ (find r wanted hints).operations) {i : String}
    (hi : i ∈ op.inputs) (hia : i ∉ (find r wanted hints).params ++ hints) :
    i ∈ (find r wanted hints).operations.map Operation.output := by
  obtain ⟨hn, hp⟩ := mem_operations_iff.1 h
  have hin : Needed r hints wanted i := .input hn ⟨op, hp, hi⟩
  exact mem_outputs_iff.2 ⟨hin, mt (mem_available_iff hin).2 hia⟩

/-- **The schedule of a query.** Its operations are those that the query needs, and its waves read
nothing but parameters and what earlier waves compute. -/
theorem ofQuery_ok {s : Schedule V E} (h : ofQuery r wanted hints = .ok s) :
    Runnable (find r wanted hints).params s.waves ∧
      s.operations.Perm (find r wanted hints).operations ∧ ∀ w ∈ s.waves, w.Grouped := by
  rw [ofQuery_eq] at h
  split at h
  · next waves hl =>
    cases h
    obtain ⟨hrun, hperm, hgroup⟩ := layer_ok hl
    refine ⟨hrun.of_read fun op hop i hi hin => ?_, hperm, hgroup⟩
    have hop : op ∈ (find r wanted hints).operations := hperm.mem_iff.1 hop
    rcases List.mem_append.1 hin with hin | hin
    · exact hin
    · obtain ⟨hn, hp⟩ := mem_operations_iff.1 hop
      exact mem_params_iff.2 ⟨.input hn ⟨op, hp, hi⟩, producer_of_mem_hints hin⟩
  · cases h

/-- The waves of a query keep to the order of names. -/
theorem ascending_of_ofQuery {s : Schedule V E} (h : ofQuery r wanted hints = .ok s) :
    ∀ w ∈ s.waves, w.Ascending := by
  rw [ofQuery_eq] at h
  split at h
  · next waves hl =>
    cases h
    exact ascending_of_layer hl outputs_nodup
  · cases h

theorem grounded_of_runnable {waves : List (Wave V E)} {available : List String}
    (hr : Runnable available waves) (ha : ∀ n ∈ available, Grounded r hints n)
    (hw : ∀ op ∈ waves.flatMap Wave.operations, producer r hints op.output = some op) :
    ∀ op ∈ waves.flatMap Wave.operations, Grounded r hints op.output := by
  induction waves generalizing available with
  | nil => simp
  | cons w waves ih =>
    rw [List.flatMap_cons] at hw ⊢
    have hwave : ∀ op ∈ w.operations, Grounded r hints op.output := by
      intro op hop
      refine grounded_of_inputs (hw op (List.mem_append_left _ hop)) fun i hi => ?_
      exact ha i (hr.1 op hop i hi)
    intro op hop
    rcases List.mem_append.1 hop with hop | hop
    · exact hwave op hop
    · refine ih hr.2 (fun n hn => ?_) (fun op hop => hw op (List.mem_append_right _ hop)) op hop
      rcases List.mem_append.1 hn with hn | hn
      · exact ha n hn
      · obtain ⟨op', hop', rfl⟩ := List.mem_map.1 hn
        exact hwave op' hop'

/-- What can be derived in a query is computed in finitely many steps, and the other way round. -/
theorem derivable_iff_grounded {n : String}
    (hn : n ∈ (find r wanted hints).operations.map Operation.output) :
    Derivable ((find r wanted hints).params ++ hints) (find r wanted hints).operations n ↔
      Grounded r hints n := by
  constructor
  · intro h
    induction h with
    | @output op hop _ ih =>
      obtain ⟨hneeded, hp⟩ := mem_operations_iff.1 hop
      refine grounded_of_inputs hp fun i hi => ?_
      by_cases hia : i ∈ (find r wanted hints).params ++ hints
      · exact grounded_of_producer_none ((mem_available_iff (.input hneeded ⟨op, hp, hi⟩)).1 hia)
      · exact ih i hi hia (input_mem hop hi hia)
  · intro h
    induction h with
    | intro n _ ih =>
      obtain ⟨op, hop, rfl⟩ := List.mem_map.1 hn
      refine .output hop fun i hi hia => ?_
      exact ih i ⟨op, (mem_operations_iff.1 hop).2, hi⟩ (input_mem hop hi hia)

/-- A query is refused for the needed names that are not computed in finitely many steps. -/
theorem ofQuery_error {e : Error} (h : ofQuery r wanted hints = .error e) :
    ∃ outputs, e = .cycleAmong outputs ∧ outputs ≠ [] ∧
      ∀ n, n ∈ outputs ↔ Needed r hints wanted n ∧ ¬Grounded r hints n := by
  rw [ofQuery_eq] at h
  split at h
  · cases h
  · next outputs hl =>
    refine ⟨outputs, (Except.error.inj h).symm, ?_, fun n => ?_⟩
    · obtain ⟨_, stuck, -, hne, rfl, -⟩ := layer_error hl
      simpa using hne
    · rw [mem_stuck_iff hl outputs_nodup]
      constructor
      · rintro ⟨hmem, hnot⟩
        exact ⟨(mem_outputs_iff.1 hmem).1, mt (derivable_iff_grounded hmem).2 hnot⟩
      · rintro ⟨hn, hnot⟩
        have hmem := mem_outputs_iff.2 ⟨hn, mt grounded_of_producer_none hnot⟩
        exact ⟨hmem, mt (derivable_iff_grounded hmem).1 hnot⟩

/-- A query has a schedule just in case each of its names is computed in finitely many steps. -/
theorem ofQuery_isOk_iff : (∃ s, ofQuery r wanted hints = .ok s) ↔
    ∀ n, Needed r hints wanted n → Grounded r hints n := by
  constructor
  · rintro ⟨s, hs⟩ n hn
    obtain ⟨hrun, hperm, -⟩ := ofQuery_ok hs
    cases hp : producer r hints n with
    | none => exact grounded_of_producer_none hp
    | some op =>
      obtain rfl := output_of_producer hp
      refine grounded_of_runnable hrun (fun m hm => ?_) (fun op' hop' => ?_) op
        (hperm.mem_iff.2 (mem_operations_iff.2 ⟨hn, hp⟩))
      · exact grounded_of_producer_none (mem_params_iff.1 hm).2
      · exact (mem_operations_iff.1 (hperm.mem_iff.1 hop')).2
  · intro hg
    cases hq : ofQuery r wanted hints with
    | ok s => exact ⟨s, rfl⟩
    | error e =>
      obtain ⟨outputs, -, hne, hstuck⟩ := ofQuery_error hq
      obtain ⟨n, hmem⟩ := List.exists_mem_of_ne_nil _ hne
      exact absurd (hg n ((hstuck n).1 hmem).1) ((hstuck n).1 hmem).2

/-- **Shared schedules.** Queries with the same needs have the same schedule, or are both refused
for the same cycle. -/
theorem ofQuery_congr {hints' wanted' : List String}
    (h : SameNeeds r hints wanted hints' wanted') :
    ofQuery r wanted hints = ofQuery r wanted' hints' := by
  refine ofOperations_congr h.operations_perm outputs_nodup fun op hop i hi => ?_
  obtain ⟨hn, hp⟩ := mem_operations_iff.1 hop
  have hin : Needed r hints wanted i := .input hn ⟨op, hp, hi⟩
  rw [mem_available_iff hin, mem_available_iff ((h.1 i).1 hin), h.2 i hin]

end Query

end Schedule

end DemandPlan
