import DemandPlan.Concurrent
import DemandPlan.Proofs.Evaluation

/-!
# Concurrent evaluation is right, move by move

Whatever the order of the moves, the memo holds values and the failed names hold failures that they
have by recursion on the operations, and each implementation has been called once at most. Jobs
never wait for each other in a circle, because a job only waits for names that it reads.

* `Step`: what a move can do.
* `Sound`: the invariant of the states that moves lead to; `Sound.step`: every move keeps it.
* `Sound.exists_move`: as long as there are jobs, one of them can go on.
-/

namespace DemandPlan.Concurrent

open Requirements

variable {V E : Type} {r : Registry V E} {args : Table V} {wanted : List String}
  {ops : List (Operation V E)} {s s' : State V E} {name : String}

/-! ## What a move does -/

/-- What a move can lead to. -/
inductive Step (r : Registry V E) (s : State V E) : State V E → Prop
  /-- A request is answered. -/
  | answer {job name : String} {op : Operation V E} {requests : List (Request V E)} {index : Nat}
    {x : Except (Trouble E) V} :
    s.jobs.find? job = some (.collecting op requests) → requests[index]? = some ⟨name, none⟩ →
    s.answer? name = some x → Step r s (s.reply job op requests index name x)
  /-- A request is for a name that nobody supplies. -/
  | missing {job name : String} {op : Operation V E} {requests : List (Request V E)}
    {index : Nat} :
    s.jobs.find? job = some (.collecting op requests) → requests[index]? = some ⟨name, none⟩ →
    s.answer? name = none → name ∉ s.jobs → r.lookup name = none →
    Step r s (s.reply job op requests index name (.error (.missing name)))
  /-- A request is the first one for its name. -/
  | start {job name : String} {op op' : Operation V E} {requests : List (Request V E)}
    {index : Nat} :
    s.jobs.find? job = some (.collecting op requests) → requests[index]? = some ⟨name, none⟩ →
    s.answer? name = none → name ∉ s.jobs → r.lookup name = some op' →
    Step r s (s.start name op')
  /-- A job has the values of its inputs. -/
  | launch {job : String} {op : Operation V E} {requests : List (Request V E)} {args : List V} :
    s.jobs.find? job = some (.collecting op requests) → (∀ q ∈ requests, q.answer ≠ none) →
    State.collect requests = .ok args → Step r s (s.launch job op args)
  /-- An input of a job has failed. -/
  | fail {job : String} {op : Operation V E} {requests : List (Request V E)} {t : Trouble E} :
    s.jobs.find? job = some (.collecting op requests) → (∀ q ∈ requests, q.answer ≠ none) →
    State.collect requests = .error t → Step r s (s.finish job (.error t))
  /-- An implementation goes on and gives way once more. -/
  | pause {job : String} {left : Nat} {closing : List Event} {outcome : Except (Failure E) V} :
    s.jobs.find? job = some (.working (left + 1) closing outcome) →
    Step r s { s with jobs := s.jobs.insert job (.working left closing outcome) }
  /-- An implementation comes to its end. -/
  | close {job : String} {closing : List Event} {outcome : Except (Failure E) V} :
    s.jobs.find? job = some (.working 0 closing outcome) →
    Step r s ({ s with trace := s.trace ++ closing }.finish job (outcome.mapError .failed))

theorem step_of_step? {m : Move} (h : s.step? r m = some s') : Step r s s' := by
  cases m with
  | request job index =>
    -- The splits follow the code: is the job collecting, is the request open, is the name known,
    -- does it have a job already, and does the registry have it?
    simp only [State.step?] at h
    split at h
    · next op requests hj =>
      split at h
      · next name hq =>
        split at h
        · next x hx => exact Option.some.inj h ▸ .answer hj hq hx
        · next hx =>
          split at h
          · cases h
          · next hjobs =>
            split at h
            · next hr => exact Option.some.inj h ▸ .missing hj hq hx hjobs hr
            · next op' hr => exact Option.some.inj h ▸ .start hj hq hx hjobs hr
      · cases h
    · cases h
  | proceed job =>
    simp only [State.step?] at h
    split at h
    · next op requests hj =>
      split at h
      · cases h
      · next hany =>
        have hall : ∀ q ∈ requests, q.answer ≠ none := by simpa using hany
        split at h
        · next args hc => exact Option.some.inj h ▸ .launch hj hall hc
        · next t hc => exact Option.some.inj h ▸ .fail hj hall hc
    · next hj => exact Option.some.inj h ▸ .pause hj
    · next hj => exact Option.some.inj h ▸ .close hj
    · cases h

theorem mem_memo_finish (x : Except (Trouble E) V) {n : String} (hn : n ∈ s.memo) :
    n ∈ (s.finish name x).memo := by
  cases x with
  | ok v => exact Table.mem_insert.2 (.inr hn)
  | error t => exact hn

theorem mem_memo_launch (op : Operation V E) (vs : List V) {n : String} (hn : n ∈ s.memo) :
    n ∈ (s.launch name op vs).memo := by
  unfold State.launch
  dsimp only
  split
  · exact mem_memo_finish _ hn
  · exact hn

theorem mem_memo_start (op : Operation V E) {n : String} (hn : n ∈ s.memo) :
    n ∈ (s.start name op).memo := by
  unfold State.start
  split
  · exact mem_memo_launch op _ hn
  · exact hn

/-- Values are never lost. -/
theorem Step.mem_memo (h : Step r s s') {n : String} (hn : n ∈ s.memo) : n ∈ s'.memo := by
  cases h with
  | answer => exact hn
  | missing => exact hn
  | start => exact mem_memo_start _ hn
  | launch => exact mem_memo_launch _ _ hn
  | fail => exact mem_memo_finish _ hn
  | pause => exact hn
  | close => exact mem_memo_finish _ hn

/-- Only jobs make moves. -/
theorem Step.exists_job (h : Step r s s') : ∃ job, job ∈ s.jobs := by
  cases h with
  | answer hj | missing hj | start hj | launch hj | fail hj | pause hj | close hj =>
    exact ⟨_, Table.mem_of_find? hj⟩

/-! ## The invariant -/

theorem answer?_eq_none_iff : s.answer? name = none ↔ name ∉ s.memo ∧ name ∉ s.failed := by
  unfold State.answer?
  split
  · next hm => simp [Table.mem_of_find? hm]
  · next hm =>
    rw [Option.map_eq_none_iff, Table.find?_eq_none_iff]
    exact (and_iff_right (Table.find?_eq_none_iff.1 hm)).symm

/-- A name is not known yet: it has no answer, and nobody computes it. -/
theorem not_mem_known_iff : name ∉ s.known ↔ s.answer? name = none ∧ name ∉ s.jobs := by
  rw [answer?_eq_none_iff]
  simp only [State.known, List.mem_append, ← Table.mem_def, not_or]

/-- What the job of a name may look like, when the memo and the names of the operations that have
been called are these. -/
def JobSound (r : Registry V E) (args memo : Table V) (called : List String) (name : String) :
    Job V E → Prop
  | .collecting op requests =>
    producer r args.keys name = some op ∧ name ∉ called ∧
      requests.map Request.name = op.inputs ∧
      ∀ q ∈ requests, ∀ a, q.answer = some a →
        Evaluates r args.keys args q.name a ∧ ∀ v, a = .ok v → q.name ∈ memo
  | .working _ closing outcome =>
    name ∈ called ∧ closing.filter Event.isOpening = [] ∧
      (∀ i, Reads r args.keys name i → i ∈ memo) ∧
      Evaluates r args.keys args name (outcome.mapError .failed)

theorem JobSound.mono {memo memo' : Table V} {called called' : List String} {j : Job V E}
    (h : JobSound r args memo called name j) (hm : ∀ n ∈ memo, n ∈ memo')
    (hc : name ∈ called ↔ name ∈ called') : JobSound r args memo' called' name j := by
  cases j with
  | collecting op requests =>
    obtain ⟨hp, hnot, hnames, hanswers⟩ := h
    exact ⟨hp, mt hc.2 hnot, hnames, fun q hq a ha =>
      ⟨(hanswers q hq a ha).1, fun v hv => hm _ ((hanswers q hq a ha).2 v hv)⟩⟩
  | working left closing outcome =>
    obtain ⟨hcalled, hclosing, hreads, hvalue⟩ := h
    exact ⟨hc.1 hcalled, hclosing, fun i hi => hm i (hreads i hi), hvalue⟩

/-- **The invariant of concurrent evaluation**, when some operations have been called. -/
structure Sound (r : Registry V E) (args : Table V) (wanted : List String)
    (ops : List (Operation V E)) (s : State V E) : Prop where
  right : Evaluation.Right r args s.memo
  failed : ∀ n t, s.failed.find? n = some t → Evaluates r args.keys args n (.error t)
  jobs : ∀ n j, s.jobs.find? n = some j → Needed r args.keys wanted n ∧ n ∉ s.memo ∧
    n ∉ s.failed ∧ JobSound r args s.memo (ops.map Operation.output) n j
  openings : s.trace.filter Event.isOpening = ops.map Operation.openingEvent
  nodup : (ops.map Operation.output).Nodup
  ops_mem : ∀ op ∈ ops, op ∈ (find r wanted args.keys).operations
  called_known : ∀ n ∈ ops.map Operation.output, n ∈ s.known
  computed : ∀ n ∈ s.memo, n ∉ args → n ∈ ops.map Operation.output

/-- Before the first move. -/
theorem sound_init (r : Registry V E) (args : Table V) (wanted : List String) :
    Sound r args wanted [] { memo := args } where
  right := Evaluation.right_args
  failed _ _ h := nomatch h
  jobs _ _ h := nomatch h
  openings := rfl
  nodup := List.nodup_nil
  ops_mem _ h := nomatch h
  called_known _ h := nomatch h
  computed _ h hn := absurd h hn

/-! ## Changes of a state -/

/-- A job is begun or brought forward. -/
theorem Sound.insertJob (h : Sound r args wanted ops s) {j : Job V E}
    (hn : Needed r args.keys wanted name) (hm : name ∉ s.memo) (hf : name ∉ s.failed)
    (hj : JobSound r args s.memo (ops.map Operation.output) name j) :
    Sound r args wanted ops { s with jobs := s.jobs.insert name j } where
  right := h.right
  failed := h.failed
  jobs n j' hn' := by
    rw [Table.find?_insert] at hn'
    split at hn'
    · next he =>
      subst he
      obtain rfl := Option.some.inj hn'
      exact ⟨hn, hm, hf, hj⟩
    · exact h.jobs n j' hn'
  openings := h.openings
  nodup := h.nodup
  ops_mem := h.ops_mem
  called_known n hn' := State.known_insert_job j n (h.called_known n hn')
  computed := h.computed

/-- An implementation is called. -/
theorem Sound.call (h : Sound r args wanted ops s) {op : Operation V E} (left : Nat)
    (hop : op ∈ (find r wanted args.keys).operations) (hm : op.output ∉ s.memo)
    (hf : op.output ∉ s.failed) (hnot : op.output ∉ ops.map Operation.output)
    {opening closing : List Event} {outcome : Except (Failure E) V}
    (hopen : opening.filter Event.isOpening = [op.openingEvent])
    (hclose : closing.filter Event.isOpening = []) (hin : ∀ i ∈ op.inputs, i ∈ s.memo)
    (hv : Evaluates r args.keys args op.output (outcome.mapError .failed)) :
    Sound r args wanted (ops ++ [op])
      { s with
        jobs := s.jobs.insert op.output (.working left closing outcome)
        trace := s.trace ++ opening } where
  right := h.right
  failed := h.failed
  jobs n j hj := by
    rw [Table.find?_insert] at hj
    split at hj
    · next he =>
      subst he
      obtain rfl := Option.some.inj hj
      -- The job of this call: its inputs are in the memo, where values stay.
      obtain ⟨hn, hp⟩ := mem_operations_iff.1 hop
      exact ⟨hn, hm, hf, by simp, hclose, fun i hr => hin i ((reads_iff hp).1 hr), hv⟩
    · next he =>
      -- Another job, whose operation is called neither more nor less than before.
      obtain ⟨hn, hm', hf', hsound⟩ := h.jobs n j hj
      exact ⟨hn, hm', hf', hsound.mono (fun _ h => h) (by simp [he])⟩
  openings := by
    rw [List.filter_append, h.openings, hopen, List.map_append]
    rfl
  nodup := by
    rw [List.map_append, List.nodup_append]
    exact ⟨h.nodup, by simp, fun a ha b hb hab => hnot (by simp_all)⟩
  ops_mem op' hop' := by
    rcases List.mem_append.1 hop' with hop' | hop'
    · exact h.ops_mem op' hop'
    · exact List.mem_singleton.1 hop' ▸ hop
  called_known n hn := by
    rw [List.map_append, List.mem_append] at hn
    rcases hn with hn | hn
    · exact State.known_insert_job _ n (h.called_known n hn)
    · rw [List.map_singleton, List.mem_singleton] at hn
      simp [State.known, ← Table.mem_def, hn]
  computed n hn ha := by
    rw [List.map_append]
    exact List.mem_append_left _ (h.computed n hn ha)

/-- A call shows its last events. -/
theorem Sound.close (h : Sound r args wanted ops s) {closing : List Event}
    (hc : closing.filter Event.isOpening = []) :
    Sound r args wanted ops { s with trace := s.trace ++ closing } :=
  { h with openings := by rw [List.filter_append, hc, List.append_nil, h.openings] }

/-- A job is over. -/
theorem Sound.finish (h : Sound r args wanted ops s) {x : Except (Trouble E) V}
    (hx : Evaluates r args.keys args name x)
    (hok : ∀ v, x = .ok v → name ∈ ops.map Operation.output ∧
      ∀ i, Reads r args.keys name i → i ∈ s.memo) :
    Sound r args wanted ops (s.finish name x) := by
  have hknown : ∀ n ∈ ops.map Operation.output, n ∈ (s.finish name x).known := fun n hn =>
    State.known_finish x n (h.called_known n hn)
  have hjobs : ∀ n j, (s.jobs.erase name).find? n = some j →
      n ≠ name ∧ s.jobs.find? n = some j := by
    intro n j hj
    rw [Table.find?_erase] at hj
    split at hj
    · cases hj
    · next hne => exact ⟨hne, hj⟩
  cases x with
  | ok v =>
    -- A value enters the memo together with the values that were read for it.
    obtain ⟨hcalled, hreads⟩ := hok v rfl
    refine ⟨h.right.insert hreads hx, h.failed, fun n j hj => ?_, h.openings, h.nodup, h.ops_mem,
      hknown, fun n hn ha => ?_⟩
    · obtain ⟨hne, hj⟩ := hjobs n j hj
      obtain ⟨hn, hm, hf, hsound⟩ := h.jobs n j hj
      have hmono : ∀ m ∈ s.memo, m ∈ s.memo.insert name v := fun m hm =>
        Table.mem_insert.2 (.inr hm)
      exact ⟨hn, fun hins => (Table.mem_insert.1 hins).elim hne hm, hf, hsound.mono hmono Iff.rfl⟩
    · rcases Table.mem_insert.1 hn with rfl | hn
      · exact hcalled
      · exact h.computed n hn ha
  | error t =>
    refine ⟨h.right, fun n t' hn => ?_, fun n j hj => ?_, h.openings, h.nodup, h.ops_mem, hknown,
      h.computed⟩
    · change (s.failed.insert name t).find? n = some t' at hn
      rw [Table.find?_insert] at hn
      split at hn
      · next he => exact he ▸ Option.some.inj hn ▸ hx
      · exact h.failed n t' hn
    · obtain ⟨hne, hj⟩ := hjobs n j hj
      obtain ⟨hn, hm, hf, hsound⟩ := h.jobs n j hj
      exact ⟨hn, hm, fun hins => (Table.mem_insert.1 hins).elim hne hf, hsound⟩

theorem finish_insert_job (s : State V E) (name : String) (j : Job V E)
    (x : Except (Trouble E) V) :
    ({ s with jobs := s.jobs.insert name j } : State V E).finish name x = s.finish name x := by
  cases x <;> simp only [State.finish, Table.erase_insert_self]

/-- An implementation runs up to the first place where it gives way. If it does not, the call
begins and is over at once. -/
theorem Sound.launch (h : Sound r args wanted ops s) {op : Operation V E}
    (hop : op ∈ (find r wanted args.keys).operations) (hm : op.output ∉ s.memo)
    (hf : op.output ∉ s.failed) (hnot : op.output ∉ ops.map Operation.output)
    (hin : ∀ i ∈ op.inputs, i ∈ s.memo) {vs : List V}
    (hvs : List.Forall₂ (fun i v => Evaluates r args.keys args i (.ok v)) op.inputs vs) :
    Sound r args wanted (ops ++ [op]) (s.launch op.output op vs) := by
  have hp := (mem_operations_iff.1 hop).2
  have hv : Evaluates r args.keys args op.output ((op.activity vs).outcome.mapError .failed) :=
    Evaluates.of_call hp hvs
  have hclosing := Operation.openings_closing_activity op vs
  have hcall (left : Nat) := h.call left hop hm hf hnot
    (Operation.openings_opening_activity op vs) hclosing hin hv
  unfold State.launch
  dsimp only
  split
  · have hfinish := ((hcall 0).close hclosing).finish hv fun v _ =>
      ⟨by simp, fun i hr => hin i ((reads_iff hp).1 hr)⟩
    rw [← finish_insert_job _ _ (.working 0 (op.activity vs).closing (op.activity vs).outcome)]
    exact hfinish
  · exact hcall _

/-! ## Moves -/

/-- An answer is right, and a value that is given as an answer stays known. -/
theorem Sound.answer (h : Sound r args wanted ops s) {x : Except (Trouble E) V}
    (hx : s.answer? name = some x) :
    Evaluates r args.keys args name x ∧ ∀ v, x = .ok v → name ∈ s.memo := by
  unfold State.answer? at hx
  split at hx
  · next v hm =>
    obtain rfl := Option.some.inj hx
    exact ⟨h.right.value name v hm, fun _ _ => Table.mem_of_find? hm⟩
  · obtain ⟨t, ht, rfl⟩ := Option.map_eq_some_iff.1 hx
    exact ⟨h.failed name t ht, fun _ hv => by cases hv⟩

/-- A name that has an answer is not in progress. -/
theorem Sound.not_mem_jobs (h : Sound r args wanted ops s) {x : Except (Trouble E) V}
    (hx : s.answer? name = some x) : name ∉ s.jobs := by
  intro hj
  obtain ⟨j, hfound⟩ := Table.mem_iff_exists_find?.1 hj
  obtain ⟨-, hm, hf, -⟩ := h.jobs name j hfound
  rw [answer?_eq_none_iff.2 ⟨hm, hf⟩] at hx
  cases hx

/-- A name that is neither known nor computed by an operation is missing. -/
theorem Sound.missing (h : Sound r args wanted ops s) (hx : s.answer? name = none)
    (hr : r.lookup name = none) : Evaluates r args.keys args name (.error (.missing name)) := by
  have hm := Table.find?_eq_none_iff.2 (answer?_eq_none_iff.1 hx).1
  refine .missing ((h.right.producer_eq hm).trans hr) (Table.find?_eq_none_iff.2 fun ha => ?_)
  exact Table.find?_eq_none_iff.1 hm (h.right.given name ha)

/-- A name that is not known begins to be computed. -/
theorem Sound.start (h : Sound r args wanted ops s) {op : Operation V E}
    (hn : Needed r args.keys wanted name) (ha : s.answer? name = none) (hj : name ∉ s.jobs)
    (hr : r.lookup name = some op) : ∃ ops', Sound r args wanted ops' (s.start name op) := by
  obtain ⟨hm, hf⟩ := answer?_eq_none_iff.1 ha
  have hp : producer r args.keys name = some op :=
    (h.right.producer_eq (Table.find?_eq_none_iff.2 hm)).trans hr
  obtain rfl := output_of_producer hp
  have hnot : op.output ∉ ops.map Operation.output := fun hc =>
    not_mem_known_iff.2 ⟨ha, hj⟩ (h.called_known _ hc)
  unfold State.start
  split
  · next vs hvs =>
    have hfound := Table.mapM_find?_eq_some hvs
    refine ⟨ops ++ [op], h.launch (mem_operations_iff.2 ⟨hn, hp⟩) hm hf hnot (fun i hi => ?_)
      (hfound.imp fun i v => h.right.value i v)⟩
    obtain ⟨v, -, hv⟩ := Outcome.exists_of_forall₂ hfound hi
    exact Table.mem_of_find? hv
  · refine ⟨ops, h.insertJob hn hm hf ⟨hp, hnot, ?_, fun q hq a hqa => ?_⟩⟩
    · simp [Function.comp_def]
    · obtain ⟨i, -, rfl⟩ := List.mem_map.1 hq
      cases hqa

/-- A request of a job gets its answer. -/
theorem Sound.reply (h : Sound r args wanted ops s) {job : String} {op : Operation V E}
    {requests : List (Request V E)} {index : Nat} {answer : Option (Except (Trouble E) V)}
    {x : Except (Trouble E) V} (hj : s.jobs.find? job = some (.collecting op requests))
    (hq : requests[index]? = some ⟨name, answer⟩) (hx : Evaluates r args.keys args name x)
    (hok : ∀ v, x = .ok v → name ∈ s.memo) :
    Sound r args wanted ops (s.reply job op requests index name x) := by
  obtain ⟨hn, hm, hf, hp, hnot, hnames, hanswers⟩ := h.jobs job _ hj
  refine h.insertJob hn hm hf ⟨hp, hnot, ?_, fun q hmem a ha => ?_⟩
  · obtain ⟨hi, he⟩ := List.getElem?_eq_some_iff.1 hq
    have hlen : index < (requests.map Request.name).length := by rwa [List.length_map]
    have hname : (requests.map Request.name)[index] = name := by simp [he]
    rw [List.map_set, ← hnames]
    show (requests.map Request.name).set index name = _
    rw [← hname, List.set_getElem_self]
  · rcases List.mem_or_eq_of_mem_set hmem with hmem | rfl
    · exact hanswers q hmem a ha
    · obtain rfl := Option.some.inj ha
      exact ⟨hx, hok⟩

/-- Answers that are all there are collected as if the inputs were evaluated from left to right. -/
theorem collect_eq {requests : List (Request V E)} {value : String → Except (Trouble E) V}
    (hall : ∀ q ∈ requests, q.answer = some (value q.name)) :
    State.collect requests = (requests.map Request.name).mapM value := by
  have hanswers : requests.filterMap Request.answer = requests.map fun q => value q.name := by
    rw [← List.filterMap_eq_map]
    exact List.filterMap_congr fun q hq => hall q hq
  rw [State.collect, hanswers, List.mapM_map, List.mapM_map]
  rfl

/-- A job whose requests are all answered goes on: it calls its implementation, or it fails like
the leftmost of its inputs that has failed. -/
theorem Sound.collected (h : Sound r args wanted ops s) {op : Operation V E}
    {requests : List (Request V E)} (hj : s.jobs.find? name = some (.collecting op requests))
    (hall : ∀ q ∈ requests, q.answer ≠ none) :
    (∀ vs, State.collect requests = .ok vs →
        Sound r args wanted (ops ++ [op]) (s.launch name op vs)) ∧
      ∀ t, State.collect requests = .error t →
        Sound r args wanted ops (s.finish name (.error t)) := by
  obtain ⟨hn, hm, hf, hp, hnot, hnames, hanswers⟩ := h.jobs name _ hj
  obtain rfl := output_of_producer hp
  -- Answers given at different times agree, since all of them are values of one function of names.
  obtain ⟨value, hvalue⟩ := Evaluates.exists_function r args.keys args
  have hanswer : ∀ q ∈ requests, q.answer = some (value q.name) ∧
      Evaluates r args.keys args q.name (value q.name) ∧
      ∀ v, value q.name = .ok v → q.name ∈ s.memo := by
    intro q hq
    obtain ⟨a, ha⟩ := Option.ne_none_iff_exists'.1 (hall q hq)
    obtain ⟨hev, hok⟩ := hanswers q hq a ha
    rw [hvalue q.name a hev]
    exact ⟨ha, hev, hok⟩
  have hinput : ∀ i ∈ op.inputs, Evaluates r args.keys args i (value i) ∧
      ∀ v, value i = .ok v → i ∈ s.memo := by
    intro i hi
    rw [← hnames] at hi
    obtain ⟨q, hq, rfl⟩ := List.mem_map.1 hi
    exact (hanswer q hq).2
  have hcollect : State.collect requests = op.inputs.mapM value := by
    rw [← hnames]
    exact collect_eq fun q hq => (hanswer q hq).1
  rw [hcollect]
  constructor
  · intro vs hvs
    refine h.launch (mem_operations_iff.2 ⟨hn, hp⟩) hm hf hnot (fun i hi => ?_) ?_
    · obtain ⟨v, -, hv⟩ := Outcome.exists_ok_of_mapM hvs hi
      exact (hinput i hi).2 v hv
    · exact Outcome.forall₂_imp_mem (Outcome.mapM_eq_ok_iff.1 hvs) fun i hi v hv =>
        hv ▸ (hinput i hi).1
  · -- The job ends like the first of its inputs that has failed, as direct evaluation does.
    intro t ht
    have hev := Evaluates.computed value hp fun i hi => (hinput i hi).1
    rw [ht] at hev
    exact h.finish hev fun _ hv => nomatch hv

theorem Sound.needed (h : Sound r args wanted ops s) {job : String} {op : Operation V E}
    {requests : List (Request V E)} {index : Nat} {answer : Option (Except (Trouble E) V)}
    (hj : s.jobs.find? job = some (.collecting op requests))
    (hq : requests[index]? = some ⟨name, answer⟩) : Needed r args.keys wanted name := by
  obtain ⟨hn, -, -, hp, -, hnames, -⟩ := h.jobs job _ hj
  refine .input hn ⟨op, hp, hnames ▸ ?_⟩
  exact List.mem_map.2 ⟨_, List.mem_of_getElem? hq, rfl⟩

/-- **Every move keeps the invariant.** -/
theorem Sound.step (h : Sound r args wanted ops s) (hs : Step r s s') :
    ∃ ops', Sound r args wanted ops' s' := by
  cases hs with
  | answer hj hq hx =>
    obtain ⟨hev, hok⟩ := h.answer hx
    exact ⟨ops, h.reply hj hq hev hok⟩
  | missing hj hq hx _ hr => exact ⟨ops, h.reply hj hq (h.missing hx hr) fun _ hv => nomatch hv⟩
  | start hj hq hx hjobs hr => exact h.start (h.needed hj hq) hx hjobs hr
  | launch hj hall hc => exact ⟨_, (h.collected hj hall).1 _ hc⟩
  | fail hj hall hc => exact ⟨_, (h.collected hj hall).2 _ hc⟩
  | pause hj =>
    obtain ⟨hn, hm, hf, hworking⟩ := h.jobs _ _ hj
    exact ⟨ops, h.insertJob hn hm hf hworking⟩
  | close hj =>
    obtain ⟨-, -, -, hcalled, hclosing, hreads, hev⟩ := h.jobs _ _ hj
    exact ⟨ops, (h.close hclosing).finish hev fun _ _ => ⟨hcalled, hreads⟩⟩

/-! ## No job is stuck -/

theorem proceed_mem_moves {j : Job V E} (h : s.jobs.find? name = some j) :
    Move.proceed name ∈ s.moves := by
  refine List.mem_flatMap.2 ⟨_, Table.find?_eq_some_iff.1 h, ?_⟩
  cases j <;> simp

theorem request_mem_moves {op : Operation V E} {requests : List (Request V E)} {index : Nat}
    (h : s.jobs.find? name = some (.collecting op requests)) (hi : index < requests.length) :
    Move.request name index ∈ s.moves := by
  refine List.mem_flatMap.2 ⟨_, Table.find?_eq_some_iff.1 h, ?_⟩
  simpa using hi

/-- A request can be looked at unless the name that it is for is in progress. -/
theorem request_isSome {op : Operation V E} {requests : List (Request V E)} {index : Nat}
    {input : String} (h : s.jobs.find? name = some (.collecting op requests))
    (hq : requests[index]? = some ⟨input, none⟩) (hin : s.answer? input = none → input ∉ s.jobs) :
    (s.step? r (.request name index)).isSome := by
  simp only [State.step?, h, hq]
  split
  · rfl
  · next ha =>
    rw [if_neg (hin ha)]
    split <;> rfl

/-- As long as a name is in progress, some job can go on: its own, or one that it waits for. -/
theorem Sound.exists_move (h : Sound r args wanted ops s) (hg : Grounded r args.keys name)
    (hj : name ∈ s.jobs) : ∃ m ∈ s.moves, (s.step? r m).isSome := by
  induction hg with
  | intro name _ ih =>
    obtain ⟨j, hfound⟩ := Table.mem_iff_exists_find?.1 hj
    have hproceed := proceed_mem_moves hfound
    cases j with
    | working left closing outcome =>
      refine ⟨_, hproceed, ?_⟩
      cases left <;> simp only [State.step?, hfound, Option.isSome_some]
    | collecting op requests =>
      by_cases hall : requests.any (·.answer.isNone) = true
      · obtain ⟨⟨input, answer⟩, hq, hnone⟩ := List.any_eq_true.1 hall
        obtain rfl : answer = none := Option.isNone_iff_eq_none.1 hnone
        obtain ⟨index, hi, hget⟩ := List.getElem_of_mem hq
        by_cases hwait : s.answer? input = none ∧ input ∈ s.jobs
        · -- The request waits for another job, further down.
          obtain ⟨-, -, -, hp, -, hnames, -⟩ := h.jobs name _ hfound
          have hreads : Reads r args.keys name input :=
            ⟨op, hp, hnames ▸ List.mem_map.2 ⟨_, hq, rfl⟩⟩
          exact ih input hreads hwait.2
        · exact ⟨_, request_mem_moves hfound hi, request_isSome hfound
            (List.getElem?_eq_some_iff.2 ⟨hi, hget⟩) fun ha hm => hwait ⟨ha, hm⟩⟩
      · refine ⟨_, hproceed, ?_⟩
        simp only [State.step?, hfound, if_neg hall]
        split <;> rfl

end DemandPlan.Concurrent
