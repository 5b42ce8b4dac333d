import DemandPlan.Cycle
import DemandPlan.Evaluation
import DemandPlan.Requirements

/-!
# Concurrent evaluation

Wanted outputs can also be computed without a plan when some operations are asynchronous. The
inputs of an operation are asked for all at once. Whoever asks first for a name starts the job of
computing it, everybody else waits for that job, so each name is computed once.

A state holds the values and failures so far and the jobs in progress. A move answers one request,
or brings one job forward; `State.step?` makes any move that is possible, in any order. A request
for a name in progress cannot be answered, so requests in a circle would wait for ever: dependency
cycles are looked for before anything runs.

* `State.step?_lt`: there are no endless runs, whatever the order of the moves. Either a job that
  never ran before is started, or less is left to do.
-/

namespace DemandPlan.Concurrent

variable {V E : Type}

/-- A name that a job needs, with the answer once there is one. -/
structure Request (V E : Type) where
  name : String
  answer : Option (Except (Trouble E) V) := none

/-- The computation of one name. -/
inductive Job (V E : Type)
  /-- It waits for its inputs. -/
  | collecting (op : Operation V E) (requests : List (Request V E))
  /-- Its implementation runs, has given way, and will do so `left` more times. -/
  | working (left : Nat) (closing : List Event) (outcome : Except (Failure E) V)

/-- Where an evaluation stands. -/
structure State (V E : Type) where
  /-- The arguments and the values computed so far. -/
  memo : Table V
  /-- The names that could not be computed. -/
  failed : Table (Trouble E) := .empty
  /-- The computations in progress. -/
  jobs : Table (Job V E) := .empty
  trace : List Event := []

/-- What can happen next. -/
inductive Move
  /-- A request of a job is looked at. -/
  | request (job : String) (index : Nat)
  /-- A job is brought forward. -/
  | proceed (job : String)
  deriving DecidableEq, Repr

namespace Job

/-- The job of an operation that has asked for its inputs. -/
def ofOperation (op : Operation V E) : Job V E :=
  .collecting op (op.inputs.map fun name => { name })

/-- A bound for the moves that a job needs itself. -/
def work : Job V E → Nat
  | .collecting op requests => requests.countP (·.answer.isNone) + op.impl.pauses + 2
  | .working left _ _ => left + 1

end Job

namespace State

/-- The value or failure of a name, if it is known. -/
def answer? (s : State V E) (name : String) : Option (Except (Trouble E) V) :=
  match s.memo.find? name with
  | some v => some (.ok v)
  | none => (s.failed.find? name).map .error

/-- The names that are computed, have failed or are in progress. -/
def known (s : State V E) : List String := s.memo.keys ++ s.failed.keys ++ s.jobs.keys

/-- A computation is over. -/
def finish (s : State V E) (name : String) : Except (Trouble E) V → State V E
  | .ok v => { s with memo := s.memo.insert name v, jobs := s.jobs.erase name }
  | .error t => { s with failed := s.failed.insert name t, jobs := s.jobs.erase name }

/-- The implementation for a name runs, up to the first place where it gives way. -/
def launch (s : State V E) (name : String) (op : Operation V E) (args : List V) : State V E :=
  let a := op.activity args
  match a.pauses with
  | 0 =>
    { s with trace := s.trace ++ a.opening ++ a.closing }.finish name (a.outcome.mapError .failed)
  | left + 1 =>
    { s with
      jobs := s.jobs.insert name (.working left a.closing a.outcome)
      trace := s.trace ++ a.opening }

/-- A name is to be computed: at once if all inputs are there, else they are asked for. -/
def start (s : State V E) (name : String) (op : Operation V E) : State V E :=
  match op.inputs.mapM s.memo.find? with
  | some args => s.launch name op args
  | none => { s with jobs := s.jobs.insert name (Job.ofOperation op) }

/-- The values of answered requests, in order, or the first failure in that order. A request
without answer counts as neither. -/
def collect (requests : List (Request V E)) : Except (Trouble E) (List V) :=
  (requests.filterMap Request.answer).mapM id

/-- Gives a request of a job its answer. -/
def reply (s : State V E) (job : String) (op : Operation V E) (requests : List (Request V E))
    (index : Nat) (name : String) (answer : Except (Trouble E) V) : State V E :=
  { s with
    jobs := s.jobs.insert job
      (.collecting op (requests.set index { name, answer := some answer })) }

/-- Makes a move, if it is possible. -/
def step? (r : Registry V E) (s : State V E) : Move → Option (State V E)
  | .request job index =>
    match s.jobs.find? job with
    | some (.collecting op requests) =>
      match requests[index]? with
      | some ⟨name, none⟩ =>
        match s.answer? name with
        | some a => some (s.reply job op requests index name a)
        | none =>
          if name ∈ s.jobs then none
          else match r.lookup name with
            | none => some (s.reply job op requests index name (.error (.missing name)))
            | some op' => some (s.start name op')
      | _ => none
    | _ => none
  | .proceed job =>
    match s.jobs.find? job with
    | some (.collecting op requests) =>
      if requests.any (·.answer.isNone) then none
      else match collect requests with
        | .ok args => some (s.launch job op args)
        | .error t => some (s.finish job (.error t))
    | some (.working (left + 1) closing outcome) =>
      some { s with jobs := s.jobs.insert job (.working left closing outcome) }
    | some (.working 0 closing outcome) =>
      some ({ s with trace := s.trace ++ closing }.finish job (outcome.mapError .failed))
    | none => none

/-! ## Every run ends -/

/-- What is left to do for the jobs in progress. -/
def work (s : State V E) : Nat := s.jobs.total Job.work

theorem known_finish {s : State V E} {name : String} (a : Except (Trouble E) V) :
    ∀ b ∈ s.known, b ∈ (s.finish name a).known := by
  intro b hb
  cases a <;> simp only [known, finish, List.mem_append, ← Table.mem_def, Table.mem_insert,
    Table.mem_erase] at hb ⊢ <;> grind

theorem mem_known_finish {s : State V E} {name : String} (a : Except (Trouble E) V) :
    name ∈ (s.finish name a).known := by
  cases a <;> simp [known, finish, ← Table.mem_def]

theorem known_launch {s : State V E} {name : String} (op : Operation V E) (args : List V) :
    ∀ b ∈ s.known, b ∈ (s.launch name op args).known := by
  intro b hb
  unfold launch
  dsimp only
  split
  · exact known_finish (s := { s with trace := _ }) _ b hb
  · simp only [known, List.mem_append, ← Table.mem_def, Table.mem_insert] at hb ⊢
    grind

theorem mem_known_launch {s : State V E} {name : String} (op : Operation V E) (args : List V) :
    name ∈ (s.launch name op args).known := by
  unfold launch
  dsimp only
  split
  · exact mem_known_finish _
  · simp [known, ← Table.mem_def]

theorem known_start {s : State V E} {name : String} (op : Operation V E) :
    ∀ b ∈ s.known, b ∈ (s.start name op).known := by
  intro b hb
  unfold start
  split
  · exact known_launch op _ b hb
  · simp only [known, List.mem_append, ← Table.mem_def, Table.mem_insert] at hb ⊢
    grind

theorem mem_known_start {s : State V E} {name : String} (op : Operation V E) :
    name ∈ (s.start name op).known := by
  unfold start
  split
  · exact mem_known_launch op _
  · simp [known, ← Table.mem_def]

theorem known_insert_job {s : State V E} {name : String} (j : Job V E) :
    ∀ b ∈ s.known, b ∈ ({ s with jobs := s.jobs.insert name j } : State V E).known := by
  intro b hb
  simp only [known, List.mem_append, ← Table.mem_def, Table.mem_insert] at hb ⊢
  grind

theorem work_finish {s : State V E} {name : String} {j : Job V E} (a : Except (Trouble E) V)
    (h : s.jobs.find? name = some j) : (s.finish name a).work + j.work = s.work := by
  cases a <;> exact Table.total_erase Job.work h

theorem pauses_activity_le (op : Operation V E) (args : List V) :
    (op.activity args).pauses ≤ op.impl.pauses := by
  unfold Operation.activity
  split
  · unfold Implementation.activity
    split <;> simp
  · exact Nat.zero_le _

theorem work_launch {s : State V E} {name : String} {j : Job V E} {op : Operation V E}
    (args : List V) (h : s.jobs.find? name = some j) (hj : op.impl.pauses + 2 ≤ j.work) :
    (s.launch name op args).work < s.work := by
  unfold launch
  dsimp only
  split
  · have := work_finish (s := { s with trace := s.trace ++ (op.activity args).opening ++
      (op.activity args).closing }) ((op.activity args).outcome.mapError .failed) h
    simp only [work] at this ⊢
    omega
  · next left hl =>
    have hp := pauses_activity_le op args
    have := Table.total_insert Job.work (Job.working left (op.activity args).closing
      (op.activity args).outcome) h
    simp only [Job.work] at this hj ⊢
    simp only [work]
    omega

theorem work_reply {s : State V E} {job : String} {op : Operation V E}
    {requests : List (Request V E)} {index : Nat} {name : String} (a : Except (Trouble E) V)
    (hj : s.jobs.find? job = some (.collecting op requests))
    (hq : requests[index]? = some ⟨name, none⟩) :
    (s.reply job op requests index name a).work < s.work := by
  have hset : ∀ {qs : List (Request V E)} {i : Nat}, qs[i]? = some ⟨name, none⟩ →
      (qs.set i ⟨name, some a⟩).countP (·.answer.isNone) < qs.countP (·.answer.isNone) := by
    -- An answered request counts no more, wherever it stands in the list.
    intro qs
    induction qs with
    | nil => intro i h; simp at h
    | cons q qs ih =>
      intro i h
      cases i with
      | zero =>
        obtain rfl : q = ⟨name, none⟩ := by simpa using h
        simp
      | succ i =>
        have := ih (i := i) (by simpa using h)
        simp only [List.set_cons_succ, List.countP_cons]
        omega
  have h := Table.total_insert Job.work
    (Job.collecting op (requests.set index ⟨name, some a⟩)) hj
  have := hset hq
  simp only [Job.work] at h
  simp only [work, reply]
  omega

/-- A move starts a job that never ran before, or leaves less to do. -/
theorem step?_lt {r : Registry V E} {s s' : State V E} {m : Move} (h : s.step? r m = some s') :
    Prod.Lex (· < ·) (· < ·) (Names.unseen r.names s'.known, s'.work)
      (Names.unseen r.names s.known, s.work) := by
  cases m with
  | request job index =>
    simp only [step?] at h
    split at h
    · next op requests hj =>
      split at h
      · next name hq =>
        split at h
        · next a _ =>
          cases h
          -- The name is known: its job takes the answer, and nothing is started.
          exact Prod.Lex.right' _ (Names.unseen_le (known_insert_job _)) (work_reply a hj hq)
        · next ha =>
          split at h
          · cases h
          · next hjobs =>
            split at h
            · cases h
              -- Nobody computes the name: the answer is that it is missing.
              exact Prod.Lex.right' _ (Names.unseen_le (known_insert_job _)) (work_reply _ hj hq)
            · next op' hr =>
              cases h
              -- The only move that adds work. It starts a job under a name that was not known
              -- before, and the names of the registry are finitely many.
              refine Prod.Lex.left _ _ (Names.unseen_lt (Registry.mem_names_of_lookup hr) ?_
                (mem_known_start op') (known_start op'))
              simp only [answer?] at ha
              split at ha
              · cases ha
              · next hm =>
                have hf : s.failed.find? name = none := by simpa using ha
                simp only [known, List.mem_append, ← Table.mem_def, not_or]
                exact ⟨⟨Table.find?_eq_none_iff.1 hm, Table.find?_eq_none_iff.1 hf⟩, hjobs⟩
      · cases h
    · cases h
  | proceed job =>
    simp only [step?] at h
    split at h
    · next op requests hj =>
      split at h
      · cases h
      · split at h
        · next args _ =>
          cases h
          -- All answers are there: a call that is open has less work left than a job that collects.
          exact Prod.Lex.right' _ (Names.unseen_le (known_launch op args))
            (work_launch args hj (by simp only [Job.work]; omega))
        · next t _ =>
          cases h
          -- An input has failed: the job ends without a call.
          have := work_finish (.error t) hj
          refine Prod.Lex.right' _ (Names.unseen_le (known_finish _)) ?_
          simp only [Job.work] at this
          omega
    · next left closing outcome hj =>
      cases h
      -- One pause less.
      have := Table.total_insert Job.work (Job.working left closing outcome) hj
      refine Prod.Lex.right' _ (Names.unseen_le (known_insert_job _)) ?_
      simp only [Job.work] at this
      simp only [work]
      omega
    · next closing outcome hj =>
      cases h
      -- No pause is left: the job ends.
      have := work_finish (s := { s with trace := s.trace ++ closing })
        (outcome.mapError .failed) hj
      refine Prod.Lex.right' _ (Names.unseen_le
        (known_finish (s := { s with trace := s.trace ++ closing }) _)) ?_
      simp only [Job.work, work] at this ⊢
      omega
    · cases h

/-! ## One order of moves -/

/-- The moves that may be possible. -/
def moves (s : State V E) : List Move :=
  s.jobs.toList.flatMap fun e =>
    match e.2 with
    | .collecting _ requests =>
      (List.range requests.length).map (Move.request e.1) ++ [Move.proceed e.1]
    | .working _ _ _ => [Move.proceed e.1]

/-- The state after the first possible move. -/
def next? (r : Registry V E) (s : State V E) : Option (State V E) :=
  s.moves.findSome? (s.step? r)

theorem next?_lt {r : Registry V E} {s s' : State V E} (h : s.next? r = some s') :
    Prod.Lex (· < ·) (· < ·) (Names.unseen r.names s'.known, s'.work)
      (Names.unseen r.names s.known, s.work) := by
  obtain ⟨m, -, hm⟩ := List.exists_of_findSome?_eq_some h
  exact step?_lt hm

/-- Moves as long as a move is possible. -/
def drive (r : Registry V E) (s : State V E) : State V E :=
  match h : s.next? r with
  | none => s
  | some s' =>
    have := next?_lt h
    s'.drive r
termination_by (Names.unseen r.names s.known, s.work)
decreasing_by exact this

/-- Computes a name, from a state without jobs. -/
def resolve (r : Registry V E) (s : State V E) (name : String) :
    State V E × Except (Trouble E) V :=
  match s.answer? name with
  | some a => (s, a)
  | none =>
    match r.lookup name with
    | none => (s, .error (.missing name))
    | some op =>
      let s' := (s.start name op).drive r
      (s', (s'.answer? name).getD (.error (.failed .stalled)))

end State

/-- Computes the wanted outputs one after the other. -/
def evaluateFrom (r : Registry V E) (s : State V E) (result : Table V) :
    List String → Run (Failure E) (Table V)
  | [] => { trace := s.trace, outcome := .ok result }
  | name :: names =>
    match s.resolve r name with
    | (s', .ok v) => evaluateFrom r s' (result.insert name v) names
    | (s', .error t) => { trace := s'.trace, outcome := .error (t.toFailure name) }

/-- Computes the wanted outputs from arguments. If the operations that are needed depend on each
other in a circle, nothing runs. -/
def evaluate (r : Registry V E) (wanted : List String) (args : Table V) :
    Run (Failure E) (Table V) :=
  match Cycle.find? (Requirements.find r wanted args.keys).operations with
  | some cycle => .failure (.reported (.cycleAmong cycle))
  | none => evaluateFrom r { memo := args } .empty wanted

end DemandPlan.Concurrent
