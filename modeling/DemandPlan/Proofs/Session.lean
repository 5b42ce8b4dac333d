import DemandPlan.Proofs.Cycle
import DemandPlan.Proofs.Waiting
import Mathlib.Order.RelClasses

/-!
# Sessions

A session is a concurrent evaluation as a whole: the state of its jobs, the wanted names that are
left, and the result so far. In a turn, the next wanted name is looked at or a job makes a move, in
any order. The session is over when no wanted name is left.

* `Session.Sound`: the invariant of sessions; `Session.Sound.run`: every order of turns keeps it.
* `Session.Sound.exists_turn`: a session that is not over is not stuck.
* `Session.turns_end`: there are no endless sessions.
* `Session.Sound.gives`, `Session.Sound.openings_perm`: what a session that is over has done.
-/

namespace DemandPlan.Concurrent

open Relation Requirements

variable {V E : Type} {r : Registry V E} {args : Table V} {wanted : List String}
  {ops : List (Operation V E)}

/-- A concurrent evaluation as a whole. -/
structure Session (V E : Type) where
  state : State V E
  /-- The wanted names that are left. -/
  todo : List String
  result : Except (Failure E) (Table V)

/-- What can happen next in a session. -/
inductive Turn
  /-- The next wanted name is looked at. -/
  | wanted
  /-- A job makes a move. -/
  | move (m : Move)

namespace Session

variable {s s' : Session V E}

/-- Before the first turn. If the operations that are needed depend on each other in a circle, the
session is over. -/
def init (r : Registry V E) (wanted : List String) (args : Table V) : Session V E :=
  match Cycle.find? (find r wanted args.keys).operations with
  | some cycle =>
    { state := { memo := args }, todo := [], result := .error (.reported (.cycleAmong cycle)) }
  | none => { state := { memo := args }, todo := wanted, result := .ok .empty }

/-- The outcome of the next wanted name is known. -/
def settle (s : Session V E) (name : String) (todo : List String) (t : Table V) :
    Except (Trouble E) V → Session V E
  | .ok v => { s with todo, result := .ok (t.insert name v) }
  | .error x => { s with todo := [], result := .error (x.toFailure name) }

/-- Takes a turn, if it is possible. -/
def turn? (r : Registry V E) (s : Session V E) : Turn → Option (Session V E)
  | .move m => (s.state.step? r m).map fun state => { s with state }
  | .wanted =>
    match s.todo, s.result with
    | name :: todo, .ok t =>
      match s.state.answer? name with
      | some x => some (s.settle name todo t x)
      | none =>
        if name ∈ s.state.jobs then none
        else match r.lookup name with
          | none => some (s.settle name todo t (.error (.missing name)))
          | some op => some { s with state := s.state.start name op }
    | _, _ => none

/-- Takes some turns, if they are possible in this order. -/
def run? (r : Registry V E) (s : Session V E) (turns : List Turn) : Option (Session V E) :=
  turns.foldlM (turn? r) s

/-! ## The invariant -/

/-- How far a session has come: the wanted names that are done have values and are in the memo, or
one of them has failed. -/
inductive Progress (r : Registry V E) (args : Table V) (wanted : List String) (memo : Table V) :
    List String → Except (Failure E) (Table V) → Prop
  | going {done todo : List String} {t : Table V} :
    wanted = done ++ todo → Answers r args.keys done args t → (∀ n ∈ done, n ∈ memo) →
    Progress r args wanted memo todo (.ok t)
  | failed {f : Failure E} :
    Gives r args.keys args wanted (.error f) → Progress r args wanted memo [] (.error f)

theorem Progress.mono {memo memo' : Table V} {todo : List String}
    {result : Except (Failure E) (Table V)} (h : Progress r args wanted memo todo result)
    (hm : ∀ n ∈ memo, n ∈ memo') : Progress r args wanted memo' todo result := by
  cases h with
  | going hw ht hdone => exact .going hw ht fun n hn => hm n (hdone n hn)
  | failed hf => exact .failed hf

/-- **The invariant of sessions without a cycle**, when some operations have been called. All jobs
are there because of the next wanted name. -/
structure Sound (r : Registry V E) (args : Table V) (wanted : List String)
    (ops : List (Operation V E)) (s : Session V E) : Prop where
  state : Concurrent.Sound r args wanted ops s.state
  rooted : ∀ n ∈ s.state.jobs, ∃ root ∈ s.todo.head?, Rooted s.state root
  progress : Progress r args wanted s.state.memo s.todo s.result

theorem sound_init (h : Cycle.find? (find r wanted args.keys).operations = none) :
    Sound r args wanted [] (init r wanted args) := by
  unfold init
  rw [h]
  exact ⟨Concurrent.sound_init r args wanted, fun _ hn => (nomatch hn),
    .going rfl .empty fun _ hn => (nomatch hn)⟩

/-- Without a job for the next wanted name there are no jobs. -/
theorem Sound.no_jobs {name : String} {todo : List String} (h : Sound r args wanted ops s)
    (htodo : s.todo = name :: todo) (hname : name ∉ s.state.jobs) (n : String) :
    n ∉ s.state.jobs := by
  intro hn
  obtain ⟨root, hhead, hrooted⟩ := h.rooted n hn
  rw [htodo] at hhead
  obtain rfl := Option.some.inj hhead
  exact hrooted.no_jobs hname n hn

/-- When the session is over, no job is left behind. -/
theorem Sound.no_jobs_left (h : Sound r args wanted ops s) (htodo : s.todo = []) (n : String) :
    n ∉ s.state.jobs := by
  intro hn
  obtain ⟨root, hhead, -⟩ := h.rooted n hn
  rw [htodo] at hhead
  cases hhead

/-- A job makes a move. -/
theorem Sound.move (h : Sound r args wanted ops s) {state : State V E}
    (hstep : Step r s.state state) : ∃ ops', Sound r args wanted ops' { s with state } := by
  obtain ⟨ops', hstate⟩ := h.state.step hstep
  obtain ⟨job, hjob⟩ := hstep.exists_job
  obtain ⟨root, hhead, hrooted⟩ := h.rooted job hjob
  exact ⟨ops', hstate, fun _ _ => ⟨root, hhead, hrooted.step h.state hstep⟩,
    h.progress.mono fun _ => hstep.mem_memo⟩

/-- The outcome of the next wanted name is known. -/
theorem Sound.settle {name : String} {todo : List String} {t : Table V}
    {x : Except (Trouble E) V} (h : Sound r args wanted ops s) (htodo : s.todo = name :: todo)
    (hresult : s.result = .ok t) (hname : name ∉ s.state.jobs)
    (hx : Evaluates r args.keys args name x) (hok : ∀ v, x = .ok v → name ∈ s.state.memo) :
    Sound r args wanted ops (s.settle name todo t x) := by
  have hjobs := h.no_jobs htodo hname
  obtain ⟨state, todo', result⟩ := s
  obtain rfl : todo' = name :: todo := htodo
  obtain rfl : result = .ok t := hresult
  cases h.progress with
  | going hw ht hdone =>
    cases x with
    | error x =>
      exact ⟨h.state, fun n hn => absurd hn (hjobs n), .failed (.failure hw ht.wanted_ok hx)⟩
    | ok v =>
      refine ⟨h.state, fun n hn => absurd hn (hjobs n), .going (List.append_cons _ _ _ ▸ hw)
        (ht.insert hx) fun n hn => ?_⟩
      rcases List.mem_append.1 hn with hn | hn
      · exact hdone n hn
      · exact List.mem_singleton.1 hn ▸ hok v rfl

theorem Sound.needed {name : String} {todo : List String} {t : Table V}
    (h : Sound r args wanted ops s) (htodo : s.todo = name :: todo) (hresult : s.result = .ok t) :
    Needed r args.keys wanted name := by
  obtain ⟨state, todo', result⟩ := s
  obtain rfl : todo' = name :: todo := htodo
  obtain rfl : result = .ok t := hresult
  cases h.progress with
  | going hw => exact .wanted (hw ▸ List.mem_append_right _ List.mem_cons_self)

/-- The next wanted name begins to be computed. -/
theorem Sound.start {name : String} {todo : List String} {t : Table V} {op : Operation V E}
    (h : Sound r args wanted ops s) (htodo : s.todo = name :: todo) (hresult : s.result = .ok t)
    (ha : s.state.answer? name = none) (hname : name ∉ s.state.jobs)
    (hr : r.lookup name = some op) :
    ∃ ops', Sound r args wanted ops' { s with state := s.state.start name op } := by
  obtain ⟨ops', hstate⟩ := h.state.start (h.needed htodo hresult) ha hname hr
  have hjobs := h.no_jobs htodo hname
  exact ⟨ops', hstate, fun _ _ => ⟨name, by rw [htodo]; rfl, rooted_start hjobs op⟩,
    h.progress.mono fun _ => mem_memo_start op⟩

/-- The next wanted name is looked at. -/
theorem Sound.look (h : Sound r args wanted ops s) (hs : s.turn? r .wanted = some s') :
    ∃ ops', Sound r args wanted ops' s' := by
  simp only [turn?] at hs
  split at hs
  · next name todo t htodo hresult =>
    split at hs
    · next x hx =>
      obtain rfl := Option.some.inj hs
      obtain ⟨hev, hok⟩ := h.state.answer hx
      exact ⟨ops, h.settle htodo hresult (h.state.not_mem_jobs hx) hev hok⟩
    · next ha =>
      split at hs
      · cases hs
      · next hname =>
        split at hs
        · next hr =>
          obtain rfl := Option.some.inj hs
          exact ⟨ops, h.settle htodo hresult hname (h.state.missing ha hr) fun _ hv => nomatch hv⟩
        · next op hr =>
          obtain rfl := Option.some.inj hs
          exact h.start htodo hresult ha hname hr
  · cases hs

/-- **Every turn keeps the invariant.** -/
theorem Sound.turn (h : Sound r args wanted ops s) {t : Turn} (hs : s.turn? r t = some s') :
    ∃ ops', Sound r args wanted ops' s' := by
  cases t with
  | wanted => exact h.look hs
  | move m =>
    obtain ⟨state, hstate, rfl⟩ := Option.map_eq_some_iff.1 hs
    exact h.move (step_of_step? hstate)

/-- **Every order of turns keeps the invariant.** -/
theorem Sound.run (h : Sound r args wanted ops s) {turns : List Turn}
    (hs : s.run? r turns = some s') : ∃ ops', Sound r args wanted ops' s' := by
  induction turns generalizing s ops with
  | nil =>
    obtain rfl := Option.some.inj hs
    exact ⟨ops, h⟩
  | cons t turns ih =>
    rw [run?, List.foldlM_cons] at hs
    obtain ⟨s₁, ht, hs⟩ := Option.bind_eq_some_iff.1 hs
    obtain ⟨ops₁, h₁⟩ := h.turn ht
    exact ih h₁ hs

/-! ## Sessions are not stuck -/

/-- **A session that is not over can take a turn**, if all names of the query are computed in
finitely many steps. -/
theorem Sound.exists_turn (h : Sound r args wanted ops s)
    (hg : ∀ n, Needed r args.keys wanted n → Grounded r args.keys n) (htodo : s.todo ≠ []) :
    ∃ t, (s.turn? r t).isSome := by
  obtain ⟨name, todo, hcons⟩ := List.exists_cons_of_ne_nil htodo
  obtain ⟨t, ht⟩ : ∃ t, s.result = .ok t := by
    obtain ⟨state, todo', result⟩ := s
    cases h.progress with
    | going => exact ⟨_, rfl⟩
    | failed => exact absurd rfl htodo
  by_cases hwait : s.state.answer? name = none ∧ name ∈ s.state.jobs
  · obtain ⟨m, -, hm⟩ := h.state.exists_move (hg name (h.needed hcons ht)) hwait.2
    exact ⟨.move m, by rwa [turn?, Option.isSome_map]⟩
  · refine ⟨.wanted, ?_⟩
    simp only [turn?, hcons, ht]
    split
    · rfl
    · next ha =>
      rw [if_neg fun hm => hwait ⟨ha, hm⟩]
      split <;> rfl

/-- What is left to do in a session. -/
def measure (r : Registry V E) (s : Session V E) : ℕ × ℕ × ℕ :=
  (s.todo.length, Names.unseen r.names s.state.known, s.state.work)

theorem length_todo_settle (s : Session V E) (name : String) (todo : List String) (t : Table V)
    (x : Except (Trouble E) V) : (s.settle name todo t x).todo.length ≤ todo.length := by
  cases x with
  | ok v => exact Nat.le_refl _
  | error x => exact Nat.zero_le _

theorem turn?_lt {t : Turn} (h : s.turn? r t = some s') :
    Prod.Lex (· < ·) (Prod.Lex (· < ·) (· < ·)) (s'.measure r) (s.measure r) := by
  cases t with
  | move m =>
    obtain ⟨state, hstate, rfl⟩ := Option.map_eq_some_iff.1 h
    exact .right _ (State.step?_lt hstate)
  | wanted =>
    simp only [turn?] at h
    split at h
    · next name todo t htodo _ =>
      have hsettle : ∀ x, (s.settle name todo t x).todo.length < s.todo.length := by
        intro x
        have := length_todo_settle s name todo t x
        rw [htodo, List.length_cons]
        omega
      split at h
      · exact Option.some.inj h ▸ .left _ _ (hsettle _)
      · next ha =>
        split at h
        · cases h
        · next hname =>
          split at h
          · exact Option.some.inj h ▸ .left _ _ (hsettle _)
          · next op hr =>
            obtain rfl := Option.some.inj h
            -- A started job makes a name known that was not, and no wanted name is settled.
            exact .right _ (.left _ _ (Names.unseen_lt (Registry.mem_names_of_lookup hr)
              (not_mem_known_iff.2 ⟨ha, hname⟩) (State.mem_known_start op) (State.known_start op)))
    · cases h

/-- **There are no endless sessions**, whatever the order of the turns. -/
theorem turns_end (r : Registry V E) :
    WellFounded fun s' s : Session V E => ∃ t, s.turn? r t = some s' :=
  Subrelation.wf (fun ⟨_, h⟩ => turn?_lt h) (InvImage.wf (measure r)
    (WellFounded.prod_lex wellFounded_lt (WellFounded.prod_lex wellFounded_lt wellFounded_lt)))

/-! ## The end -/

/-- **The result of a session that is over** is that of evaluating the wanted names one after the
other by recursion. -/
theorem Sound.gives (h : Sound r args wanted ops s) (htodo : s.todo = []) :
    Gives r args.keys args wanted s.result := by
  obtain ⟨state, todo, result⟩ := s
  obtain rfl : todo = [] := htodo
  cases h.progress with
  | going hw ht => exact .answer (by rwa [hw, List.append_nil])
  | failed hf => exact hf

/-- Each operation of the query is called once at most, and no other operation is called. -/
theorem Sound.openings_subperm (h : Sound r args wanted ops s) :
    (s.state.trace.filter Event.isOpening).Subperm
      ((find r wanted args.keys).operations.map Operation.openingEvent) := by
  rw [h.state.openings]
  obtain ⟨called, hperm, hsub⟩ := List.subperm_of_subset (.of_map _ h.state.nodup) h.state.ops_mem
  exact ⟨called.map _, hperm.map _, hsub.map _⟩

/-- A session that ends with an answer has called each operation of the query. -/
theorem Sound.openings_perm (h : Sound r args wanted ops s) (htodo : s.todo = []) {t : Table V}
    (ht : s.result = .ok t) : (s.state.trace.filter Event.isOpening).Perm
      ((find r wanted args.keys).operations.map Operation.openingEvent) := by
  obtain ⟨state, todo, result⟩ := s
  obtain rfl : todo = [] := htodo
  obtain rfl : result = .ok t := ht
  cases h.progress with
  | going hw _ hdone =>
    have hall : ∀ n, Needed r args.keys wanted n → n ∈ state.memo := by
      intro n hn
      induction hn with
      | wanted hmem => exact hdone _ (by rwa [hw, List.append_nil] at hmem)
      | input _ hr ih => exact h.state.right.closed _ ih _ hr
    rw [h.state.openings]
    refine (perm_operations h.state.nodup h.state.ops_mem fun op hop => ?_).map _
    obtain ⟨hn, hp⟩ := mem_operations_iff.1 hop
    refine h.state.computed _ (hall _ hn) fun hgiven => ?_
    rw [producer_of_mem_hints hgiven] at hp
    cases hp

end Session

end DemandPlan.Concurrent
