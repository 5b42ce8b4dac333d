import DemandPlan.Proofs.Session
import Mathlib

/-!
# Any order of turns

Whatever the order in which the jobs of a concurrent evaluation go on, it ends, and it ends like the
evaluation of the wanted names one after the other by recursion on the operations.
`Concurrent.evaluate` is one of these orders.

* `exists_run_evaluate`: the order that `Concurrent.evaluate` takes.
* `every_order_agrees`: what holds in every order.
-/

namespace DemandPlan.Concurrent

open Relation Requirements

variable {V E : Type} {r : Registry V E} {args : Table V} {wanted : List String}
  {ops : List (Operation V E)}

/-! ## Moves one after the other -/

theorem Step.mem_known {s s' : State V E} (h : Step r s s') : ∀ n ∈ s.known, n ∈ s'.known := by
  cases h with
  | answer => exact State.known_insert_job _
  | missing => exact State.known_insert_job _
  | start => exact State.known_start _
  | launch => exact State.known_launch _ _
  | fail => exact State.known_finish _
  | pause => exact State.known_insert_job _
  | @close _ closing _ _ => exact State.known_finish (s := { s with trace := s.trace ++ closing }) _

/-- Driving a state is a sequence of moves, after which none is possible. -/
theorem exists_moves_drive (r : Registry V E) (s : State V E) :
    ∃ ms : List Move, ms.foldlM (State.step? r) s = some (s.drive r) ∧
      (s.drive r).next? r = none ∧ ∀ n ∈ s.known, n ∈ (s.drive r).known := by
  fun_induction State.drive r s with
  | case1 s h => exact ⟨[], rfl, h, fun _ hn => hn⟩
  | case2 s s' h _ ih =>
    obtain ⟨m, -, hm⟩ := List.exists_of_findSome?_eq_some h
    obtain ⟨ms, hms, hend, hknown⟩ := ih
    refine ⟨m :: ms, ?_, hend, fun n hn => hknown n ((step_of_step? hm).mem_known n hn)⟩
    rw [List.foldlM_cons, hm]
    exact hms

namespace Session

variable {s s' : Session V E}

theorem run?_moves {ms : List Move} {state : State V E}
    (h : ms.foldlM (State.step? r) s.state = some state) :
    s.run? r (ms.map .move) = some { s with state } := by
  induction ms generalizing s with
  | nil =>
    obtain rfl := Option.some.inj h
    rfl
  | cons m ms ih =>
    rw [List.foldlM_cons] at h
    obtain ⟨state₁, hm, h⟩ := Option.bind_eq_some_iff.1 h
    rw [List.map_cons, run?, List.foldlM_cons, turn?, hm]
    exact ih (s := { s with state := state₁ }) h

theorem run?_append {turns turns' : List Turn} (h : s.run? r turns = some s') :
    s.run? r (turns ++ turns') = s'.run? r turns' := by
  rw [run?, List.foldlM_append]
  show s.run? r turns >>= _ = _
  rw [h]
  rfl

/-! ## The order of `evaluate` -/

/-- When no job can go on, the wanted name that has been started is known. -/
theorem Sound.exists_answer {name : String} {todo : List String} {t : Table V}
    (h : Sound r args wanted ops s) (htodo : s.todo = name :: todo) (hresult : s.result = .ok t)
    (hg : ∀ n, Needed r args.keys wanted n → Grounded r args.keys n)
    (hend : s.state.next? r = none) (hknown : name ∈ s.state.known) :
    ∃ x, s.state.answer? name = some x := by
  have hname : name ∉ s.state.jobs := by
    intro hj
    obtain ⟨m, hm, hsome⟩ := h.state.exists_move (hg name (h.needed htodo hresult)) hj
    rw [List.findSome?_eq_none_iff.1 hend m hm] at hsome
    cases hsome
  exact Option.ne_none_iff_exists'.1 fun ha => not_mem_known_iff.2 ⟨ha, hname⟩ hknown

/-- Resolving the next wanted name is a sequence of turns. -/
theorem Sound.exists_run_resolve {name : String} {todo : List String} {t : Table V}
    (h : Sound r args wanted ops s) (htodo : s.todo = name :: todo) (hresult : s.result = .ok t)
    (hjobs : ∀ n, n ∉ s.state.jobs)
    (hg : ∀ n, Needed r args.keys wanted n → Grounded r args.keys n) :
    (∀ n, n ∉ (s.state.resolve r name).1.jobs) ∧ ∃ turns, s.run? r turns =
      some (({ s with state := (s.state.resolve r name).1 } : Session V E).settle name todo t
        (s.state.resolve r name).2) := by
  obtain ⟨state, todo', result⟩ := s
  obtain rfl : todo' = name :: todo := htodo
  obtain rfl : result = .ok t := hresult
  unfold State.resolve
  split
  · next x hx =>
    refine ⟨hjobs, [.wanted], ?_⟩
    simp [run?, turn?, hx]
  · next ha =>
    split
    · next hr =>
      refine ⟨hjobs, [.wanted], ?_⟩
      simp [run?, turn?, ha, hjobs name, hr]
    · next op hr =>
      -- A job is started and driven until nothing moves. As there is no cycle, it has ended by
      -- then, and a second turn takes its answer.
      obtain ⟨ms, hms, hend, hknown⟩ := exists_moves_drive r (state.start name op)
      obtain ⟨ops₁, h₁⟩ := h.start rfl rfl ha (hjobs name) hr
      have hrun := run?_moves (s := ⟨state.start name op, name :: todo, .ok t⟩) hms
      obtain ⟨ops₂, h₂⟩ := h₁.run hrun
      obtain ⟨x, hx⟩ := h₂.exists_answer rfl rfl hg hend
        (hknown name (State.mem_known_start op))
      refine ⟨h₂.no_jobs rfl (h₂.state.not_mem_jobs hx),
        .wanted :: (ms.map .move ++ [.wanted]), ?_⟩
      have hstart : turn? r ⟨state, name :: todo, .ok t⟩ .wanted =
          some ⟨state.start name op, name :: todo, .ok t⟩ := by
        simp [turn?, ha, hjobs name, hr]
      rw [run?, List.foldlM_cons, hstart]
      refine (run?_append hrun).trans ?_
      simp [run?, turn?, hx]

/-- Evaluating the wanted names that are left is a sequence of turns. -/
theorem Sound.exists_run_evaluateFrom {t : Table V} (h : Sound r args wanted ops s)
    (hresult : s.result = .ok t) (hjobs : ∀ n, n ∉ s.state.jobs)
    (hg : ∀ n, Needed r args.keys wanted n → Grounded r args.keys n) :
    ∃ turns s', s.run? r turns = some s' ∧ s'.todo = [] ∧
      evaluateFrom r s.state t s.todo = { trace := s'.state.trace, outcome := s'.result } := by
  obtain ⟨state, todo, result⟩ := s
  obtain rfl : result = .ok t := hresult
  induction todo generalizing state t ops with
  | nil => exact ⟨[], _, rfl, rfl, rfl⟩
  | cons name todo ih =>
    obtain ⟨hjobs', turns, hrun⟩ := h.exists_run_resolve rfl rfl hjobs hg
    obtain ⟨ops', h'⟩ := h.run hrun
    rw [evaluateFrom]
    generalize state.resolve r name = resolved at hrun hjobs' h'
    obtain ⟨state', x⟩ := resolved
    cases x with
    | error x => exact ⟨turns, _, hrun, rfl, rfl⟩
    | ok v =>
      obtain ⟨turns', s', hrun', hend, heq⟩ := ih state' h' hjobs'
      exact ⟨turns ++ turns', s', (run?_append hrun).trans hrun', hend, heq⟩

end Session

/-- **The order of `evaluate`.** Evaluation is a session that is over. -/
theorem exists_run_evaluate (r : Registry V E) (wanted : List String) (args : Table V) :
    ∃ turns s, (Session.init r wanted args).run? r turns = some s ∧ s.todo = [] ∧
      evaluate r wanted args = { trace := s.state.trace, outcome := s.result } := by
  cases h : Cycle.find? (find r wanted args.keys).operations with
  | some cycle =>
    refine ⟨[], _, rfl, ?_⟩
    simp [Session.init, evaluate, h, Run.failure]
  | none =>
    have hinit : Session.init r wanted args = ⟨{ memo := args }, wanted, .ok .empty⟩ := by
      simp [Session.init, h]
    have hsound := Session.sound_init h
    rw [hinit] at hsound ⊢
    obtain ⟨turns, s, hrun, hend, heq⟩ := hsound.exists_run_evaluateFrom rfl
      (fun _ hn => nomatch hn) (Cycle.find?_eq_none_iff.1 h)
    refine ⟨turns, s, hrun, hend, heq ▸ ?_⟩
    simp [evaluate, h]

/-! ## Every order -/

theorem run?_init_of_cycle {cycle : List String} {turns : List Turn} {s : Session V E}
    (h : Cycle.find? (find r wanted args.keys).operations = some cycle)
    (hs : (Session.init r wanted args).run? r turns = some s) :
    s.todo = [] ∧ s.state.trace = [] ∧ s.result = .error (.reported (.cycleAmong cycle)) := by
  have hinit : Session.init r wanted args =
      ⟨{ memo := args }, [], .error (.reported (.cycleAmong cycle))⟩ := by
    simp [Session.init, h]
  rw [hinit] at hs
  cases turns with
  | nil =>
    obtain rfl := Option.some.inj hs
    exact ⟨rfl, rfl, rfl⟩
  | cons t turns =>
    have hstuck : Session.turn? r ⟨{ memo := args }, [], .error (.reported (.cycleAmong cycle))⟩ t =
        none := by
      cases t with
      | wanted => rfl
      | move m => cases m <;> rfl
    rw [Session.run?, List.foldlM_cons, hstuck] at hs
    cases hs

/-- All sessions that are over have the same result. -/
theorem result_eq_outcome_evaluate {turns : List Turn} {s : Session V E}
    (hs : (Session.init r wanted args).run? r turns = some s) (htodo : s.todo = []) :
    s.result = (evaluate r wanted args).outcome := by
  obtain ⟨turns', s', hs', htodo', heq⟩ := exists_run_evaluate r wanted args
  rw [heq]
  cases h : Cycle.find? (find r wanted args.keys).operations with
  | some cycle =>
    rw [(run?_init_of_cycle h hs).2.2, (run?_init_of_cycle h hs').2.2]
  | none =>
    obtain ⟨_, hsound⟩ := (Session.sound_init h).run hs
    obtain ⟨_, hsound'⟩ := (Session.sound_init h).run hs'
    exact (hsound.gives htodo).unique (hsound'.gives htodo')

/-- **Every order agrees.** `Concurrent.evaluate` is one order in which a session can come to its
end, all others end with the same result, and no session goes on for ever. If needed names depend
on each other in a circle, the session ends with this cycle before anything is called. Otherwise, in
every order, a session that is not over can go on, and it calls operations of the query only, each
once at most. When it is over, no job is left, its result is that of evaluating the wanted names
from left to right by recursion, and if that is an answer, each operation has been called. -/
theorem every_order_agrees (r : Registry V E) (wanted : List String) (args : Table V) :
    let init := Session.init r wanted args
    let ops := (find r wanted args.keys).operations
    let cyclic := ∃ n, Needed r args.keys wanted n ∧ TransGen (Reads r args.keys) n n
    (∃ turns s, init.run? r turns = some s ∧ s.todo = [] ∧
        evaluate r wanted args = { trace := s.state.trace, outcome := s.result }) ∧
      (WellFounded fun s' s : Session V E => ∃ t, s.turn? r t = some s') ∧
      ∀ turns s, init.run? r turns = some s →
        (s.todo = [] → s.result = (evaluate r wanted args).outcome) ∧
        (cyclic → s.todo = [] ∧ s.state.trace = [] ∧ ∃ cycle, Cycle.find? ops = some cycle ∧
          s.result = .error (.reported (.cycleAmong cycle))) ∧
        (¬cyclic →
          (s.todo ≠ [] → ∃ t, (s.turn? r t).isSome) ∧
          (s.state.trace.filter Event.isOpening).Subperm (ops.map Operation.openingEvent) ∧
          (s.todo = [] → (∀ n, n ∉ s.state.jobs) ∧ Gives r args.keys args wanted s.result ∧
            ∀ t, s.result = .ok t → (s.state.trace.filter Event.isOpening).Perm
              (ops.map Operation.openingEvent))) := by
  intro init ops cyclic
  refine ⟨exists_run_evaluate r wanted args, Session.turns_end r, fun turns s hs =>
    ⟨result_eq_outcome_evaluate hs, ?_, ?_⟩⟩
  · intro hcyclic
    obtain ⟨cycle, hcycle⟩ := Cycle.find?_eq_some_iff.2 hcyclic
    obtain ⟨htodo, htrace, hresult⟩ := run?_init_of_cycle hcycle hs
    exact ⟨htodo, htrace, cycle, hcycle, hresult⟩
  · intro hacyclic
    have hnone : Cycle.find? ops = none :=
      Option.eq_none_iff_forall_ne_some.2 fun cycle h =>
        hacyclic (Cycle.find?_eq_some_iff.1 ⟨cycle, h⟩)
    obtain ⟨called, hsound⟩ := (Session.sound_init hnone).run hs
    exact ⟨hsound.exists_turn (Cycle.find?_eq_none_iff.1 hnone), hsound.openings_subperm,
      fun htodo => ⟨hsound.no_jobs_left htodo, hsound.gives htodo,
        fun t => hsound.openings_perm htodo⟩⟩

/-- The theorem at a diamond whose common input gives way, with an order in which the second input
comes first. -/
theorem every_order_agrees_of_diamond :
    let add (output : String) (inputs : List String) : Operation Nat Unit :=
      { output, inputs, isAsync := true
        impl :=
          { label := output, style := .coroutine, pauses := 1, apply := fun vs => .ok vs.sum } }
    let r : Registry Nat Unit :=
      { operations := [add "a" ["x"], add "b" ["a", "a"], add "c" ["a", "b"]]
        nodup := by decide }
    let args : Table Nat := { entries := [("x", 1)] }
    let turns : List Turn :=
      [.wanted, .move (.request "c" 1), .move (.request "b" 1), .move (.proceed "a"),
       .move (.request "c" 0), .move (.request "b" 0), .move (.request "b" 1),
       .move (.proceed "b"), .move (.proceed "b"), .move (.request "c" 1), .move (.proceed "c"),
       .move (.proceed "c"), .wanted]
    ∃ s, (Session.init r ["c"] args).run? r turns = some s ∧
      s.result = .ok { entries := [("c", 3)] } ∧ Gives r args.keys args ["c"] s.result ∧
      (s.state.trace.filter Event.isOpening).Perm
        ((find r ["c"] args.keys).operations.map Operation.openingEvent) := by
  intro add r args turns
  have hrun : ((Session.init r ["c"] args).run? r turns).map (fun s => (s.todo, s.result)) =
      some ([], .ok { entries := [("c", 3)] }) := by cbv
  obtain ⟨s, hs, hend⟩ := Option.map_eq_some_iff.1 hrun
  obtain ⟨htodo, hresult⟩ := Prod.mk.inj hend
  have hnone : Cycle.find? (find r ["c"] args.keys).operations = none := by cbv
  have hacyclic : ¬∃ n, Needed r args.keys ["c"] n ∧ TransGen (Reads r args.keys) n n := by
    rw [← Cycle.find?_eq_some_iff, hnone]
    rintro ⟨cycle, h⟩
    cases h
  obtain ⟨-, -, hover⟩ := ((every_order_agrees r ["c"] args).2.2 turns s hs).2.2 hacyclic
  obtain ⟨-, hgives, hopenings⟩ := hover htodo
  exact ⟨s, hs, hresult, hgives, hopenings _ hresult⟩

end DemandPlan.Concurrent
