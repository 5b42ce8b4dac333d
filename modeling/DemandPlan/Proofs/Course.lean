import DemandPlan.Proofs.Timeline
import DemandPlan.Proofs.Transparency

/-!
# The course of a plan

What is seen of a call of a plan, event by event, and how it ends. The waves of the schedule come
one after the other. In each wave the synchronous operations are called one by one, and then the
asynchronous ones run at the same time. The first synchronous operation that fails ends everything;
asynchronous ones that fail do not stop the others of their wave, and the first of them in order of
names says what the failure is.

* `Wave.Course`, `Schedule.Course`: this, as rules.
* `Schedule.course_runIn`: a schedule takes its course.
* `Planner.compile_takes_course`: so does a call of a compiled plan.
-/

namespace DemandPlan

open Requirements

variable {V E : Type}

/-! ## The rules -/

/-- The operation gives a value, if its calls show what `act` says. -/
def Operation.Gives (act : Operation V E → Activity (Failure E) V) (op : Operation V E) : Prop :=
  ∃ v, (act op).outcome = .ok v

/-- What operations show that are called one by one. -/
def Wave.oneByOne (act : Operation V E → Activity (Failure E) V) (ops : List (Operation V E)) :
    List Event :=
  ops.flatMap fun op => (act op).run.trace

/-- The course of a wave: the operations that are called, what is seen of them, and the end. What a
call of an operation shows is given by `act`. -/
inductive Wave.Course (act : Operation V E → Activity (Failure E) V) (w : Wave V E) :
    List (Operation V E) → List Event → Except (Failure E) Unit → Prop
  /-- All operations give values. -/
  | done : (∀ op ∈ w.operations, op.Gives act) →
    w.Course act w.operations
      (oneByOne act w.sync ++ FanOut.timeline (w.async.map act)) (.ok ())
  /-- A synchronous operation fails, and no other operation is called after it. -/
  | sync {before after : List (Operation V E)} {op : Operation V E} {f : Failure E} :
    w.sync = before ++ op :: after → (∀ op ∈ before, op.Gives act) →
    (act op).outcome = .error f →
    w.Course act (before ++ [op]) (oneByOne act (before ++ [op])) (.error f)
  /-- Some asynchronous operations fail. All of them go on to their ends. -/
  | async {before after : List (Operation V E)} {op : Operation V E} {f : Failure E} :
    (∀ op ∈ w.sync, op.Gives act) →
    w.async = before ++ op :: after → (∀ op ∈ before, op.Gives act) →
    (act op).outcome = .error f →
    w.Course act w.operations
      (oneByOne act w.sync ++ FanOut.timeline (w.async.map act)) (.error f)

/-- The course of waves that come one after the other, up to the first that fails. -/
inductive Schedule.Course (act : Operation V E → Activity (Failure E) V) :
    List (Wave V E) → List (Operation V E) → List Event → Except (Failure E) Unit → Prop
  | nil : Course act [] [] [] (.ok ())
  | failed {w : Wave V E} {waves : List (Wave V E)} {called : List (Operation V E)}
    {trace : List Event} {f : Failure E} :
    w.Course act called trace (.error f) → Course act (w :: waves) called trace (.error f)
  | cons {w : Wave V E} {waves : List (Wave V E)} {called called' : List (Operation V E)}
    {trace trace' : List Event} {outcome : Except (Failure E) Unit} :
    w.Course act called trace (.ok ()) → Course act waves called' trace' outcome →
    Course act (w :: waves) (called ++ called') (trace ++ trace') outcome

/-! ## Schedules take their course -/

variable {value : String → Except (Trouble E) V}

theorem Wave.Course.mem_operations {act : Operation V E → Activity (Failure E) V} {w : Wave V E}
    {called : List (Operation V E)} {trace : List Event} {outcome : Except (Failure E) Unit}
    (h : w.Course act called trace outcome) : ∀ op ∈ called, op ∈ w.operations := by
  cases h with
  | done _ => exact fun _ hop => hop
  | async => exact fun _ hop => hop
  | sync hsplit _ _ =>
    intro op hop
    rw [operations, hsplit]
    simp only [List.mem_append, List.mem_cons] at hop ⊢
    tauto

/-- A wave all of whose synchronous operations give values runs the asynchronous ones. -/
theorem Wave.runIn_of_gives {w : Wave V E}
    (h : ∀ op ∈ w.sync, op.Gives (Operation.activityIn value)) : w.runIn value =
      { trace := oneByOne (Operation.activityIn value) w.sync ++
          FanOut.timeline (w.async.map (Operation.activityIn value))
        outcome := (w.async.mapM fun op => (Operation.activityIn value op).outcome).map
          fun _ => () } := by
  have hgather : (FanOut.gather (w.async.map fun op => op.activityIn value)).outcome =
      w.async.mapM fun op => (op.activityIn value).outcome := by
    rw [FanOut.gather_outcome, List.mapM_map]
    rfl
  rw [runIn, Run.all_of_ok (List.forall_mem_map.2 h), Run.bind_of_ok rfl, List.flatMap_map,
    ← hgather, ← FanOut.gather_trace]
  cases hasync : (FanOut.gather (w.async.map fun op => op.activityIn value)).outcome with
  | error f => rw [Run.bind_of_error hasync]; rfl
  | ok vs => rw [Run.bind_of_ok hasync, Run.pure_trace, List.append_nil]; rfl

/-- **A wave takes its course.** -/
theorem Wave.course_runIn (value : String → Except (Trouble E) V) (w : Wave V E) :
    ∃ called, w.Course (Operation.activityIn value) called (w.runIn value).trace
      (w.runIn value).outcome := by
  cases hsync : w.sync.mapM fun op => (op.activityIn value).outcome with
  | error f =>
    -- A synchronous operation fails: those behind it, and all asynchronous ones, are not called.
    obtain ⟨op, hleft, hop⟩ := Outcome.mapM_eq_error_iff.1 hsync
    obtain ⟨before, after, hsplit, hbefore⟩ := Outcome.leftmost_iff.1 hleft
    have hall : Run.all (w.sync.map fun op => (op.activityIn value).run) =
        { trace := oneByOne (Operation.activityIn value) (before ++ [op])
          outcome := .error f } := by
      rw [hsplit, List.map_append, List.map_cons,
        Run.all_of_error (List.forall_mem_map.2 hbefore) hop, oneByOne, List.flatMap_append,
        List.flatMap_append, List.flatMap_map]
      rfl
    rw [runIn, hall, Run.bind_of_error rfl]
    exact ⟨_, .sync hsplit hbefore hop⟩
  | ok vs =>
    -- All synchronous operations give values, so that the fan-out decides.
    have hgives : ∀ op ∈ w.sync, op.Gives (Operation.activityIn value) := fun op hop => by
      obtain ⟨v, -, hv⟩ := Outcome.exists_ok_of_mapM hsync hop
      exact ⟨v, hv⟩
    rw [runIn_of_gives hgives]
    cases hasync : w.async.mapM fun op => (Operation.activityIn value op).outcome with
    | ok vs' =>
      refine ⟨_, .done (List.forall_mem_append.2 ⟨hgives, fun op hop => ?_⟩)⟩
      obtain ⟨v, -, hv⟩ := Outcome.exists_ok_of_mapM hasync hop
      exact ⟨v, hv⟩
    | error f =>
      obtain ⟨op, hleft, hop⟩ := Outcome.mapM_eq_error_iff.1 hasync
      obtain ⟨before, after, hsplit, hbefore⟩ := Outcome.leftmost_iff.1 hleft
      exact ⟨_, .async hgives hsplit hbefore hop⟩

/-- **A schedule takes its course.** Whatever operations are called, their inputs have values. -/
theorem Schedule.course_runIn {waves : List (Wave V E)} {available : List String}
    (hr : Runnable available waves) (ha : ∀ n ∈ available, ∃ v, value n = .ok v)
    (hc : ∀ op ∈ waves.flatMap Wave.operations, op.Consistent value) :
    ∃ called, Course (Operation.activityIn value) waves called
        (Run.all (waves.map (Wave.runIn value))).trace
        (Run.all (waves.map (Wave.runIn value))).outcome ∧
      ∀ op ∈ called, op ∈ waves.flatMap Wave.operations ∧ ∀ i ∈ op.inputs, ∃ v, value i = .ok v := by
  induction waves generalizing available with
  | nil => exact ⟨[], .nil, fun _ hop => (nomatch hop)⟩
  | cons w waves ih =>
    rw [List.flatMap_cons, List.forall_mem_append] at hc
    obtain ⟨hwave, hwaves⟩ := hc
    obtain ⟨called, hcourse⟩ := w.course_runIn value
    have hinputs : ∀ op ∈ w.operations, ∀ i ∈ op.inputs, ∃ v, value i = .ok v :=
      fun op hop i hi => ha i (hr.1 op hop i hi)
    have hcalled : ∀ op ∈ called, op ∈ (w :: waves).flatMap Wave.operations ∧
        ∀ i ∈ op.inputs, ∃ v, value i = .ok v := fun op hop =>
      have hmem := hcourse.mem_operations op hop
      ⟨List.mem_append_left _ hmem, hinputs op hmem⟩
    rw [List.map_cons, Run.all]
    cases hout : (w.runIn value).outcome with
    | error f =>
      rw [hout] at hcourse
      rw [Run.bind_of_error hout]
      exact ⟨called, .failed hcourse, hcalled⟩
    | ok u =>
      rw [hout] at hcourse
      rw [Run.bind_of_ok hout]
      have hok := Wave.outcome_runIn_eq_ok_iff.1 hout
      obtain ⟨called', hcourse', hcalled'⟩ := ih hr.2 (fun n hn => by
        rcases List.mem_append.1 hn with hn | hn
        · exact ha n hn
        · obtain ⟨op, hop, rfl⟩ := List.mem_map.1 hn
          obtain ⟨v, hv⟩ := hok op hop
          exact ⟨v, ((hwave op hop).ok_iff (hinputs op hop)).2 hv⟩) hwaves
      refine ⟨called ++ called', .cons hcourse hcourse', ?_⟩
      rw [List.forall_mem_append]
      exact ⟨hcalled, fun op hop => ⟨List.mem_append_right _ (hcalled' op hop).1,
        (hcalled' op hop).2⟩⟩

/-- What ends a wave is the failure of an operation that has been called. -/
theorem Wave.Course.exists_error {act : Operation V E → Activity (Failure E) V} {w : Wave V E}
    {called : List (Operation V E)} {trace : List Event} {f : Failure E}
    (h : w.Course act called trace (.error f)) : ∃ op ∈ called, (act op).outcome = .error f := by
  cases h with
  | sync hsplit _ hop => exact ⟨_, List.mem_append_right _ (List.mem_singleton_self _), hop⟩
  | async _ hsplit _ hop =>
    exact ⟨_, List.mem_append_right _ (hsplit ▸ List.mem_append_right _ List.mem_cons_self), hop⟩

theorem Schedule.Course.exists_error {act : Operation V E → Activity (Failure E) V}
    {waves : List (Wave V E)} {called : List (Operation V E)} {trace : List Event} {f : Failure E}
    (h : Course act waves called trace (.error f)) :
    ∃ op ∈ called, (act op).outcome = .error f := by
  generalize hout : Except.error f = outcome at h
  induction h with
  | nil => cases hout
  | failed hwave =>
    obtain rfl := Except.error.inj hout
    exact hwave.exists_error
  | cons _ _ ih =>
    obtain ⟨op, hop, hf⟩ := ih hout
    exact ⟨op, List.mem_append_right _ hop, hf⟩

/-! ## So do calls of plans -/

namespace Plan

variable {r : Registry V E} {wanted hints : List String} {args : Table V}

/-- What is seen of a call of a plan that runs a schedule, and how it ends: with the failure of an
operation, or with the answer to the query. Each operation that is called is called on the values of
its inputs. -/
structure TakesCourse (r : Registry V E) (wanted hints : List String) (args : Table V)
    (s : Schedule V E) (run : Run (Failure E) (Table V))
    (act : Operation V E → Activity (Failure E) V) (called : List (Operation V E))
    (outcome : Except (Failure E) Unit) : Prop where
  course : Schedule.Course act s.waves called run.trace outcome
  inputs : ∀ op ∈ called, ∃ vs,
    List.Forall₂ (fun i v => Evaluates r hints args i (.ok v)) op.inputs vs ∧ act op = op.activity vs
  failure : ∀ f, outcome = .error f → run.outcome = .error f
  answer : outcome = .ok () → ∃ t, run.outcome = .ok t ∧ Answers r hints wanted args t

/-- **Calls take the course of the schedule.** -/
theorem call_takesCourse {plan : Plan V E} (h : ofQuery r wanted hints = .ok plan)
    (hn : wanted.Nodup) {s : Schedule V E} (hs : Schedule.ofQuery r wanted hints = .ok s)
    (ha : ∀ n ∈ plan.record.params, n ∈ args) (registered : List (Operation V E)) :
    ∃ act called outcome,
      TakesCourse r wanted hints args s (plan.call registered args).run act called outcome := by
  obtain ⟨value, hv⟩ := exists_solution args (ofQuery_isOk_iff.1 ⟨plan, h⟩)
  obtain ⟨s', hs', hcall⟩ := call_ofQuery h hn ha hv registered
  obtain rfl := Except.ok.inj (hs.symm.trans hs')
  obtain ⟨hrun, hperm, -⟩ := Schedule.ofQuery_ok hs
  have hmem : ∀ {op}, op ∈ s.waves.flatMap Wave.operations → op ∈ (find r wanted hints).operations :=
    fun hop => hperm.mem_iff.1 hop
  have hparams : ∀ n ∈ (find r wanted hints).params, ∃ v, value n = .ok v := fun n hp => by
    obtain ⟨v, hfound⟩ := Table.mem_iff_exists_find?.1 (ha n (params_of_ofQuery h ▸ hp))
    exact ⟨v, hv.param_eq hp hfound⟩
  obtain ⟨called, hcourse, hcalled⟩ :=
    Schedule.course_runIn hrun hparams fun op hop => hv.output_eq (hmem hop)
  change Schedule.Course _ _ _ (s.runIn value).trace (s.runIn value).outcome at hcourse
  refine ⟨_, called, (s.runIn value).outcome, ?_, fun op hop => ⟨op.argumentsIn value, ?_, rfl⟩,
    fun f hf => ?_, fun hok => ?_⟩
  · -- Behind the schedule a call collects its results, which shows nothing.
    have htrace : (plan.call registered args).run.trace = (s.runIn value).trace := by
      rw [hcall]
      cases hout : (s.runIn value).outcome with
      | error f => rw [Run.bind_of_error hout]
      | ok u => rw [Run.bind_of_ok hout, Run.pure_trace, List.append_nil]
    rwa [htrace]
  · obtain ⟨hop, hinputs⟩ := hcalled op hop
    obtain ⟨hneeded, hp⟩ := mem_operations_iff.1 (hmem hop)
    refine Outcome.forall₂_imp_mem (Outcome.mapM_eq_ok_iff.1 (Operation.mapM_inputs hinputs))
      fun i hi v hvalue => hvalue ▸ hv i (.input hneeded ⟨op, hp, hi⟩)
  · rw [hcall, Run.bind_of_error hf]
  · have hout : (plan.call registered args).run.outcome = .ok (valuesIn value wanted) := by
      rw [hcall, Run.bind_of_ok hok, Run.pure_outcome]
    exact ⟨_, hout, (outcome_call_eq_ok_iff h hn registered).1 hout⟩

/-- If all parameters are there, only the implementations can fail. -/
theorem error_of_call {plan : Plan V E} (h : ofQuery r wanted hints = .ok plan)
    (hn : wanted.Nodup) (ha : ∀ n ∈ plan.record.params, n ∈ args)
    (registered : List (Operation V E)) {f : Failure E}
    (hf : (plan.call registered args).run.outcome = .error f) :
    (∃ e, f = .raised e) ∨ f = .notAwaitable := by
  obtain ⟨s, hs, -⟩ := ofQuery_eq_ok_iff.1 h
  obtain ⟨act, called, outcome, hcourse⟩ := call_takesCourse h hn hs ha registered
  cases outcome with
  | ok u =>
    obtain ⟨t, ht, -⟩ := hcourse.answer rfl
    cases hf.symm.trans ht
  | error f' =>
    obtain rfl := Except.error.inj (hf.symm.trans (hcourse.failure f' rfl))
    obtain ⟨op, hop, hout⟩ := hcourse.course.exists_error
    obtain ⟨vs, -, hact⟩ := hcourse.inputs op hop
    rw [hact] at hout
    exact op.outcome_error hout

end Plan

namespace Planner

/-- **Compiled plans take their course.** Let a planner that has answered any requests before
compile a plan, and let it be called on arguments that hold the parameters. The operations that the
query needs are laid out in waves, in each of which the synchronous and the asynchronous operations
are in ascending order of their outputs. Wave after wave, the synchronous operations are called one
by one, then the asynchronous ones run at the same time, and what is seen of them is in order of
rounds and positions. The first synchronous operation that fails ends the call; otherwise all
asynchronous operations of the wave go on to their ends, and the first one, in order of outputs,
that has failed ends the call. Nothing is called after this. Without a failure the call gives the
answer to the query. -/
theorem compile_takes_course (r : Registry V E) (config : Config) (before : List (Request V E))
    {wanted hints : List String} {plan : Stamped (Plan V E)} {p p' : Planner V E}
    (hp : p = ({ registry := r, config } : Planner V E).after before)
    (h : (compile wanted hints).run.run p = (.ok plan, p')) (registered : List (Operation V E)) :
    let q := find p.registry (Names.distinct wanted) hints
    ∃ s, Schedule.ofOperations q.operations (q.params ++ hints) = .ok s ∧
      s.operations.Perm q.operations ∧ (∀ w ∈ s.waves, w.Grouped ∧ w.Ascending) ∧
      ∀ args : Table V, (∀ n ∈ plan.value.record.params, n ∈ args) →
        ∃ act called outcome, Plan.TakesCourse p.registry wanted hints args s
          (plan.value.call registered args).run act called outcome := by
  intro q
  have hplan := ofQuery_of_compile (hp ▸ coherent_after_of_fresh r config before) h
  obtain ⟨s, hs, -⟩ := Plan.ofQuery_eq_ok_iff.1 hplan
  obtain ⟨-, hperm, hgroup⟩ := Schedule.ofQuery_ok hs
  have hascending := Schedule.ascending_of_ofQuery hs
  refine ⟨s, hs, hperm, fun w hw => ⟨hgroup w hw, hascending w hw⟩, fun args ha => ?_⟩
  obtain ⟨act, called, outcome, hcourse⟩ :=
    Plan.call_takesCourse hplan (Names.distinct_nodup wanted) hs ha registered
  refine ⟨act, called, outcome, hcourse.course, hcourse.inputs, hcourse.failure, fun hok => ?_⟩
  obtain ⟨t, ht, hanswers⟩ := hcourse.answer hok
  exact ⟨t, ht, answers_distinct_iff.1 hanswers⟩

/-- The theorem at a wave in which two asynchronous operations fail, the second one first. -/
theorem compile_takes_course_of_two_failures :
    let op (output : String) (inputs : List String) (isAsync : Bool) (pauses : Nat)
        (apply : List Nat → Except String Nat) : Operation Nat String :=
      { output, inputs, isAsync
        impl := { label := output, style := if isAsync then .coroutine else .plain, pauses, apply } }
    let r : Registry Nat String :=
      { operations := [op "b" ["x"] true 0 fun _ => .error "b is wrong",
          op "a" ["x"] true 2 fun _ => .error "a is wrong", op "s" ["x"] false 0 fun vs => .ok vs.sum,
          op "t" ["a", "s"] false 0 fun vs => .ok vs.sum]
        nodup := by decide }
    let p : Planner Nat String := { registry := r }
    let args : Table Nat := { entries := [("x", 1)] }
    ∃ plan p', (compile ["t", "b"] []).run.run p = (.ok plan, p') ∧
      (plan.value.call [] args).run =
        { trace := [.call "s", .start "a", .start "b", .fail "b", .fail "a"]
          outcome := .error (.raised "a is wrong") } ∧
      ∃ s act called outcome, Plan.TakesCourse r ["t", "b"] [] args s
        (plan.value.call [] args).run act called outcome := by
  intro op r p args
  have hparams : (((compile ["t", "b"] []).run.run p).1.toOption.map
      fun plan => plan.value.record.params) = some ["x"] := by cbv
  have hcall : (((compile ["t", "b"] []).run.run p).1.toOption.map
      fun plan => (plan.value.call [] args).run) =
        some { trace := [.call "s", .start "a", .start "b", .fail "b", .fail "a"]
               outcome := .error (.raised "a is wrong") } := by cbv
  generalize h : (compile ["t", "b"] []).run.run p = result at hparams hcall
  obtain ⟨_ | plan, p'⟩ := result
  · cases hcall
  · have hparams : plan.value.record.params = ["x"] := Option.some.inj hparams
    obtain ⟨s, -, -, -, hs⟩ := compile_takes_course r {} [] rfl h []
    have ha : ∀ n ∈ plan.value.record.params, n ∈ args := by
      rw [hparams]
      decide
    exact ⟨plan, p', rfl, Option.some.inj hcall, s, hs args ha⟩

end Planner

end DemandPlan
