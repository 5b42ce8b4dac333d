import DemandPlan.Proofs.Concurrent

/-!
# Jobs wait in a tree

A job that waits for a name keeps the job of that name alive: all jobs in progress are there
because one of them, the root, waits for them, directly or through others. So nothing is left
behind when the root is over.

* `Rooted`: all jobs lead back to the root; `Rooted.step`: every move keeps this.
* `Rooted.no_jobs`: without the root there are no jobs.
-/

namespace DemandPlan.Concurrent

open Relation

variable {V E : Type} {r : Registry V E} {args : Table V} {wanted : List String}
  {ops : List (Operation V E)} {s s' : State V E} {name root : String}

/-! ## Only one job changes -/

theorem find?_jobs_finish (x : Except (Trouble E) V) {n : String} (h : n ≠ name) :
    (s.finish name x).jobs.find? n = s.jobs.find? n := by
  cases x <;> exact (Table.find?_erase _ _ _).trans (if_neg h)

theorem find?_jobs_insert (j : Job V E) {n : String} (h : n ≠ name) :
    (s.jobs.insert name j).find? n = s.jobs.find? n :=
  (Table.find?_insert _ _ _ _).trans (if_neg h)

theorem find?_jobs_launch (op : Operation V E) (vs : List V) {n : String} (h : n ≠ name) :
    (s.launch name op vs).jobs.find? n = s.jobs.find? n := by
  unfold State.launch
  dsimp only
  split
  · exact find?_jobs_finish _ h
  · exact find?_jobs_insert _ h

theorem find?_jobs_start (op : Operation V E) {n : String} (h : n ≠ name) :
    (s.start name op).jobs.find? n = s.jobs.find? n := by
  unfold State.start
  split
  · exact find?_jobs_launch op _ h
  · exact find?_jobs_insert _ h

/-! ## Waiting -/

/-- A job has asked for a name and has no answer yet. -/
def Waits (s : State V E) (job name : String) : Prop :=
  ∃ op requests, s.jobs.find? job = some (.collecting op requests) ∧ ⟨name, none⟩ ∈ requests

theorem Waits.mem_jobs {job : String} (h : Waits s job name) : job ∈ s.jobs := by
  obtain ⟨op, requests, hj, -⟩ := h
  exact Table.mem_of_find? hj

/-- All jobs are there because the root waits for them. -/
def Rooted (s : State V E) (root : String) : Prop :=
  ∀ n ∈ s.jobs, ReflTransGen (Waits s) root n

theorem Rooted.no_jobs (h : Rooted s root) (hroot : root ∉ s.jobs) (n : String) : n ∉ s.jobs := by
  intro hn
  rcases (h n hn).cases_head with rfl | ⟨m, hm, -⟩
  · exact hroot hn
  · exact hroot hm.mem_jobs

/-- The jobs stay rooted if nobody stops waiting for a job in progress and new jobs are waited
for. -/
theorem Rooted.of_waits (h : Rooted s root)
    (hkeep : ∀ m n, Waits s m n → n ∈ s'.jobs → Waits s' m n)
    (hnew : ∀ n ∈ s'.jobs, n ∉ s.jobs → ∃ m, Waits s m n) : Rooted s' root := by
  have hpath : ∀ n, ReflTransGen (Waits s) root n → n ∈ s'.jobs →
      ReflTransGen (Waits s') root n := by
    intro n hn
    induction hn with
    | refl => exact fun _ => .refl
    | tail _ hmn ih =>
      intro hmem
      have hmn' := hkeep _ _ hmn hmem
      exact (ih hmn'.mem_jobs).tail hmn'
  intro n hn
  by_cases hold : n ∈ s.jobs
  · exact hpath n (h n hold) hn
  · obtain ⟨m, hm⟩ := hnew n hn hold
    exact hpath n ((h m hm.mem_jobs).tail hm) hn

/-- A change of the job of a name that itself waits for nothing. -/
theorem Rooted.of_frame (h : Rooted s root)
    (hframe : ∀ n, n ≠ name → s'.jobs.find? n = s.jobs.find? n) (hwaits : ∀ n, ¬Waits s name n)
    (hname : name ∈ s.jobs ∨ ∃ m, Waits s m name) : Rooted s' root := by
  refine h.of_waits (fun m n hmn _ => ?_) fun n hn hold => ?_
  · have hm : m ≠ name := fun he => hwaits n (he ▸ hmn)
    obtain ⟨op, requests, hj, hq⟩ := hmn
    exact ⟨op, requests, (hframe m hm).trans hj, hq⟩
  · by_cases he : n = name
    · subst he
      exact hname.resolve_left hold
    · rw [← Table.find?_isSome_iff, hframe n he, Table.find?_isSome_iff] at hn
      exact absurd hn hold

theorem not_waits_of_answered {op : Operation V E} {requests : List (Request V E)}
    (hj : s.jobs.find? name = some (.collecting op requests))
    (hall : ∀ q ∈ requests, q.answer ≠ none) (n : String) : ¬Waits s name n := by
  rintro ⟨op', requests', hj', hq⟩
  rw [hj, Option.some.injEq, Job.collecting.injEq] at hj'
  exact hall _ (hj'.2 ▸ hq) rfl

theorem not_waits_of_working {left : Nat} {closing : List Event} {outcome : Except (Failure E) V}
    (hj : s.jobs.find? name = some (.working left closing outcome)) (n : String) :
    ¬Waits s name n := by
  rintro ⟨op, requests, hj', -⟩
  rw [hj] at hj'
  cases hj'

/-- An answer for a name that is not in progress. -/
theorem Rooted.reply (h : Rooted s root) {job : String} {op : Operation V E}
    {requests : List (Request V E)} {index : Nat} {x : Except (Trouble E) V}
    (hj : s.jobs.find? job = some (.collecting op requests))
    (hq : requests[index]? = some ⟨name, none⟩) (hname : name ∉ s.jobs) :
    Rooted (s.reply job op requests index name x) root := by
  have hmem : ∀ n, n ∈ (s.reply job op requests index name x).jobs → n ∈ s.jobs := by
    intro n hn
    rcases Table.mem_insert.1 hn with rfl | hn
    · exact Table.mem_of_find? hj
    · exact hn
  refine h.of_waits (fun m n ⟨op', requests', hm, hmn⟩ hn => ?_) fun n hn hold =>
    absurd (hmem n hn) hold
  by_cases he : m = job
  · subst he
    rw [hj, Option.some.injEq, Job.collecting.injEq] at hm
    obtain ⟨rfl, rfl⟩ := hm
    refine ⟨op, _, (Table.find?_insert _ _ _ _).trans (if_pos rfl), ?_⟩
    obtain ⟨k, hk, hget⟩ := List.getElem_of_mem hmn
    have hne : index ≠ k := by
      rintro rfl
      rw [List.getElem?_eq_getElem hk, hget, Option.some.injEq, Request.mk.injEq] at hq
      exact hname (hq.1 ▸ hmem n hn)
    refine List.mem_iff_getElem.2 ⟨k, by rwa [List.length_set], ?_⟩
    rw [List.getElem_set_of_ne hne, hget]
  · exact ⟨op', requests', (find?_jobs_insert _ he).trans hm, hmn⟩

/-- **Every move keeps the jobs rooted.** -/
theorem Rooted.step (h : Rooted s root) (hs : Sound r args wanted ops s) (hstep : Step r s s') :
    Rooted s' root := by
  cases hstep with
  | answer hj hq hx => exact h.reply hj hq (hs.not_mem_jobs hx)
  | missing hj hq _ hjobs _ => exact h.reply hj hq hjobs
  | start hj hq _ hjobs _ =>
    exact h.of_frame (fun n => find?_jobs_start _) (fun n hw => hjobs hw.mem_jobs)
      (.inr ⟨_, _, _, hj, List.mem_of_getElem? hq⟩)
  | launch hj hall _ =>
    exact h.of_frame (fun n => find?_jobs_launch _ _) (not_waits_of_answered hj hall)
      (.inl (Table.mem_of_find? hj))
  | fail hj hall _ =>
    exact h.of_frame (fun n => find?_jobs_finish _) (not_waits_of_answered hj hall)
      (.inl (Table.mem_of_find? hj))
  | pause hj =>
    exact h.of_frame (fun n => find?_jobs_insert _) (not_waits_of_working hj)
      (.inl (Table.mem_of_find? hj))
  | close hj =>
    exact h.of_frame (fun n => find?_jobs_finish _) (not_waits_of_working hj)
      (.inl (Table.mem_of_find? hj))

/-- The job that is begun without any other job is the root. -/
theorem rooted_start (h : ∀ n, n ∉ s.jobs) (op : Operation V E) :
    Rooted (s.start root op) root := by
  intro n hn
  by_cases he : n = root
  · exact he ▸ .refl
  · rw [← Table.find?_isSome_iff, find?_jobs_start op he, Table.find?_isSome_iff] at hn
    exact absurd hn (h n)

end DemandPlan.Concurrent
