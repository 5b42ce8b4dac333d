import DemandPlan.FanOut
import DemandPlan.Proofs.Outcome
import Mathlib.Data.List.Perm.Basic

/-!
# Fan-outs

A fan-out gives the same answer in whatever order its members are resumed: an invariant of every
single move (`Tracks.resume`) says how far each member has come and what it has shown by then.

* `gather_outcome`: the values of all members, or the first failure, in order of submission.
* `gather_trace_perm`: every member has shown all its events.
-/

namespace DemandPlan

variable {F α : Type}

namespace Member

/-- The events that a member has shown so far. -/
def seen (m : Member F α) : List Event :=
  match m.progress with
  | .fresh => []
  | .paused _ => m.activity.opening
  | .over _ => m.activity.opening ++ m.activity.closing

/-- A member that is over has ended as its activity says. -/
def Settled (m : Member F α) : Prop := ∀ o, m.progress = .over o → o = m.activity.outcome

theorem activity_step (m : Member F α) : m.step.1.activity = m.activity := by
  unfold step
  split
  · split <;> rfl
  · rfl
  · rfl
  · rfl

theorem seen_step (m : Member F α) : m.step.1.seen = m.seen ++ m.step.2 := by
  obtain ⟨a, p⟩ := m
  unfold step
  split
  · next h =>
    cases h
    split <;> simp [seen]
  · next h => cases h; simp [seen]
  · next h => cases h; simp [seen]
  · next h => cases h; simp [seen]

theorem Settled.step {m : Member F α} (h : m.Settled) : m.step.1.Settled := by
  intro o ho
  rw [activity_step]
  unfold Member.step at ho
  split at ho
  · split at ho <;> cases ho
    rfl
  · cases ho
  · cases ho
    rfl
  · exact h o ho

end Member

namespace FanOut

/-- How a fan-out stands that runs some activities, whatever moves have been made. -/
structure Tracks (activities : List (Activity F α)) (s : FanOut F α) : Prop where
  activities_eq : s.members.map Member.activity = activities
  settled : ∀ m ∈ s.members, m.Settled
  trace_perm : s.trace.Perm (s.members.flatMap Member.seen)

variable {activities : List (Activity F α)} {s : FanOut F α}

theorem tracks_submit (activities : List (Activity F α)) :
    Tracks activities (submit activities) where
  activities_eq := by simp [submit, Function.comp_def]
  settled := by simp [submit, Member.Settled]
  trace_perm := by simp [submit, List.flatMap_map, Member.seen]

theorem flatMap_seen_set {ms : List (Member F α)} {i : Nat} {m : Member F α} (h : ms[i]? = some m) :
    ((ms.set i m.step.1).flatMap Member.seen).Perm (ms.flatMap Member.seen ++ m.step.2) := by
  induction ms generalizing i with
  | nil => simp at h
  | cons a ms ih =>
    cases i with
    | zero =>
      obtain rfl : a = m := by simpa using h
      rw [List.set_cons_zero, List.flatMap_cons, List.flatMap_cons, Member.seen_step,
        List.append_assoc, List.append_assoc]
      exact List.perm_append_comm.append_left _
    | succ i =>
      rw [List.set_cons_succ, List.flatMap_cons, List.flatMap_cons, List.append_assoc]
      exact (ih (by simpa using h)).append_left _

/-- **One move.** Whichever member is resumed, the fan-out still runs the same activities. -/
theorem Tracks.resume (h : Tracks activities s) (i : Nat) : Tracks activities (s.resume i) := by
  unfold FanOut.resume
  split
  · exact h
  · next m hm =>
    refine ⟨?_, fun m' hm' => ?_, ?_⟩
    · rw [← h.activities_eq, List.map_set, Member.activity_step]
      obtain ⟨hi, rfl⟩ := List.getElem?_eq_some_iff.1 hm
      rw [← List.getElem_map Member.activity (h := by simpa using hi), List.set_getElem_self]
    · rcases List.mem_or_eq_of_mem_set hm' with hm' | rfl
      · exact h.settled m' hm'
      · exact (h.settled m (List.mem_of_getElem? hm)).step
    · exact (h.trace_perm.append_right _).trans (flatMap_seen_set hm).symm

theorem Tracks.foldl_resume (h : Tracks activities s) (is : List Nat) :
    Tracks activities (is.foldl FanOut.resume s) := by
  induction is generalizing s with
  | nil => exact h
  | cons i is ih => exact ih (h.resume i)

theorem Tracks.drain (h : Tracks activities s) : Tracks activities s.drain := by
  fun_induction FanOut.drain s with
  | case1 => exact h
  | case2 s _ _ ih => exact ih (h.foldl_resume _)

theorem movesLeft_drain (s : FanOut F α) : s.drain.movesLeft = 0 := by
  fun_induction FanOut.drain s with
  | case1 s hs => exact hs
  | case2 s _ _ ih => exact ih

/-! ## When all is over -/

theorem progress_of_movesLeft (hs : s.movesLeft = 0) {m : Member F α} (hm : m ∈ s.members) :
    ∃ o, m.progress = .over o := by
  have h0 : m.movesLeft = 0 := movesOf_eq_zero_iff.1 hs m hm
  unfold Member.movesLeft at h0
  split at h0
  · cases h0
  · cases h0
  · next o ho => exact ⟨o, ho⟩

/-- The answer when all is over: the outcomes of the activities, in order of submission. -/
theorem Tracks.collect_eq (h : Tracks activities s) (hs : s.movesLeft = 0) :
    s.collect = activities.mapM Activity.outcome := by
  have hover : ∀ m ∈ s.members, m.outcome? = some m.activity.outcome := by
    intro m hm
    obtain ⟨o, ho⟩ := progress_of_movesLeft hs hm
    rw [Member.outcome?, ho, h.settled m hm o ho]
  have hall : s.members.filterMap Member.outcome? = activities.map Activity.outcome := by
    rw [← h.activities_eq, List.map_map, ← List.filterMap_eq_map]
    exact List.filterMap_congr hover
  rw [collect, hall, List.mapM_map]
  rfl

theorem Tracks.trace_perm_of_over (h : Tracks activities s) (hs : s.movesLeft = 0) :
    s.trace.Perm (activities.flatMap fun a => a.opening ++ a.closing) := by
  refine h.trace_perm.trans (List.Perm.of_eq ?_)
  rw [← h.activities_eq, List.flatMap_map]
  refine List.flatMap_congr fun m hm => ?_
  obtain ⟨o, ho⟩ := progress_of_movesLeft hs hm
  rw [Member.seen, ho]

/-- **The answer of a fan-out.** It depends on the outcomes only, not on the pauses. -/
theorem gather_outcome (activities : List (Activity F α)) :
    (gather activities).outcome = activities.mapM Activity.outcome :=
  (tracks_submit activities).drain.collect_eq (movesLeft_drain _)

theorem gather_trace_perm (activities : List (Activity F α)) :
    (gather activities).trace.Perm (activities.flatMap fun a => a.opening ++ a.closing) :=
  (tracks_submit activities).drain.trace_perm_of_over (movesLeft_drain _)

end FanOut

end DemandPlan
