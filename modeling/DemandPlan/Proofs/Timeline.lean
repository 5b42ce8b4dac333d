import DemandPlan.Proofs.FanOut

/-!
# The timeline of a fan-out

First-in first-out, a fan-out goes round after round. In each round every member that is not over is
resumed once, in order of submission: in round 0 it begins, and in the round that has the number of
its pauses it ends. So the events are in order of their rounds and, within a round, in order of
submission.

* `FanOut.timeline`: these events, in this order.
* `FanOut.round_standing`: one round, from where the fan-out stands after the rounds before it.
* `FanOut.gather_trace`: a fan-out shows its timeline.
-/

namespace DemandPlan

variable {F α : Type}

/-- The events that an activity shows in a round. -/
def Activity.eventsIn (a : Activity F α) (round : Nat) : List Event :=
  (if round = 0 then a.opening else []) ++ if round = a.pauses then a.closing else []

/-- How far an activity has come after some rounds. -/
def Member.after (rounds : Nat) (a : Activity F α) : Member F α where
  activity := a
  progress :=
    if rounds = 0 then .fresh
    else if rounds ≤ a.pauses then .paused (a.pauses - rounds)
    else .over a.outcome

namespace Member

theorem after_of_le {n : Nat} {a : Activity F α} (h : n + 1 ≤ a.pauses) :
    after (n + 1) a = { activity := a, progress := .paused (a.pauses - (n + 1)) } := by
  simp [after, h]

theorem after_of_lt {n : Nat} {a : Activity F α} (h : a.pauses < n) :
    after n a = { activity := a, progress := .over a.outcome } := by
  simp [after, Nat.not_le_of_lt h, Nat.ne_zero_of_lt h]

/-- **One round of one activity.** -/
theorem step_after (n : Nat) (a : Activity F α) :
    (after n a).step = (after (n + 1) a, a.eventsIn n) := by
  rcases n with _ | n
  · -- The activity begins. Without pauses it is over at once.
    cases hp : a.pauses <;> simp [after, step, Activity.eventsIn, hp]
  · rcases Nat.lt_trichotomy (n + 1) a.pauses with hlt | heq | hgt
    · obtain ⟨left, hleft⟩ : ∃ left, a.pauses - (n + 1) = left + 1 :=
        Nat.exists_eq_succ_of_ne_zero (by omega)
      have hnext : a.pauses - (n + 1 + 1) = left := by omega
      rw [after_of_le (Nat.le_of_lt hlt), after_of_le hlt, hleft, hnext]
      simp [step, Activity.eventsIn, Nat.ne_of_lt hlt]
    · rw [after_of_le (Nat.le_of_eq heq), after_of_lt (heq ▸ Nat.lt_succ_self _), heq, Nat.sub_self]
      simp [step, Activity.eventsIn, ← heq]
    · rw [after_of_lt hgt, after_of_lt (Nat.lt_succ_of_lt hgt)]
      simp [step, Activity.eventsIn, Nat.ne_of_gt hgt]

theorem movesLeft_after (rounds : Nat) (a : Activity F α) :
    (after rounds a).movesLeft = a.pauses + 1 - rounds := by
  unfold after movesLeft
  dsimp only
  split_ifs <;> dsimp only <;> omega

end Member

namespace FanOut

/-- How many rounds it takes until every activity is over. -/
def rounds (activities : List (Activity F α)) : Nat :=
  activities.foldr (fun a n => max (a.pauses + 1) n) 0

/-- The events of activities that run at the same time, round by round. -/
def timeline (activities : List (Activity F α)) : List Event :=
  (List.range (rounds activities)).flatMap fun k => activities.flatMap (·.eventsIn k)

theorem rounds_le_iff {activities : List (Activity F α)} {n : Nat} :
    rounds activities ≤ n ↔ ∀ a ∈ activities, a.pauses < n := by
  unfold rounds
  induction activities with
  | nil => simp
  | cons a activities ih =>
    rw [List.foldr_cons, Nat.max_le, ih, List.forall_mem_cons, Nat.succ_le_iff]

/-! ## One round -/

/-- Resuming the members behind some others, one after the other. -/
theorem foldl_resume_range' (before rest : List (Member F α)) (trace : List Event) :
    (List.range' before.length rest.length).foldl resume { members := before ++ rest, trace } =
      { members := before ++ rest.map fun m => m.step.1
        trace := trace ++ rest.flatMap fun m => m.step.2 } := by
  induction rest generalizing before trace with
  | nil => simp
  | cons m rest ih =>
    have hresume : resume { members := before ++ m :: rest, trace } before.length =
        { members := (before ++ [m.step.1]) ++ rest, trace := trace ++ m.step.2 } := by
      simp [resume]
    have ih := ih (before ++ [m.step.1]) (trace ++ m.step.2)
    rw [List.length_append, List.length_singleton] at ih
    rw [List.length_cons, List.range'_succ, List.foldl_cons, hresume, ih]
    simp

theorem round_eq (s : FanOut F α) : s.round =
    { members := s.members.map fun m => m.step.1
      trace := s.trace ++ s.members.flatMap fun m => m.step.2 } := by
  have h := foldl_resume_range' [] s.members s.trace
  rw [List.length_nil, ← List.range_eq_range'] at h
  exact h

/-! ## All rounds -/

/-- How a fan-out stands after some rounds. -/
def standing (activities : List (Activity F α)) (rounds : Nat) : FanOut F α where
  members := activities.map (Member.after rounds)
  trace := (List.range rounds).flatMap fun k => activities.flatMap (·.eventsIn k)

variable {activities : List (Activity F α)}

/-- **One round.** Every member shows its events of this round, in order of submission. -/
theorem round_standing (k : Nat) :
    (standing activities k).round = standing activities (k + 1) := by
  rw [round_eq]
  simp only [standing, List.map_map, List.flatMap_map, Function.comp_def, Member.step_after,
    List.range_succ, List.flatMap_append, List.flatMap_singleton]

theorem movesLeft_standing_eq_zero_iff {k : Nat} :
    (standing activities k).movesLeft = 0 ↔ rounds activities ≤ k := by
  rw [movesLeft, movesOf_eq_zero_iff, standing, List.forall_mem_map, rounds_le_iff]
  refine forall₂_congr fun a _ => ?_
  rw [Member.movesLeft_after]
  omega

theorem drain_standing {k : Nat} (hk : k ≤ rounds activities) :
    (standing activities k).drain = standing activities (rounds activities) := by
  unfold drain
  split
  · next h => rw [Nat.le_antisymm hk (movesLeft_standing_eq_zero_iff.1 h)]
  · next h =>
    have hlt : k < rounds activities := Nat.lt_of_not_le (mt movesLeft_standing_eq_zero_iff.2 h)
    have ih := drain_standing hlt
    rwa [← round_standing] at ih
termination_by rounds activities - k

/-- **The events of a fan-out** are in order of their rounds and, within a round, in order of
submission. -/
theorem gather_trace (activities : List (Activity F α)) :
    (gather activities).trace = timeline activities := by
  have hsubmit : submit activities = standing activities 0 := rfl
  rw [gather, hsubmit, drain_standing (Nat.zero_le _)]
  rfl

end FanOut

end DemandPlan
