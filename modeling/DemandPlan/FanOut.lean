import DemandPlan.Activity

/-!
# Fan-out

Several activities are begun together and all of them are waited for. Each goes on whenever the
loop resumes it: to the next place where it gives way, or to its end. One that fails does not stop
the others. When all are over, the answer is the list of their values in the order of submission,
or the failure of the first one, in that order, that has failed.

`FanOut.resume` is one move of the loop and holds for any order of moves. `FanOut.gather` moves
first-in first-out: the members begin in order of submission, and then every unfinished member
makes one move per round, in the same order.

* `FanOut.resume_lt`: resuming an unfinished member leaves fewer moves to make.
-/

namespace DemandPlan

/-- How far a member has come. -/
inductive Progress (F α : Type)
  | fresh
  /-- It has given way and will do so `left` more times. -/
  | paused (left : Nat)
  | over (outcome : Except F α)

/-- One of the activities and how far it has come. -/
structure Member (F α : Type) where
  activity : Activity F α
  progress : Progress F α := .fresh

variable {F α : Type}

namespace Member

/-- How many more times the member has to be resumed. -/
def movesLeft (m : Member F α) : Nat :=
  match m.progress with
  | .fresh => m.activity.pauses + 1
  | .paused left => left + 1
  | .over _ => 0

/-- Whether the member is over. -/
def isOver (m : Member F α) : Bool := m.movesLeft == 0

/-- The end of the member, if it is over. -/
def outcome? (m : Member F α) : Option (Except F α) :=
  match m.progress with
  | .over outcome => some outcome
  | _ => none

/-- The member after its next move, and the events of that move. -/
def step (m : Member F α) : Member F α × List Event :=
  match m.progress with
  | .fresh =>
    match m.activity.pauses with
    | 0 => ({ m with progress := .over m.activity.outcome },
        m.activity.opening ++ m.activity.closing)
    | left + 1 => ({ m with progress := .paused left }, m.activity.opening)
  | .paused (left + 1) => ({ m with progress := .paused left }, [])
  | .paused 0 => ({ m with progress := .over m.activity.outcome }, m.activity.closing)
  | .over _ => (m, [])

theorem movesLeft_step (m : Member F α) : m.step.1.movesLeft = m.movesLeft - 1 := by
  obtain ⟨a, p⟩ := m
  unfold step
  split
  · next h =>
    cases h
    split <;> simp_all [movesLeft]
  · next h => cases h; simp [movesLeft]
  · next h => cases h; simp [movesLeft]
  · next h => cases h; simp [movesLeft]

end Member

/-- Activities that run at the same time, in order of submission, and what has been seen of them. -/
structure FanOut (F α : Type) where
  members : List (Member F α)
  trace : List Event := []

namespace FanOut

/-- Activities of which none has begun. -/
def submit (activities : List (Activity F α)) : FanOut F α :=
  { members := activities.map fun activity => { activity } }

/-- The loop resumes the member at a position. A member that is over stays as it is. -/
def resume (s : FanOut F α) (i : Nat) : FanOut F α :=
  match s.members[i]? with
  | none => s
  | some m => { members := s.members.set i m.step.1, trace := s.trace ++ m.step.2 }

/-- How many moves some members have to make. -/
def movesOf : List (Member F α) → Nat
  | [] => 0
  | m :: ms => m.movesLeft + movesOf ms

/-- How many moves have to be made. -/
def movesLeft (s : FanOut F α) : Nat := movesOf s.members

/-- Every member makes one move, in order. -/
def round (s : FanOut F α) : FanOut F α := (List.range s.members.length).foldl resume s

/-- The values in order of submission, or the first failure in that order. A member that is not
over counts as neither. -/
def collect (s : FanOut F α) : Except F (List α) :=
  (s.members.filterMap Member.outcome?).mapM id

theorem movesOf_set {l : List (Member F α)} {i : Nat} {m m' : Member F α} (h : l[i]? = some m) :
    movesOf (l.set i m') + m.movesLeft = movesOf l + m'.movesLeft := by
  induction l generalizing i with
  | nil => simp at h
  | cons a l ih =>
    cases i with
    | zero =>
      simp only [List.getElem?_cons_zero, Option.some.injEq] at h
      subst h
      simp only [List.set_cons_zero, movesOf]
      omega
    | succ i =>
      simp only [List.getElem?_cons_succ] at h
      have := ih h
      simp only [List.set_cons_succ, movesOf]
      omega

theorem movesLeft_resume {s : FanOut F α} {i : Nat} {m : Member F α} (h : s.members[i]? = some m) :
    (s.resume i).movesLeft + m.movesLeft = s.movesLeft + (m.movesLeft - 1) := by
  unfold resume movesLeft
  rw [h]
  have := @movesOf_set _ _ _ _ _ m.step.1 h
  simpa [Member.movesLeft_step] using this

theorem resume_le (s : FanOut F α) (i : Nat) : (s.resume i).movesLeft ≤ s.movesLeft := by
  cases h : s.members[i]? with
  | none => exact Nat.le_of_eq (by unfold resume; rw [h])
  | some m => have := movesLeft_resume h; omega

theorem resume_lt {s : FanOut F α} {i : Nat} {m : Member F α} (h : s.members[i]? = some m)
    (hm : m.isOver = false) : (s.resume i).movesLeft < s.movesLeft := by
  have := movesLeft_resume h
  have : m.movesLeft ≠ 0 := by simpa [Member.isOver] using hm
  omega

theorem members_resume_of_ne {s : FanOut F α} {i j : Nat} (h : i ≠ j) :
    (s.resume i).members[j]? = s.members[j]? := by
  unfold resume
  split
  · rfl
  · simp [List.getElem?_set_ne h]

theorem foldl_resume_le (is : List Nat) (s : FanOut F α) :
    (is.foldl resume s).movesLeft ≤ s.movesLeft := by
  induction is generalizing s with
  | nil => exact Nat.le_refl _
  | cons i is ih => exact Nat.le_trans (ih _) (resume_le s i)

theorem foldl_resume_lt {is : List Nat} {s : FanOut F α} {i : Nat} {m : Member F α} (hi : i ∈ is)
    (h : s.members[i]? = some m) (hm : m.isOver = false) :
    (is.foldl resume s).movesLeft < s.movesLeft := by
  induction is generalizing s with
  | nil => simp at hi
  | cons j is ih =>
    by_cases hj : j = i
    · subst hj
      exact Nat.lt_of_le_of_lt (foldl_resume_le is _) (resume_lt h hm)
    · have hi' : i ∈ is := by simpa [Ne.symm hj] using hi
      exact Nat.lt_of_lt_of_le (ih hi' (by rw [members_resume_of_ne hj, h])) (resume_le s j)

theorem movesOf_eq_zero_iff {ms : List (Member F α)} :
    movesOf ms = 0 ↔ ∀ m ∈ ms, m.movesLeft = 0 := by
  induction ms with
  | nil => simp [movesOf]
  | cons m ms ih => rw [movesOf, Nat.add_eq_zero_iff, ih, List.forall_mem_cons]

theorem exists_unfinished {s : FanOut F α} (h : s.movesLeft ≠ 0) :
    ∃ (i : Nat) (m : Member F α), s.members[i]? = some m ∧ m.isOver = false := by
  have hnot : ¬∀ m ∈ s.members, m.movesLeft = 0 := fun hall => h (movesOf_eq_zero_iff.2 hall)
  simp only [Classical.not_forall] at hnot
  obtain ⟨m, hm, hne⟩ := hnot
  obtain ⟨i, hi⟩ := List.mem_iff_getElem?.1 hm
  exact ⟨i, m, hi, by simpa [Member.isOver] using hne⟩

theorem round_lt {s : FanOut F α} (h : s.movesLeft ≠ 0) : s.round.movesLeft < s.movesLeft := by
  obtain ⟨i, m, hi, hm⟩ := exists_unfinished h
  have hlt : i < s.members.length := (List.getElem?_eq_some_iff.1 hi).1
  exact foldl_resume_lt (List.mem_range.2 hlt) hi hm

/-- Round after round, until every member is over. -/
def drain (s : FanOut F α) : FanOut F α :=
  if h : s.movesLeft = 0 then s
  else
    have := round_lt h
    s.round.drain
termination_by s.movesLeft

/-- Runs activities at the same time, first-in first-out, and waits for all of them. -/
def gather (activities : List (Activity F α)) : Run F (List α) :=
  let s := (submit activities).drain
  { trace := s.trace, outcome := s.collect }

end FanOut

end DemandPlan
