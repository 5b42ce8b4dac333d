import DemandPlan.Proofs.Timeline
import Mathlib

/-!
# Every order joins

The loop may resume the members of a fan-out in any order. How far a member has come depends only on
how often it has been resumed itself, not on the others or on the order. So every order leads to the
same answer, and none is given before all members are over.

* `Resumes`: the orders in which the loop can resume the members; `Follows.resume`: one move.
* `Reading`: whose event each event of a trace is.
* `Joins`: where an order leads to.
* `gather_joins`: every order joins. The first-in first-out one shows its events sorted by round and
  place.
-/

namespace DemandPlan

variable {F α : Type}

/-! ## Whose events they are -/

/-- An event of a fan-out, the place of the member that it is of, and how often this member had been
resumed before. First-in first-out, that is the number of the round. -/
structure Mark where
  round : Nat
  place : Nat
  event : Event

/-- Sorted by round and, within a round, by place. -/
def Mark.Le (m m' : Mark) : Prop := m.round < m'.round ∨ m.round = m'.round ∧ m.place ≤ m'.place

/-- The events of a member that has been resumed some times: those before it first gives way, and
those after it has last given way. -/
def Activity.marks (a : Activity F α) (place turns : Nat) : List Mark :=
  (if 0 < turns then a.opening.map (Mark.mk 0 place) else []) ++
    if a.pauses < turns then a.closing.map (Mark.mk a.pauses place) else []

theorem Activity.marks_succ (a : Activity F α) (place turns : Nat) :
    a.marks place (turns + 1) =
      a.marks place turns ++ (a.eventsIn turns).map (Mark.mk turns place) := by
  rcases turns with _ | turns
  · cases hp : a.pauses <;> simp [marks, eventsIn, hp]
  · rcases Nat.lt_trichotomy (turns + 1) a.pauses with hlt | heq | hgt
    · simp [marks, eventsIn, Nat.ne_of_lt hlt, Nat.not_lt_of_lt hlt, Nat.not_lt.2 hlt]
    · simp [marks, eventsIn, ← heq]
    · simp [marks, eventsIn, Nat.ne_of_gt hgt, hgt, Nat.lt_succ_of_lt hgt]

namespace FanOut

/-- A reading of a trace: each event is of one member, and those of a member are the events of its
own run, in order, as far as it has come after some turns. -/
structure Reading (activities : List (Activity F α)) (turns : Nat → Nat) (trace : List Event)
    (log : List Mark) : Prop where
  trace_eq : trace = log.map Mark.event
  own : ∀ (place : Nat) (a : Activity F α), activities[place]? = some a →
    log.filter (fun m => m.place == place) = a.marks place (turns place)
  place_lt : ∀ m ∈ log, m.place < activities.length

/-! ## Any order -/

/-- The loop resumes members that are not over, in some order. -/
inductive Resumes (s : FanOut F α) : List Nat → FanOut F α → Prop
  | start : Resumes s [] s
  | resume {moves : List Nat} {s' : FanOut F α} {place : Nat} {m : Member F α} :
    Resumes s moves s' → s'.members[place]? = some m → m.isOver = false →
      Resumes s (moves ++ [place]) (s'.resume place)

/-- The answer, once every member is over. -/
def answer? (s : FanOut F α) : Option (Except F (List α)) :=
  if s.movesLeft = 0 then some s.collect else none

/-- How a fan-out stands after some moves. -/
structure Follows (activities : List (Activity F α)) (moves : List Nat) (s : FanOut F α) :
    Prop where
  member : ∀ place : Nat,
    s.members[place]? = activities[place]?.map (Member.after (moves.count place))
  reading : ∃ log, Reading activities (fun place => moves.count place) s.trace log

variable {activities : List (Activity F α)} {moves : List Nat} {s : FanOut F α} {place : Nat}
  {a : Activity F α}

theorem Follows.member_eq (h : Follows activities moves s) (ha : activities[place]? = some a) :
    s.members[place]? = some (Member.after (moves.count place) a) := by
  rw [h.member, ha, Option.map_some]

theorem Follows.exists_of_member (h : Follows activities moves s) {m : Member F α}
    (hm : s.members[place]? = some m) :
    ∃ a, activities[place]? = some a ∧ Member.after (moves.count place) a = m := by
  rw [h.member] at hm
  exact Option.map_eq_some_iff.1 hm

theorem isOver_after_eq_false_iff {turns : Nat} :
    (Member.after turns a).isOver = false ↔ turns ≤ a.pauses := by
  rw [Member.isOver, Member.movesLeft_after, beq_eq_false_iff_ne]
  omega

theorem follows_submit (activities : List (Activity F α)) :
    Follows activities [] (submit activities) where
  member place := by simp only [submit, List.getElem?_map]; rfl
  reading := ⟨[], rfl, fun _ _ _ => rfl, fun _ hm => absurd hm List.not_mem_nil⟩

theorem Reading.append {turns turns' : Nat → Nat} {trace : List Event} {log : List Mark}
    (h : Reading activities turns trace log) (ha : activities[place]? = some a)
    (hplace : turns' place = turns place + 1) (hother : ∀ i, i ≠ place → turns' i = turns i) :
    Reading activities turns' (trace ++ a.eventsIn (turns place))
      (log ++ (a.eventsIn (turns place)).map (Mark.mk (turns place) place)) where
  trace_eq := by simp [h.trace_eq, Function.comp_def]
  own i b hb := by
    rw [List.filter_append, h.own i b hb]
    by_cases hi : i = place
    · subst hi
      obtain rfl : a = b := Option.some.inj (ha.symm.trans hb)
      rw [hplace, Activity.marks_succ, List.filter_eq_self.2 (by simp)]
    · rw [hother i hi, List.filter_eq_nil_iff.2 (by simp [Ne.symm hi]), List.append_nil]
  place_lt m hm := by
    rcases List.mem_append.1 hm with hm | hm
    · exact h.place_lt m hm
    · obtain ⟨_, -, rfl⟩ := List.mem_map.1 hm
      exact (List.getElem?_eq_some_iff.1 ha).1

/-- **One move.** The member that is resumed shows its next events, the others stay as they are. -/
theorem Follows.resume (h : Follows activities moves s) (ha : activities[place]? = some a) :
    Follows activities (moves ++ [place]) (s.resume place) := by
  have hm := h.member_eq ha
  have hcount : (moves ++ [place]).count place = moves.count place + 1 := by simp
  have hother : ∀ i, i ≠ place → (moves ++ [place]).count i = moves.count i := fun i hi => by
    simp [Ne.symm hi]
  obtain ⟨log, hlog⟩ := h.reading
  refine ⟨fun i => ?_, ?_⟩
  · by_cases hi : i = place
    · subst hi
      simp [FanOut.resume, hm, ha, Member.step_after, List.getElem?_set_self']
    · rw [members_resume_of_ne (Ne.symm hi), h.member, hother i hi]
  · simp only [FanOut.resume, hm, Member.step_after]
    exact ⟨_, hlog.append ha hcount hother⟩

theorem Resumes.follows (h : Resumes (submit activities) moves s) :
    Follows activities moves s := by
  induction h with
  | start => exact follows_submit activities
  | resume _ hm _ ih =>
    obtain ⟨a, ha, -⟩ := ih.exists_of_member hm
    exact ih.resume ha

/-! ## When all is over -/

theorem Follows.over_iff (h : Follows activities moves s) : s.movesLeft = 0 ↔
    ∀ (place : Nat) (a : Activity F α), activities[place]? = some a →
      a.pauses < moves.count place := by
  rw [movesLeft, movesOf_eq_zero_iff]
  constructor
  · intro hall place a ha
    have h0 := hall _ (List.mem_of_getElem? (h.member_eq ha))
    rw [Member.movesLeft_after] at h0
    omega
  · intro hall m hm
    obtain ⟨place, hplace⟩ := List.mem_iff_getElem?.1 hm
    obtain ⟨a, ha, rfl⟩ := h.exists_of_member hplace
    have := hall place a ha
    rw [Member.movesLeft_after]
    omega

/-- Every move that the loop makes is one less to make. -/
theorem Resumes.length_add {s₀ : FanOut F α} (h : Resumes s₀ moves s) :
    moves.length + s.movesLeft = s₀.movesLeft := by
  induction h with
  | start => exact Nat.zero_add _
  | resume _ hm hover ih =>
    have hleft := movesLeft_resume hm
    rw [Member.isOver, beq_eq_false_iff_ne] at hover
    rw [List.length_append, List.length_singleton]
    omega

theorem movesLeft_submit (activities : List (Activity F α)) :
    (submit activities).movesLeft = (activities.map fun a => a.pauses + 1).sum := by
  rw [movesLeft, submit]
  induction activities with
  | nil => rfl
  | cons a activities ih => rw [List.map_cons, movesOf, ih, List.map_cons, List.sum_cons]; rfl

theorem Resumes.tracks (h : Resumes (submit activities) moves s) : Tracks activities s := by
  induction h with
  | start => exact tracks_submit activities
  | resume _ _ _ ih => exact ih.resume _

theorem Resumes.answer?_eq (h : Resumes (submit activities) moves s) (hs : s.movesLeft = 0) :
    s.answer? = some (activities.mapM Activity.outcome) := by
  rw [answer?, if_pos hs, h.tracks.collect_eq hs]

/-! ## First-in first-out -/

theorem resume_of_isOver {m : Member F α} (hm : s.members[place]? = some m) (hover : m.isOver) :
    s.resume place = s := by
  have hstep : m.step = (m, []) := by
    obtain ⟨a, _ | left | o⟩ := m <;> simp_all [Member.isOver, Member.movesLeft, Member.step]
  obtain ⟨hlt, hget⟩ := List.getElem?_eq_some_iff.1 hm
  simp only [resume, hm, hstep, List.append_nil]
  rw [← hget, List.set_getElem_self]

/-- Resuming members one after the other, whether they are over or not, is an order of moves. -/
theorem Resumes.foldl {s₀ : FanOut F α} (h : Resumes s₀ moves s) (is : List Nat) :
    ∃ moves', Resumes s₀ moves' (is.foldl FanOut.resume s) := by
  induction is generalizing moves s with
  | nil => exact ⟨moves, h⟩
  | cons i is ih =>
    cases hm : s.members[i]? with
    | none =>
      have hsame : s.resume i = s := by simp only [FanOut.resume, hm]
      rw [List.foldl_cons, hsame]
      exact ih h
    | some m =>
      cases hover : m.isOver with
      | false => exact ih (h.resume hm hover)
      | true =>
        rw [List.foldl_cons, resume_of_isOver hm hover]
        exact ih h

theorem Resumes.drain {s₀ : FanOut F α} (h : Resumes s₀ moves s) :
    ∃ moves', Resumes s₀ moves' s.drain := by
  fun_induction FanOut.drain s generalizing moves with
  | case1 => exact ⟨moves, h⟩
  | case2 s _ _ ih =>
    obtain ⟨moves', h'⟩ := h.foldl (List.range s.members.length)
    exact ih h'

/-- The events of one round, in order of submission. The first place is given. -/
def marksIn (activities : List (Activity F α)) (round first : Nat) : List Mark :=
  (activities.zipIdx first).flatMap fun p => (p.1.eventsIn round).map (Mark.mk round p.2)

/-- The events round by round, and within a round in order of submission. -/
def marks (activities : List (Activity F α)) : List Mark :=
  (List.range (rounds activities)).flatMap fun round => marksIn activities round 0

theorem marksIn_cons (a : Activity F α) (activities : List (Activity F α)) (round first : Nat) :
    marksIn (a :: activities) round first =
      (a.eventsIn round).map (Mark.mk round first) ++ marksIn activities round (first + 1) := by
  rw [marksIn, List.zipIdx_cons, List.flatMap_cons]
  rfl

variable {round first : Nat} {m : Mark}

theorem round_of_mem_marksIn (hm : m ∈ marksIn activities round first) : m.round = round := by
  obtain ⟨p, -, hm⟩ := List.mem_flatMap.1 hm
  obtain ⟨e, -, rfl⟩ := List.mem_map.1 hm
  rfl

theorem place_of_mem_marksIn (hm : m ∈ marksIn activities round first) :
    first ≤ m.place ∧ m.place < first + activities.length := by
  obtain ⟨⟨a, i⟩, hp, hm⟩ := List.mem_flatMap.1 hm
  obtain ⟨e, -, rfl⟩ := List.mem_map.1 hm
  exact ⟨List.le_snd_of_mem_zipIdx hp, Nat.add_comm _ first ▸ List.snd_lt_of_mem_zipIdx hp⟩

theorem map_event_marksIn (activities : List (Activity F α)) (round first : Nat) :
    (marksIn activities round first).map Mark.event = activities.flatMap (·.eventsIn round) := by
  induction activities generalizing first with
  | nil => rfl
  | cons a activities ih =>
    rw [marksIn_cons, List.map_append, ih, List.map_map, List.flatMap_cons]
    exact congrArg (· ++ _) (List.map_id _)

theorem pairwise_marksIn (activities : List (Activity F α)) (round first : Nat) :
    (marksIn activities round first).Pairwise Mark.Le := by
  induction activities generalizing first with
  | nil => exact .nil
  | cons a activities ih =>
    rw [marksIn_cons]
    refine List.pairwise_append.2 ⟨?_, ih (first + 1), fun m hm m' hm' => ?_⟩
    · exact List.pairwise_map.2 (List.pairwise_of_forall fun _ _ => .inr ⟨rfl, Nat.le_refl _⟩)
    · obtain ⟨e, -, rfl⟩ := List.mem_map.1 hm
      exact .inr ⟨(round_of_mem_marksIn hm').symm, Nat.le_of_lt (place_of_mem_marksIn hm').1⟩

theorem filter_marksIn (ha : activities[place]? = some a) (round first : Nat) :
    (marksIn activities round first).filter (fun m => m.place == first + place) =
      (a.eventsIn round).map (Mark.mk round (first + place)) := by
  induction activities generalizing first place with
  | nil => cases ha
  | cons b activities ih =>
    rw [marksIn_cons, List.filter_append]
    cases place with
    | zero =>
      obtain rfl : b = a := Option.some.inj ha
      have hrest : ∀ m ∈ marksIn activities round (first + 1), ¬m.place == first + 0 := by
        intro m hm
        have := (place_of_mem_marksIn hm).1
        simp only [beq_iff_eq]
        omega
      rw [List.filter_eq_nil_iff.2 hrest, List.append_nil, List.filter_eq_self.2 (by simp)]
      rfl
    | succ place =>
      have hshift : first + (place + 1) = first + 1 + place := by omega
      rw [List.filter_eq_nil_iff.2 (by simp), List.nil_append, hshift]
      exact ih ha (first + 1)

theorem flatMap_eventsIn (a : Activity F α) (place turns : Nat) :
    ((List.range turns).flatMap fun k => (a.eventsIn k).map (Mark.mk k place)) =
      a.marks place turns := by
  induction turns with
  | zero => simp [Activity.marks]
  | succ turns ih =>
    rw [List.range_succ, List.flatMap_append, ih, List.flatMap_singleton, Activity.marks_succ]

theorem pairwise_marks (activities : List (Activity F α)) :
    (marks activities).Pairwise Mark.Le := by
  refine List.pairwise_flatMap.2 ⟨fun k _ => pairwise_marksIn activities k 0, ?_⟩
  refine List.pairwise_lt_range.imp fun {k k'} hlt m hm m' hm' => .inl ?_
  rwa [round_of_mem_marksIn hm, round_of_mem_marksIn hm']

/-- The events of a fan-out, each with its round and its place. -/
theorem reading_gather (activities : List (Activity F α)) :
    Reading activities (fun _ => rounds activities) (gather activities).trace (marks activities) where
  trace_eq := by
    rw [gather_trace]
    simp only [timeline, marks, List.map_flatMap, map_event_marksIn]
  own place a ha := by
    have hround (k : Nat) := filter_marksIn ha k 0
    simp only [Nat.zero_add] at hround
    rw [marks, List.filter_flatMap]
    simp only [hround, flatMap_eventsIn]
  place_lt m hm := by
    obtain ⟨k, -, hm⟩ := List.mem_flatMap.1 hm
    simpa using (place_of_mem_marksIn hm).2

/-! ## Joining -/

theorem Resumes.count_le (h : Resumes (submit activities) moves s)
    (ha : activities[place]? = some a) : moves.count place ≤ a.pauses + 1 := by
  induction h with
  | start => exact Nat.zero_le _
  | @resume moves s i m h' hm hover ih =>
    rw [List.count_append]
    by_cases hi : i = place
    · subst hi
      obtain rfl := Option.some.inj (hm.symm.trans (h'.follows.member_eq ha))
      rw [List.count_singleton_self]
      exact Nat.succ_le_succ (isOver_after_eq_false_iff.1 hover)
    · rw [List.count_singleton, if_neg (by simpa using hi)]
      exact ih

/-- The failure of the call with the least place among those that fail. -/
def FirstFailure (activities : List (Activity F α)) (e : F) : Prop :=
  ∃ (place : Nat) (a : Activity F α), activities[place]? = some a ∧ a.outcome = .error e ∧
    ∀ earlier < place, ∀ b : Activity F α, activities[earlier]? = some b → ∃ v, b.outcome = .ok v

theorem mapM_outcome_eq_error_iff {e : F} :
    activities.mapM Activity.outcome = .error e ↔ FirstFailure activities e := by
  rw [Outcome.mapM_eq_error_iff]
  constructor
  · rintro ⟨a, hleft, he⟩
    obtain ⟨place, ha, hbefore⟩ := Outcome.leftmost_iff_getElem?.1 hleft
    exact ⟨place, a, ha, he, hbefore⟩
  · rintro ⟨place, a, ha, he, hbefore⟩
    exact ⟨a, Outcome.leftmost_iff_getElem?.2 ⟨place, ha, hbefore⟩, he⟩

/-- Where an order of moves leads to. -/
structure Joins (activities : List (Activity F α)) (moves : List Nat) (s : FanOut F α) : Prop
    extends Follows activities moves s where
  /-- There are no endless orders. -/
  length_add : moves.length + s.movesLeft = (activities.map fun a => a.pauses + 1).sum
  /-- No call goes on after its end. -/
  count_le : ∀ (place : Nat) (a : Activity F α), activities[place]? = some a →
    moves.count place ≤ a.pauses + 1
  /-- A call that is not over can be resumed, and there is no answer without it. -/
  pending : ∀ (place : Nat) (a : Activity F α), activities[place]? = some a →
    moves.count place ≤ a.pauses →
      s.answer? = none ∧ Resumes (submit activities) (moves ++ [place]) (s.resume place)
  /-- When all calls are over, there is an answer: all values, or the first failure. -/
  answer : (∀ (place : Nat) (a : Activity F α), activities[place]? = some a →
      a.pauses < moves.count place) → ∃ x, s.answer? = some x ∧
    (∀ vs, x = .ok vs ↔ List.Forall₂ (fun a v => a.outcome = .ok v) activities vs) ∧
    ∀ e, x = .error e ↔ FirstFailure activities e

theorem Resumes.joins (h : Resumes (submit activities) moves s) : Joins activities moves s where
  toFollows := h.follows
  length_add := h.length_add.trans (movesLeft_submit activities)
  count_le _ _ ha := h.count_le ha
  pending place a ha hle := by
    refine ⟨if_neg fun hs => Nat.not_lt.2 hle (h.follows.over_iff.1 hs place a ha), ?_⟩
    exact h.resume (h.follows.member_eq ha) (isOver_after_eq_false_iff.2 hle)
  answer hall := by
    refine ⟨_, h.answer?_eq (h.follows.over_iff.2 hall), fun vs => ?_, fun e => ?_⟩
    · exact Outcome.mapM_eq_ok_iff
    · exact mapM_outcome_eq_error_iff

theorem Reading.congr {turns turns' : Nat → Nat} {trace : List Event} {log : List Mark}
    (h : Reading activities turns trace log)
    (hturns : ∀ (place : Nat) (a : Activity F α), activities[place]? = some a →
      a.pauses < turns place ∧ a.pauses < turns' place) :
    Reading activities turns' trace log :=
  { h with
    own := fun place a ha => by
      obtain ⟨hlt, hlt'⟩ := hturns place a ha
      simp [h.own place a ha, Activity.marks, hlt, hlt', Nat.zero_lt_of_lt hlt,
        Nat.zero_lt_of_lt hlt'] }

/-- **Every order joins.** Each call is run once and to its end, and the answer is that of the
outcomes in order of submission, whatever the order of moves. First-in first-out, the events are
sorted by round and place. -/
theorem gather_joins (activities : List (Activity F α)) :
    (∀ moves s, Resumes (submit activities) moves s → Joins activities moves s) ∧
    ∃ moves s log, Resumes (submit activities) moves s ∧
      gather activities = { trace := s.trace, outcome := s.collect } ∧
      s.answer? = some (gather activities).outcome ∧
      Reading activities (fun place => moves.count place) s.trace log ∧ log.Pairwise Mark.Le := by
  refine ⟨fun moves s h => h.joins, ?_⟩
  obtain ⟨moves, h⟩ := (Resumes.start (s := submit activities)).drain
  have hover := h.follows.over_iff.1 (movesLeft_drain _)
  refine ⟨moves, _, marks activities, h, rfl, if_pos (movesLeft_drain _), ?_,
    pairwise_marks activities⟩
  refine (reading_gather activities).congr fun place a ha => ⟨?_, hover place a ha⟩
  exact rounds_le_iff.1 (Nat.le_refl _) a (List.mem_of_getElem? ha)

/-- Three calls, of which two fail. -/
def threeCalls : List (Activity String Nat) :=
  [{ opening := [.start "slow"], pauses := 2, closing := [.fail "slow"], outcome := .error "late" },
    { opening := [.start "quick"], closing := [.fail "quick"], outcome := .error "early" },
    { opening := [.start "other"], pauses := 1, closing := [.finish "other"], outcome := .ok 7 }]

/-- The call that has failed first does not decide on the answer. -/
theorem gather_joins_of_late_failure :
    ∃ s, Resumes (submit threeCalls) [1, 2, 0, 0, 2, 0] s ∧ s.answer? = some (.error "late") ∧
      s.trace = [.start "quick", .fail "quick", .start "other", .start "slow", .finish "other",
        .fail "slow"] := by
  have h : Resumes (submit threeCalls) ([] ++ [1] ++ [2] ++ [0] ++ [0] ++ [2] ++ [0]) _ :=
    .resume (.resume (.resume (.resume (.resume (.resume .start rfl rfl) rfl rfl) rfl rfl) rfl rfl)
      rfl rfl) rfl rfl
  refine ⟨_, h, ?_, rfl⟩
  have hall : ∀ (place : Nat) (a : Activity String Nat), threeCalls[place]? = some a →
      a.pauses < [1, 2, 0, 0, 2, 0].count place := by
    intro place a ha
    rcases place with _ | _ | _ | place
    · cases ha; decide
    · cases ha; decide
    · cases ha; decide
    · cases ha
  obtain ⟨x, hx, -, herror⟩ := ((gather_joins threeCalls).1 _ _ h).answer hall
  have hfirst : FirstFailure threeCalls "late" :=
    ⟨0, _, rfl, rfl, fun _ hj => absurd hj (Nat.not_lt_zero _)⟩
  rw [hx, (herror "late").2 hfirst]

end FanOut

end DemandPlan
