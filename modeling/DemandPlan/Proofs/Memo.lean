import DemandPlan.Proofs.Coherence
import Mathlib

/-!
# Memos over time

A memo is asked one query after the other and is cleared now and then. What it holds are the last
insertions since it was cleared, as many as it has room for: a query is answered without computing
just in case its last answer is still among these. Asking does not make an answer younger.

* `Memo.log`: the insertions since the memo was last cleared.
* `Memo.Window`: a memo that holds the end of its log; `Window.perform` is one request and
  `Window.after` are any.
* `Memo.Gives`: what comes of a query.
* `Window.lifetime`: how long an answer is remembered.
* `bounded_fifo`: what a memo holds and answers after any requests, and how long it remembers.
-/

namespace DemandPlan.Memo

/-! ## Requests -/

/-- What a memo is asked. -/
inductive Request (ε α : Type)
  /-- An answer to a query, and what comes of computing it. -/
  | get (wanted hints : List String) (outcome : Except ε α)
  | clear

/-- What it answers. -/
inductive Answer (ε α : Type)
  /-- Nothing has been computed. -/
  | remembered (a : α)
  | computed (a : α)
  | failed (e : ε)
  | noRoom
  | cleared

variable {ε α : Type}

/-- The answer when something is computed. -/
def Answer.ofOutcome : Except ε α → Answer ε α
  | .ok a => .computed a
  | .error e => .failed e

/-- A computation that is counted. -/
def counted (outcome : Except ε α) : ExceptT ε (StateM Nat) α :=
  ExceptT.mk fun n => (outcome, n + 1)

/-- The answer to a request, and the memo after it. -/
def perform (m : Memo α) : Request ε α → Answer ε α × Memo α
  | .get wanted hints outcome =>
    match (m.getOrCompute wanted hints (counted outcome)).run.run 0 with
    | (.ok (some a, m'), 0) => (.remembered a, m')
    | (.ok (some a, m'), _) => (.computed a, m')
    | (.ok (none, m'), _) => (.noRoom, m')
    | (.error e, _) => (.failed e, m)
  | .clear => (.cleared, m.clear)

/-- The memo after some requests. -/
def after (m : Memo α) (requests : List (Request ε α)) : Memo α :=
  requests.foldl (fun m q => (m.perform q).2) m

/-- An answer that was computed for a query. -/
structure Insertion (α : Type) where
  wanted : List String
  hints : List String
  value : α

/-- What a memo knows the answer by. -/
def Insertion.key (i : Insertion α) : Key := .of i.wanted i.hints

/-- How a memo holds the answer. -/
def Insertion.entry (i : Insertion α) : Key × α := (i.key, i.value)

/-- The insertion that a request makes, if its answer is a computed one. -/
def inserted (m : Memo α) : Request ε α → List (Insertion α)
  | .get wanted hints outcome =>
    match (m.perform (.get wanted hints outcome)).1 with
    | .computed value => [{ wanted, hints, value }]
    | _ => []
  | .clear => []

/-- The insertions that some requests make, one after the other. -/
def insertions (m : Memo α) : List (Request ε α) → List (Insertion α)
  | [] => []
  | q :: requests => m.inserted q ++ (m.perform q).2.insertions requests

/-- The log after a request: clearing begins a new one. -/
def logged (m : Memo α) (l : List (Insertion α)) (q : Request ε α) : List (Insertion α) :=
  match q with
  | .get .. => l ++ m.inserted q
  | .clear => []

/-- The insertions since the memo was last cleared, the oldest first. -/
def log (m : Memo α) (l : List (Insertion α)) : List (Request ε α) → List (Insertion α)
  | [] => l
  | q :: requests => (m.perform q).2.log (m.logged l q) requests

/-- There is an answer to a query in the log, and fewer than `n` insertions have been made since. -/
def Recent (n : Nat) (l : List (Insertion α)) (wanted hints : List String) (a : α) : Prop :=
  ∃ p i, l[p]? = some i ∧ i.wanted = wanted ∧ (∀ k, k ∈ i.hints ↔ k ∈ hints) ∧ i.value = a ∧
    l.length - (p + 1) < n

variable {m : Memo α} {l : List (Insertion α)} {i : Insertion α} {wanted hints : List String}
  {outcome : Except ε α} {a : α} {e : ε} {n p : Nat}

/-! ## One query -/

theorem perform_get_of_zero (hc : m.capacity = 0) :
    m.perform (.get wanted hints outcome) = (.ofOutcome outcome, m) := by
  rw [perform, getOrCompute, if_pos hc]
  cases outcome <;> rfl

theorem perform_get_of_find? (hc : m.capacity ≠ 0) (hf : m.find? (.of wanted hints) = some a) :
    m.perform (.get wanted hints outcome) = (.remembered a, m) := by
  simp only [perform, getOrCompute, if_neg hc, hf]
  rfl

theorem perform_get_error (hc : 0 < m.capacity) (hf : m.find? (.of wanted hints) = none) :
    m.perform (.get wanted hints (.error e)) = (.failed e, m) := by
  simp only [perform, getOrCompute, if_neg hc.ne', hf]
  rfl

theorem remember_of_pos (hc : 0 < m.capacity) (key : Key) (a : α) : m.remember key a =
    some { m with entries := m.entries.drop (m.size + 1 - m.capacity.toNat) ++ [(key, a)] } :=
  if_neg hc.not_ge

theorem perform_get_ok (hc : 0 < m.capacity) (hf : m.find? (.of wanted hints) = none) :
    m.perform (.get wanted hints (.ok a) : Request ε α) = (.computed a, { m with
      entries := m.entries.drop (m.size + 1 - m.capacity.toNat) ++ [(.of wanted hints, a)] }) := by
  have hrun : (m.getOrCompute wanted hints (counted (.ok a : Except ε α))).run.run 0 =
      (.ok (some a, { m with
        entries := m.entries.drop (m.size + 1 - m.capacity.toNat) ++ [(.of wanted hints, a)] }),
        1) := by
    simp only [getOrCompute, if_neg hc.ne', hf, remember_of_pos hc]
    rfl
  simp only [perform, hrun]

/-! ## The window of the last insertions -/

/-- Between two insertions for the same query there are at least `n` others. -/
def Spaced (n : Nat) (l : List (Insertion α)) : Prop :=
  ∀ p q i j, p < q → l[p]? = some i → l[q]? = some j → i.key = j.key → p + n < q

/-- A memo that holds the last `n` insertions of its log. -/
structure Window (n : Nat) (l : List (Insertion α)) (m : Memo α) : Prop where
  capacity : m.capacity = n
  entries : m.entries = (l.drop (l.length - n)).map Insertion.entry
  spaced : Spaced n l

theorem window_empty (n : Nat) : Window n [] ({ capacity := n } : Memo α) where
  capacity := rfl
  entries := by simp
  spaced _ _ _ _ _ h := by simp at h

theorem recent_iff : Recent n l wanted hints a ↔ ∃ p i, l[p]? = some i ∧ i.key = .of wanted hints ∧
    i.value = a ∧ l.length - (p + 1) < n := by
  simp only [Recent, Insertion.key, Key.of_eq_iff, and_assoc]

/-- What comes of a query: a recent answer if there is one, or else what is computed. A computed
answer takes the place of the oldest one, if there is no other place. -/
inductive Gives (n : Nat) (l : List (Insertion α)) (m : Memo α) (wanted hints : List String) :
    Except ε α → Answer ε α × Memo α → Prop
  | remembered {outcome : Except ε α} {a : α} : Recent n l wanted hints a →
    Gives n l m wanted hints outcome (.remembered a, m)
  | failed {e : ε} : (∀ a, ¬Recent n l wanted hints a) →
    Gives n l m wanted hints (.error e) (.failed e, m)
  | computed {a : α} {m' : Memo α} : (∀ b, ¬Recent n l wanted hints b) →
    Window n (l ++ [⟨wanted, hints, a⟩]) m' →
    m'.entries = (m.entries ++ [(Key.of wanted hints, a)]).drop (m.size + 1 - n) →
    Gives n l m wanted hints (.ok a) (.computed a, m')

namespace Window

theorem size (h : Window n l m) : m.size = l.length - (l.length - n) := by
  rw [Memo.size, h.entries, List.length_map, List.length_drop]

theorem size_le (h : Window n l m) : m.size ≤ n := by
  rw [h.size]
  omega

theorem mem_entries_iff (h : Window n l m) {x : Key × α} :
    x ∈ m.entries ↔ ∃ p i, l[p]? = some i ∧ i.entry = x ∧ l.length - (p + 1) < n := by
  rw [h.entries, List.mem_map]
  constructor
  · rintro ⟨i, hi, hx⟩
    obtain ⟨p, hp⟩ := List.mem_iff_getElem?.1 hi
    rw [List.getElem?_drop] at hp
    have := (List.getElem?_eq_some_iff.1 hp).1
    exact ⟨_, i, hp, hx, by omega⟩
  · rintro ⟨p, i, hi, hx, hp⟩
    have := (List.getElem?_eq_some_iff.1 hi).1
    refine ⟨i, List.mem_iff_getElem?.2 ⟨p - (l.length - n), ?_⟩, hx⟩
    rw [List.getElem?_drop, ← hi]
    congr 1
    omega

theorem key_of_find? {key : Key} {x : Key × α}
    (h : m.entries.find? (fun e => e.1 = key) = some x) : x.1 = key := by
  simpa using List.find?_some h

/-- **What is found** is the answer that was inserted for the query, if it is recent. -/
theorem find?_eq_some_iff (h : Window n l m) :
    m.find? (.of wanted hints) = some a ↔ Recent n l wanted hints a := by
  rw [recent_iff]
  constructor
  · intro hf
    obtain ⟨x, hx, rfl⟩ := Option.map_eq_some_iff.1 hf
    obtain ⟨p, i, hi, rfl, hp⟩ := h.mem_entries_iff.1 (List.mem_of_find?_eq_some hx)
    exact ⟨p, i, hi, key_of_find? hx, rfl, hp⟩
  · rintro ⟨p, i, hi, hkey, rfl, hp⟩
    have hmem := h.mem_entries_iff.2 ⟨p, i, hi, rfl, hp⟩
    cases hx : m.entries.find? fun x => x.1 = .of wanted hints with
    | none => exact absurd (List.find?_eq_none.1 hx _ hmem) (by simp [Insertion.entry, hkey])
    | some x =>
      obtain ⟨q, j, hj, rfl, hq⟩ := h.mem_entries_iff.1 (List.mem_of_find?_eq_some hx)
      have hkey' : j.key = .of wanted hints := key_of_find? hx
      have hlt := (List.getElem?_eq_some_iff.1 hi).1
      have hlt' := (List.getElem?_eq_some_iff.1 hj).1
      -- Two recent insertions for one query would be too close to each other.
      have hle := h.spaced p q i j
      have hge := h.spaced q p j i
      obtain rfl : p = q := by grind
      obtain rfl : i = j := Option.some.inj (hi.symm.trans hj)
      rw [find?, hx]
      rfl

theorem find?_eq_none_iff (h : Window n l m) :
    m.find? (.of wanted hints) = none ↔ ∀ a, ¬Recent n l wanted hints a := by
  rw [Option.eq_none_iff_forall_not_mem]
  exact forall_congr' fun a => not_congr h.find?_eq_some_iff

/-! ## One request -/

theorem get_of_recent (h : Window n l m) (hr : Recent n l wanted hints a) :
    m.perform (.get wanted hints outcome) = (.remembered a, m) := by
  refine perform_get_of_find? ?_ (h.find?_eq_some_iff.2 hr)
  obtain ⟨p, i, -, -, -, -, hp⟩ := hr
  rw [h.capacity]
  omega

theorem get_error (h : Window n l m) (hr : ∀ a, ¬Recent n l wanted hints a) :
    m.perform (.get wanted hints (.error e) : Request ε α) = (.failed e, m) := by
  rcases Nat.eq_zero_or_pos n with rfl | hn
  · exact perform_get_of_zero h.capacity
  · refine perform_get_error ?_ (h.find?_eq_none_iff.2 hr)
    rw [h.capacity]
    omega

theorem get_ok (h : Window n l m) (hr : ∀ a, ¬Recent n l wanted hints a) :
    ∃ m', m.perform (.get wanted hints (.ok a) : Request ε α) = (.computed a, m') ∧
      Window n (l ++ [⟨wanted, hints, a⟩]) m' ∧
      m'.entries = (m.entries ++ [(Key.of wanted hints, a)]).drop (m.size + 1 - n) := by
  have hspaced : Spaced n (l ++ [⟨wanted, hints, a⟩]) := by
    intro p q i j hlt hp hq hkey
    rw [List.getElem?_append] at hp hq
    split at hq
    · rw [if_pos (by omega)] at hp
      exact h.spaced p q i j hlt hp hq hkey
    · have hq' := (List.getElem?_eq_some_iff.1 hq).1
      rw [List.length_singleton] at hq'
      rw [if_pos (by omega)] at hp
      rw [show q - l.length = 0 by omega] at hq
      obtain rfl := Option.some.inj hq
      -- The new insertion is the only one that could be too close to another one, and then that one
      -- would be recent.
      by_contra hclose
      exact hr i.value (recent_iff.2 ⟨p, i, hp, hkey, rfl, by omega⟩)
  have hsize := h.size
  rcases Nat.eq_zero_or_pos n with rfl | hn
  · -- Without room nothing is kept, and the window is empty before and after.
    refine ⟨m, perform_get_of_zero h.capacity, ⟨h.capacity, ?_, hspaced⟩, ?_⟩
    · rw [h.entries, List.drop_of_length_le (by omega), List.drop_of_length_le (by omega)]
    · rw [h.entries, List.drop_of_length_le (by omega), List.drop_of_length_le (by simp)]
      rfl
  · -- With room for `n` answers, the oldest one goes when there are `n` already.
    have hcapacity : 0 < m.capacity := by
      rw [h.capacity]
      omega
    refine ⟨_, perform_get_ok hcapacity (h.find?_eq_none_iff.2 hr), ⟨h.capacity, ?_, hspaced⟩, ?_⟩
    · rw [h.capacity, Int.toNat_natCast, h.entries, ← List.map_drop, List.drop_drop,
        List.length_append, List.length_singleton, List.drop_append_of_le_length (by omega),
        List.map_append, hsize, show l.length - n + (l.length - (l.length - n) + 1 - n) =
          l.length + 1 - n by omega]
      rfl
    · rw [h.capacity, Int.toNat_natCast, List.drop_append_of_le_length]
      rw [Memo.size]
      omega

/-- **One query.** -/
theorem gives (h : Window n l m) (wanted hints : List String) (outcome : Except ε α) :
    Gives n l m wanted hints outcome (m.perform (.get wanted hints outcome)) := by
  by_cases hr : ∃ a, Recent n l wanted hints a
  · obtain ⟨a, hr⟩ := hr
    exact h.get_of_recent hr ▸ .remembered hr
  · rw [not_exists] at hr
    cases outcome with
    | error e => exact h.get_error hr ▸ .failed hr
    | ok a =>
      obtain ⟨m', hm', hwindow, hentries⟩ := h.get_ok (ε := ε) (a := a) hr
      exact hm' ▸ .computed hr hwindow hentries

/-- **One request.** A memo keeps holding the end of its log. -/
theorem perform (h : Window n l m) (q : Request ε α) :
    Window n (m.logged l q) (m.perform q).2 := by
  cases q with
  | clear => exact ⟨h.capacity, by simp [logged, Memo.perform, clear], by simp [logged, Spaced]⟩
  | get wanted hints outcome =>
    have hg := h.gives wanted hints outcome
    rw [logged, inserted]
    generalize m.perform (.get wanted hints outcome) = x at hg ⊢
    cases hg with
    | remembered | failed => simpa only [List.append_nil] using h
    | computed _ hwindow => exact hwindow

/-- **Any requests.** -/
theorem after (h : Window n l m) (requests : List (Request ε α)) :
    Window n (m.log l requests) (m.after requests) := by
  induction requests generalizing l m with
  | nil => exact h
  | cons q requests ih => exact ih (h.perform q)

theorem remembered_iff (h : Window n l m) :
    (m.perform (.get wanted hints outcome)).1 = .remembered a ↔ Recent n l wanted hints a := by
  refine ⟨fun hx => ?_, fun hr => by rw [h.get_of_recent hr]⟩
  have hg := h.gives wanted hints outcome
  generalize m.perform (.get wanted hints outcome) = x at hg hx
  cases hg with
  | remembered hr =>
    cases hx
    exact hr
  | failed | computed => cases hx

theorem get_of_not_recent (h : Window n l m) (hr : ∀ a, ¬Recent n l wanted hints a) :
    (m.perform (.get wanted hints outcome)).1 = .ofOutcome outcome := by
  have hg := h.gives wanted hints outcome
  generalize m.perform (.get wanted hints outcome) = x at hg ⊢
  cases hg with
  | remembered hr' => exact absurd hr' (hr _)
  | failed | computed => rfl

end Window

/-! ## How long an answer is remembered -/

theorem Recent.congr {hints' : List String} (h : ∀ k, k ∈ hints' ↔ k ∈ hints)
    (hr : Recent n l wanted hints a) : Recent n l wanted hints' a := by
  obtain ⟨p, i, hi, hw, hh, ha, hp⟩ := hr
  exact ⟨p, i, hi, hw, fun k => (hh k).trans (h k).symm, ha, hp⟩

theorem log_of_not_cleared {requests : List (Request ε α)} (h : .clear ∉ requests) :
    m.log l requests = l ++ m.insertions requests := by
  induction requests generalizing l m with
  | nil => simp [log, insertions]
  | cons q requests ih =>
    rw [List.mem_cons, not_or] at h
    rw [log, insertions, ih h.2, ← List.append_assoc]
    cases q with
    | get wanted hints outcome => rfl
    | clear => exact absurd rfl h.1

variable {further : List (Insertion α)}

/-- An answer is recent as long as fewer than `n` insertions have been made after its own. -/
theorem recent_append (h : further.length < n) :
    Recent n (l ++ [⟨wanted, hints, a⟩] ++ further) wanted hints a := by
  refine ⟨l.length, ⟨wanted, hints, a⟩, by simp, rfl, fun _ => Iff.rfl, rfl, ?_⟩
  simp only [List.length_append, List.length_singleton]
  omega

/-- Just after `n` further insertions it is not, and none of these was for the same query. -/
theorem not_recent_append (hs : Spaced n (l ++ [⟨wanted, hints, a⟩] ++ further))
    (h : further.length = n) (b : α) :
    ¬Recent n (l ++ [⟨wanted, hints, a⟩] ++ further) wanted hints b := by
  rw [recent_iff]
  rintro ⟨p, i, hi, hkey, -, hp⟩
  have hlt := (List.getElem?_eq_some_iff.1 hi).1
  simp only [List.length_append, List.length_singleton] at hp hlt
  have := hs l.length p ⟨wanted, hints, a⟩ i (by omega) (by simp) hi hkey.symm
  omega

/-- **The life of an answer** ends with the `n`-th insertion after its own, however often it is
asked for until then. -/
theorem Window.lifetime {hints' : List String} {later : List (Request ε α)}
    (h : Window n (l ++ [⟨wanted, hints, a⟩]) m) (hclear : .clear ∉ later)
    (hsame : ∀ k, k ∈ hints' ↔ k ∈ hints) :
    let y := ((m.after later).perform (.get wanted hints' outcome)).1
    ((m.insertions later).length < n → y = .remembered a) ∧
      ((m.insertions later).length = n → y = .ofOutcome outcome) := by
  have hlater := h.after later
  rw [log_of_not_cleared hclear] at hlater
  refine ⟨fun hlt => ?_, fun heq => hlater.get_of_not_recent fun b hb => ?_⟩
  · exact hlater.remembered_iff.2 ((recent_append hlt).congr hsame)
  · exact not_recent_append hlater.spaced heq b (hb.congr fun k => (hsame k).symm)

/-- **Bounded memos.** After any requests, a memo with room for `n` answers holds the last `n`
insertions since it was cleared, the oldest first. A query is answered by one of them just in case
it wants the same names and has the same hints, and otherwise by computing. Only a computed answer
changes the memo: it comes last, and if there is no room the oldest one goes. A computed answer is
remembered until exactly `n` further insertions have been made, however often it is asked for. -/
theorem bounded_fifo (n : Nat) (before : List (Request ε α)) :
    let start : Memo α := { capacity := n }
    let m := start.after before
    let l := start.log [] before
    (m.size ≤ n ∧ m.entries = (l.drop (l.length - n)).map Insertion.entry ∧
      (m.perform (.clear : Request ε α)).2 = start) ∧
    (∀ wanted hints (outcome : Except ε α),
      let x := m.perform (.get wanted hints outcome)
      (∀ a, x.1 = .remembered a ↔ Recent n l wanted hints a) ∧
      ((∃ a, x.1 = .remembered a) ∨ x.1 = .ofOutcome outcome) ∧
      ((∀ a, x.1 ≠ .computed a) → x.2 = m) ∧
      ∀ a, x.1 = .computed a →
        x.2.entries = (m.entries ++ [(Key.of wanted hints, a)]).drop (m.size + 1 - n)) ∧
    ∀ wanted hints a (later : List (Request ε α)),
      let x := m.perform (.get wanted hints (.ok a) : Request ε α)
      x.1 = .computed a → .clear ∉ later →
      ∀ hints' (outcome : Except ε α), (∀ k, k ∈ hints' ↔ k ∈ hints) →
        let y := ((x.2.after later).perform (.get wanted hints' outcome)).1
        ((x.2.insertions later).length < n → y = .remembered a) ∧
        ((x.2.insertions later).length = n → y = .ofOutcome outcome) := by
  intro start m l
  have h : Window n l m := (window_empty n).after before
  refine ⟨⟨h.size_le, h.entries, ?_⟩, fun wanted hints outcome => ?_, ?_⟩
  · simp only [perform, clear, start, ← h.capacity]
  · intro x
    refine ⟨fun a => h.remembered_iff, ?_⟩
    have hg : Gives n l m wanted hints outcome x := h.gives wanted hints outcome
    clear_value x
    cases hg with
    | remembered => exact ⟨.inl ⟨_, rfl⟩, fun _ => rfl, fun b hb => by cases hb⟩
    | failed => exact ⟨.inr rfl, fun _ => rfl, fun b hb => by cases hb⟩
    | computed _ _ hentries =>
      refine ⟨.inr rfl, fun hnot => absurd rfl (hnot _), fun b hb => ?_⟩
      cases hb
      exact hentries
  · intro wanted hints a later x hx hclear hints' outcome hsame
    have hg : Gives n l m wanted hints (.ok a : Except ε α) x := h.gives wanted hints _
    clear_value x
    cases hg with
    | remembered => cases hx
    | computed _ hwindow => exact hwindow.lifetime hclear hsame

/-- The theorem at a memo with room for two answers, one of which is asked for again with its hints
in another order while others come in. -/
theorem bounded_fifo_of_two :
    let before : List (Request Unit Nat) := [.get ["a"] [] (.ok 1)]
    let later : List (Request Unit Nat) := [.get ["b"] ["y", "x", "y"] (.ok 7),
      .get ["c"] [] (.error ()), .get ["d"] [] (.ok 3)]
    let m := ({ capacity := 2 } : Memo Nat).after before
    let x := m.perform (.get ["b"] ["x", "y"] (.ok 2) : Request Unit Nat)
    let again : Request Unit Nat := .get ["b"] ["y", "x"] (.ok 8)
    x.1 = .computed 2 ∧ ((x.2.after later).perform again).1 = .remembered 2 ∧
      ((x.2.after (later ++ [.get ["e"] [] (.ok 4)])).perform again).1 = .computed 8 := by
  intro before later m x again
  have hcomputed : x.1 = .computed 2 := by
    unfold x m before
    cbv
  have hone : (x.2.insertions later).length = 1 := by
    unfold x m before later
    cbv
  have htwo : (x.2.insertions (later ++ [.get ["e"] [] (.ok 4)])).length = 2 := by
    unfold x m before later
    cbv
  have hsame : ∀ k, k ∈ ["y", "x"] ↔ k ∈ ["x", "y"] := fun k => by simp [or_comm]
  obtain ⟨-, -, hlife⟩ := bounded_fifo 2 before
  obtain ⟨hkept, -⟩ := hlife ["b"] ["x", "y"] 2 later hcomputed (by simp [later]) ["y", "x"]
    (.ok 8) hsame
  obtain ⟨-, hgone⟩ := hlife ["b"] ["x", "y"] 2 (later ++ [.get ["e"] [] (.ok 4)]) hcomputed
    (by simp [later]) ["y", "x"] (.ok 8) hsame
  have hlt : (x.2.insertions later).length < 2 := by
    rw [hone]
    decide
  exact ⟨hcomputed, hkept hlt, hgone htwo⟩

end DemandPlan.Memo
