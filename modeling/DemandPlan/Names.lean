/-!
# Lists of names

Names are compared by their code points. Three readings of a list of names are needed all over:
its names in ascending order, its names without repetition, and one key for the set of them.

* `Names.mem_sorted`, `Names.mem_distinct`: neither reading gains or loses a name.
* `Names.sorted_pairwise`, `Names.distinct_nodup`: the order and the absence of repetition.

A search through names ends because it sees a name at most once: `Names.unseen` counts what is
left, and `Names.unseen_lt` says that seeing one more name makes it less.
-/

namespace DemandPlan.Names

/-- The names in ascending order of code points; repeated names stay repeated. -/
def sorted (names : List String) : List String :=
  names.mergeSort fun a b => decide (a ≤ b)

/-- Each name once, where it first occurs. -/
def distinct (names : List String) : List String := names.eraseDups

/-- The names with a comma and a space between them. -/
def joined (names : List String) : String := ", ".intercalate names

/-- One key for a set of names: its members in ascending order, with a NUL between them. Order and
repetition in the list do not show. -/
def canonicalKey (names : List String) : String := "\x00".intercalate (sorted (distinct names))

theorem sorted_perm (names : List String) : (sorted names).Perm names :=
  List.mergeSort_perm names _

@[simp] theorem mem_sorted {a : String} {names : List String} : a ∈ sorted names ↔ a ∈ names :=
  (sorted_perm names).mem_iff

theorem sorted_pairwise (names : List String) : (sorted names).Pairwise (· ≤ ·) := by
  have h := @List.pairwise_mergeSort String (fun a b => decide (a ≤ b))
    (fun a b c hab hbc => by simpa using String.le_trans (by simpa using hab) (by simpa using hbc))
    (fun a b => by simpa using String.le_total a b) names
  simpa [sorted] using h

@[simp] theorem mem_distinct {a : String} {names : List String} :
    a ∈ distinct names ↔ a ∈ names := List.mem_eraseDups

theorem distinct_cons (a : String) (names : List String) :
    distinct (a :: names) = a :: distinct (names.filter fun b => !b == a) :=
  List.eraseDups_cons

theorem distinct_nodup (names : List String) : (distinct names).Nodup := by
  match names with
  | [] => simp [distinct]
  | a :: names =>
    have : (names.filter fun b => !b == a).length < (a :: names).length :=
      Nat.lt_succ_of_le (List.length_filter_le _ _)
    rw [distinct_cons, List.nodup_cons]
    exact ⟨by simp, distinct_nodup _⟩
termination_by names.length
decreasing_by exact this

/-! ## What a search has left to see -/

/-- How many of the names are not among the seen ones. -/
def unseen (names seen : List String) : Nat := names.countP fun n => !seen.contains n

theorem unseen_le {names seen seen' : List String} (h : ∀ a ∈ seen, a ∈ seen') :
    unseen names seen' ≤ unseen names seen := by
  refine List.countP_mono_left fun a _ ha => ?_
  simp only [List.contains_eq_mem, Bool.not_eq_eq_eq_not, Bool.not_true,
    decide_eq_false_iff_not] at ha ⊢
  exact fun h' => ha (h a h')

theorem unseen_lt {names seen seen' : List String} {a : String} (ha : a ∈ names)
    (hs : a ∉ seen) (hs' : a ∈ seen') (h : ∀ b ∈ seen, b ∈ seen') :
    unseen names seen' < unseen names seen := by
  induction names with
  | nil => simp at ha
  | cons n names ih =>
    have hle : unseen names seen' ≤ unseen names seen := unseen_le h
    simp only [unseen, List.countP_cons, List.contains_eq_mem] at hle ih ⊢
    rcases List.mem_cons.1 ha with rfl | ha
    · simp only [hs, hs', decide_true, decide_false, Bool.not_true, Bool.not_false, if_true,
        Bool.false_eq_true, if_false]
      omega
    · have := ih ha
      by_cases h' : n ∈ seen'
      · simp only [h', decide_true, Bool.not_true, Bool.false_eq_true, if_false]
        omega
      · have h'' : n ∉ seen := fun hn => h' (h n hn)
        simp only [h', h'', decide_false, Bool.not_false, if_true]
        omega

theorem unseen_cons_lt {names seen : List String} {a : String} (ha : a ∈ names) (hs : a ∉ seen) :
    unseen names (a :: seen) < unseen names seen :=
  unseen_lt ha hs List.mem_cons_self fun _ hb => List.mem_cons_of_mem _ hb

theorem unseen_snoc_lt {names seen : List String} {a : String} (ha : a ∈ names) (hs : a ∉ seen) :
    unseen names (seen ++ [a]) < unseen names seen :=
  unseen_lt ha hs (by simp) fun _ hb => by simp [hb]

end DemandPlan.Names
