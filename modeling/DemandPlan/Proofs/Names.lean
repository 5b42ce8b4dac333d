import DemandPlan.Names
import Mathlib.Data.List.Nodup

/-!
# Sets of names

Two readings of a list of names forget something: `Names.sorted` the order, `Names.distinct` the
repetitions. What is left is the set of names.

* `sorted_congr`: lists with the same names, each once, have the same ascending reading.
* `canonicalKey_eq_iff_of_nulFree`: the key of a list says which names are in it, as long as no name
  contains the NUL that the key puts between names; but the empty list has the key of an empty name.
* `canonicalKey_eq_iff`: so the keys of plain names, which are not empty either, tell them all.
-/

namespace DemandPlan.Names

/-! ## Distinct names -/

theorem distinct_eq_self {names : List String} (h : names.Nodup) : distinct names = names := by
  induction names with
  | nil => rfl
  | cons a names ih =>
    obtain ⟨ha, hn⟩ := List.nodup_cons.1 h
    have hf : (names.filter fun b => !b == a) = names := by
      rw [List.filter_eq_self]
      intro b hb
      have : b ≠ a := fun e => ha (e ▸ hb)
      simpa using this
    rw [distinct_cons, hf, ih hn]

/-- A name at the end counts only if it has not occurred before. -/
theorem distinct_snoc (names : List String) (a : String) :
    distinct (names ++ [a]) = if a ∈ names then distinct names else distinct names ++ [a] := by
  unfold distinct
  rw [List.eraseDups_append]
  split
  · next h => simp [List.removeAll, h]
  · next h => simp [List.removeAll, h, List.eraseDups_cons]

/-- Of two lists, the first one comes first. -/
theorem filter_distinct_append (names names' : List String) :
    (distinct (names ++ names')).filter (fun n => decide (n ∈ names)) = distinct names := by
  unfold distinct
  rw [List.eraseDups_append, List.filter_append, List.filter_eq_self.2, List.filter_eq_nil_iff.2,
    List.append_nil]
  · intro n hn
    simpa [List.removeAll] using (List.mem_filter.1 (List.mem_eraseDups.1 hn)).2
  · intro n hn
    simpa using hn

/-! ## Ascending names -/

/-- There is one ascending list without repetition for a set of names. -/
theorem eq_of_ascending {a b : List String} (ha : a.Nodup) (hb : b.Nodup)
    (ha' : a.Pairwise (· ≤ ·)) (hb' : b.Pairwise (· ≤ ·)) (h : ∀ n, n ∈ a ↔ n ∈ b) : a = b :=
  List.Perm.eq_of_pairwise (fun _ _ _ _ => String.le_antisymm) ha' hb'
    ((List.perm_ext_iff_of_nodup ha hb).2 h)

theorem pairwise_lt {names : List String} (h : names.Nodup) (h' : names.Pairwise (· ≤ ·)) :
    names.Pairwise (· < ·) :=
  (h'.and h).imp fun ⟨hle, hne⟩ => String.not_le.1 fun hge => hne (String.le_antisymm hle hge)

theorem sorted_eq_nil_iff {names : List String} : sorted names = [] ↔ names = [] := by
  rw [← List.isEmpty_iff, (sorted_perm names).isEmpty_eq, List.isEmpty_iff]

theorem sorted_nodup {names : List String} (h : names.Nodup) : (sorted names).Nodup :=
  (sorted_perm names).nodup_iff.2 h

theorem sorted_congr {a b : List String} (ha : a.Nodup) (hb : b.Nodup) (h : ∀ n, n ∈ a ↔ n ∈ b) :
    sorted a = sorted b :=
  eq_of_ascending (sorted_nodup ha) (sorted_nodup hb) (sorted_pairwise a) (sorted_pairwise b)
    (by simpa using h)

/-- The ascending reading of a list does not depend on its order. -/
theorem sorted_eq_of_perm {a b : List String} (h : a.Perm b) : sorted a = sorted b :=
  List.Perm.eq_of_pairwise (fun _ _ _ _ => String.le_antisymm) (sorted_pairwise a)
    (sorted_pairwise b) (((sorted_perm a).trans h).trans (sorted_perm b).symm)

/-! ## Keys -/

/-- A name that a key keeps apart from others. -/
def IsPlain (name : String) : Prop := name ≠ "" ∧ '\x00' ∉ name.toList

/-- Names with NULs between them can be told apart again, if none of them has a NUL and there is at
least one. -/
theorem intercalate_injective {a b : List String} (ha : ∀ n ∈ a, '\x00' ∉ n.toList) (ha' : a ≠ [])
    (hb : ∀ n ∈ b, '\x00' ∉ n.toList) (hb' : b ≠ [])
    (h : "\x00".intercalate a = "\x00".intercalate b) : a = b := by
  have split : ∀ {c : List String}, (∀ n ∈ c, '\x00' ∉ n.toList) → c ≠ [] →
      ("\x00".intercalate c).toList.splitOn '\x00' = c.map String.toList := by
    intro c hc hne
    rw [String.toList_intercalate]
    refine List.splitOn_intercalate '\x00' ?_ (by simpa using hne)
    intro l hl
    obtain ⟨n, hn, rfl⟩ := List.mem_map.1 hl
    exact hc n hn
  have hmap : a.map String.toList = b.map String.toList := by
    rw [← split ha ha', ← split hb hb', h]
  exact (List.map_injective_iff.2 fun _ _ => String.toList_inj.1) hmap

/-- One name is put into a key as it is; with more of them, there is a NUL in the key. -/
theorem intercalate_eq_empty_iff {a : List String} :
    "\x00".intercalate a = "" ↔ a = [] ∨ a = [""] := by
  match a with
  | [] => simp
  | [n] => simp
  | n :: m :: a => simp

theorem canonicalKey_congr {a b : List String} (h : ∀ n, n ∈ a ↔ n ∈ b) :
    canonicalKey a = canonicalKey b := by
  unfold canonicalKey
  rw [sorted_congr (distinct_nodup a) (distinct_nodup b) (by simpa using h)]

@[simp] theorem canonicalKey_distinct (names : List String) :
    canonicalKey (distinct names) = canonicalKey names :=
  canonicalKey_congr fun _ => mem_distinct

/-- The empty key stands for two sets: the empty one, and the one of the empty name alone. -/
theorem canonicalKey_eq_empty_iff {names : List String} :
    canonicalKey names = "" ↔ ∀ n ∈ names, n = "" := by
  unfold canonicalKey
  rw [intercalate_eq_empty_iff]
  constructor
  · intro h n hn
    rw [← mem_distinct, ← mem_sorted] at hn
    rcases h with h | h
    · rw [h] at hn
      cases hn
    · rw [h] at hn
      exact List.mem_singleton.1 hn
  · intro h
    cases names with
    | nil => exact .inl (sorted_eq_nil_iff.2 rfl)
    | cons n names =>
      refine .inr (eq_of_ascending (sorted_nodup (distinct_nodup _)) (List.nodup_singleton _)
        (sorted_pairwise _) (List.pairwise_singleton _ _) fun m => ?_)
      rw [mem_sorted, mem_distinct, List.mem_singleton]
      exact ⟨h m, fun hm => by rw [hm, ← h n List.mem_cons_self]; exact List.mem_cons_self⟩

/-- Every key is also the key of a single name. -/
theorem canonicalKey_singleton (name : String) : canonicalKey [name] = name := by
  simp [canonicalKey, distinct, sorted, List.eraseDups_cons]

/-- **Keys of names without NUL.** The key of a list stands for the set of its names; only the empty
list and the empty name are mixed up. -/
theorem canonicalKey_eq_iff_of_nulFree {a b : List String} (ha : ∀ n ∈ a, '\x00' ∉ n.toList)
    (hb : ∀ n ∈ b, '\x00' ∉ n.toList) : canonicalKey a = canonicalKey b ↔
      (∀ n, n ∈ a ↔ n ∈ b) ∨ ∀ n ∈ a ++ b, n = "" := by
  constructor
  · intro h
    by_cases hempty : canonicalKey a = ""
    · refine .inr (List.forall_mem_append.2 ⟨canonicalKey_eq_empty_iff.1 hempty, ?_⟩)
      exact canonicalKey_eq_empty_iff.1 (h ▸ hempty)
    · have hne : ∀ {c : List String}, canonicalKey c ≠ "" → sorted (distinct c) ≠ [] :=
        fun hc he => hc (intercalate_eq_empty_iff.2 (.inl he))
      have hkeys : sorted (distinct a) = sorted (distinct b) :=
        intercalate_injective (fun n hn => ha n (by simpa using hn)) (hne hempty)
          (fun n hn => hb n (by simpa using hn)) (hne (h ▸ hempty)) h
      refine .inl fun n => ?_
      have := congrArg (n ∈ ·) hkeys
      simpa using this
  · rintro (h | h)
    · exact canonicalKey_congr h
    · rw [List.forall_mem_append] at h
      rw [canonicalKey_eq_empty_iff.2 h.1, canonicalKey_eq_empty_iff.2 h.2]

/-- The key of a list of plain names stands for the set of its names. -/
theorem canonicalKey_eq_iff {a b : List String} (ha : ∀ n ∈ a, IsPlain n)
    (hb : ∀ n ∈ b, IsPlain n) : canonicalKey a = canonicalKey b ↔ ∀ n, n ∈ a ↔ n ∈ b := by
  rw [canonicalKey_eq_iff_of_nulFree (fun n hn => (ha n hn).2) fun n hn => (hb n hn).2]
  refine or_iff_left_of_imp fun h n => ?_
  rw [List.forall_mem_append] at h
  exact iff_of_false (fun hn => (ha n hn).1 (h.1 n hn)) fun hn => (hb n hn).1 (h.2 n hn)

end DemandPlan.Names
