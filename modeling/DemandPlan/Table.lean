/-!
# Ordered tables

A `Table α` maps names to values and remembers the order in which the names first came in.
Replacing a value keeps the place of its name; a name that is erased and inserted again goes to
the end. Names do not repeat, and that is part of the type.

* **Reading after writing** (`find?_insert`, `find?_erase`): a table answers with the last write.
* **Order** (`keys_insert_of_mem`, `keys_insert_of_not_mem`, `keys_erase`): replacing moves no
  name, a new name is the last one, erasing closes the gap.
-/

namespace DemandPlan

/-- A map from names to values that remembers the order of its names. -/
@[ext]
structure Table (α : Type) where
  entries : List (String × α) := []
  nodup : (entries.map Prod.fst).Nodup := by simp

namespace Table

variable {α β : Type}

instance [DecidableEq α] : DecidableEq (Table α) := fun s t =>
  if h : s.entries = t.entries then isTrue (Table.ext h)
  else isFalse fun e => h (congrArg Table.entries e)

/-- The table with no names. -/
def empty : Table α := {}

instance : Inhabited (Table α) := ⟨empty⟩

/-- The names, in order. -/
def keys (t : Table α) : List String := t.entries.map Prod.fst

/-- The values, in the order of their names. -/
def values (t : Table α) : List α := t.entries.map Prod.snd

/-- How many names there are. -/
def size (t : Table α) : Nat := t.entries.length

/-- The value of a name, if it has one. -/
def find? (t : Table α) (k : String) : Option α := t.entries.lookup k

/-- Whether a name has a value. -/
def contains (t : Table α) (k : String) : Bool := t.keys.contains k

instance : Membership String (Table α) := ⟨fun t k => k ∈ t.keys⟩

instance (k : String) (t : Table α) : Decidable (k ∈ t) :=
  inferInstanceAs (Decidable (k ∈ t.keys))

theorem mem_def {t : Table α} {k : String} : k ∈ t ↔ k ∈ t.keys := Iff.rfl

theorem nodup_keys (t : Table α) : t.keys.Nodup := t.nodup

/-- Gives `k` the value `v` where `k` already stands. -/
def replaced (k : String) (v : α) (es : List (String × α)) : List (String × α) :=
  es.map fun e => if e.1 = k then (k, v) else e

theorem map_fst_replaced (k : String) (v : α) (es : List (String × α)) :
    (replaced k v es).map Prod.fst = es.map Prod.fst := by
  induction es with
  | nil => rfl
  | cons e es ih =>
    simp only [replaced, List.map_cons, List.cons.injEq] at ih ⊢
    refine ⟨?_, ih⟩
    split
    · next h => exact h.symm
    · rfl

/-- Gives `k` the value `v`: in its old place if it has one, else at the end. -/
def insert (t : Table α) (k : String) (v : α) : Table α :=
  if h : k ∈ t.keys then
    ⟨replaced k v t.entries, by rw [map_fst_replaced]; exact t.nodup⟩
  else
    ⟨t.entries ++ [(k, v)], by
      simp only [List.map_append, List.map_cons, List.map_nil]
      refine List.nodup_append.2 ⟨t.nodup, by simp, ?_⟩
      rintro a ha b hb rfl
      exact h (by simpa using List.mem_singleton.1 hb ▸ ha)⟩

/-- The table without `k`. -/
def erase (t : Table α) (k : String) : Table α :=
  ⟨t.entries.filter fun e => e.1 ≠ k, t.nodup.sublist (List.filter_sublist.map _)⟩

/-- Inserts the pairs one by one, so a repeated name keeps its first place and its last value. -/
def ofList (es : List (String × α)) : Table α :=
  es.foldl (fun t e => t.insert e.1 e.2) empty

/-- The pairs, in order. -/
def toList (t : Table α) : List (String × α) := t.entries

/-- The first table, then whatever the second one says. -/
def merge (s t : Table α) : Table α :=
  t.entries.foldl (fun u e => u.insert e.1 e.2) s

/-! ## Reading after writing -/

@[simp] theorem keys_empty : (empty : Table α).keys = [] := rfl

@[simp] theorem find?_empty (k : String) : (empty : Table α).find? k = none := rfl

theorem lookup_cons_eq_ite (a : String) (b : α) (es : List (String × α)) (k : String) :
    ((a, b) :: es).lookup k = if k = a then some b else es.lookup k := by
  by_cases h : k = a
  · subst h; simp
  · rw [List.lookup_cons, show (k == a) = false from beq_eq_false_iff_ne.2 h, if_neg h]

theorem lookup_eq_none_iff {es : List (String × α)} {k : String} :
    es.lookup k = none ↔ k ∉ es.map Prod.fst := by
  induction es with
  | nil => simp
  | cons e es ih =>
    rw [lookup_cons_eq_ite, List.map_cons, List.mem_cons, not_or, ← ih]
    by_cases h : k = e.1 <;> simp [h]

theorem find?_eq_none_iff {t : Table α} {k : String} : t.find? k = none ↔ k ∉ t :=
  lookup_eq_none_iff

theorem find?_isSome_iff {t : Table α} {k : String} : (t.find? k).isSome ↔ k ∈ t := by
  rw [← Option.ne_none_iff_isSome, ne_eq, find?_eq_none_iff, Decidable.not_not]

theorem replaced_of_not_mem {k : String} {es : List (String × α)} (h : k ∉ es.map Prod.fst)
    (v : α) : replaced k v es = es := by
  unfold replaced
  conv => rhs; rw [← List.map_id es]
  refine List.map_congr_left fun e he => if_neg fun hk => h ?_
  exact hk ▸ List.mem_map_of_mem he

theorem lookup_replaced (k k' : String) (v : α) (es : List (String × α))
    (h : k ∈ es.map Prod.fst) :
    (replaced k v es).lookup k' = if k' = k then some v else es.lookup k' := by
  induction es with
  | nil => simp at h
  | cons e es ih =>
    obtain ⟨a, b⟩ := e
    have hcons : replaced k v ((a, b) :: es) =
        (if a = k then (k, v) else (a, b)) :: replaced k v es := rfl
    rw [hcons, lookup_cons_eq_ite a b]
    by_cases ha : a = k
    · subst ha
      rw [if_pos rfl, lookup_cons_eq_ite]
      by_cases hm : a ∈ es.map Prod.fst
      · rw [ih hm]; grind
      · rw [replaced_of_not_mem hm]; grind
    · have hm : k ∈ es.map Prod.fst := by simpa [Ne.symm ha] using h
      rw [if_neg ha, lookup_cons_eq_ite, ih hm]
      grind

@[simp] theorem find?_insert (t : Table α) (k k' : String) (v : α) :
    (t.insert k v).find? k' = if k' = k then some v else t.find? k' := by
  unfold insert find?
  split
  · next h => exact lookup_replaced k k' v t.entries h
  · next h =>
    have h' : t.entries.lookup k = none := lookup_eq_none_iff.2 h
    rw [List.lookup_append, lookup_cons_eq_ite]
    by_cases hk : k' = k
    · simp [hk, h']
    · simp [hk]

theorem keys_insert_of_mem {t : Table α} {k : String} (h : k ∈ t) (v : α) :
    (t.insert k v).keys = t.keys := by
  unfold insert
  rw [dif_pos (mem_def.1 h)]
  exact map_fst_replaced _ _ _

theorem keys_insert_of_not_mem {t : Table α} {k : String} (h : k ∉ t) (v : α) :
    (t.insert k v).keys = t.keys ++ [k] := by
  unfold insert
  rw [dif_neg (mt mem_def.2 h)]
  simp [keys]

@[simp] theorem mem_insert {t : Table α} {k k' : String} {v : α} :
    k' ∈ t.insert k v ↔ k' = k ∨ k' ∈ t := by
  rw [← find?_isSome_iff, find?_insert, ← find?_isSome_iff]
  split <;> simp_all

theorem keys_erase (t : Table α) (k : String) :
    (t.erase k).keys = t.keys.filter (fun a => decide (a ≠ k)) := by
  simp [erase, keys, List.filter_map, Function.comp_def]

@[simp] theorem mem_erase {t : Table α} {k k' : String} :
    k' ∈ t.erase k ↔ k' ≠ k ∧ k' ∈ t := by
  rw [mem_def, keys_erase, List.mem_filter, mem_def]
  simp [And.comm]

theorem lookup_filter_ne (k k' : String) (es : List (String × α)) :
    (es.filter fun e => decide (e.1 ≠ k)).lookup k' =
      if k' = k then none else es.lookup k' := by
  induction es with
  | nil => simp
  | cons e es ih =>
    obtain ⟨a, b⟩ := e
    rw [List.filter_cons, lookup_cons_eq_ite]
    by_cases ha : a = k
    · simp only [ha, ne_eq, not_true_eq_false, decide_false, Bool.false_eq_true, if_false]
      rw [ih]; grind
    · simp only [ne_eq, ha, not_false_eq_true, decide_true, if_true]
      rw [lookup_cons_eq_ite, ih]; grind

@[simp] theorem find?_erase (t : Table α) (k k' : String) :
    (t.erase k).find? k' = if k' = k then none else t.find? k' := by
  simpa [erase, find?] using lookup_filter_ne k k' t.entries

/-! ## Totals -/

/-- The sum of a measure over the values of some pairs. -/
def weight (w : α → Nat) : List (String × α) → Nat
  | [] => 0
  | e :: es => w e.2 + weight w es

/-- The sum of a measure over all values. -/
def total (w : α → Nat) (t : Table α) : Nat := weight w t.entries

theorem weight_of_lookup {es : List (String × α)} {k : String} {a : α} (w : α → Nat) (b : α)
    (hn : (es.map Prod.fst).Nodup) (h : es.lookup k = some a) :
    weight w (replaced k b es) + w a = weight w es + w b ∧
      weight w (es.filter fun e => decide (e.1 ≠ k)) + w a = weight w es := by
  induction es with
  | nil => simp at h
  | cons e es ih =>
    obtain ⟨c, d⟩ := e
    rw [lookup_cons_eq_ite] at h
    have hcons : replaced k b ((c, d) :: es) =
        (if c = k then (k, b) else (c, d)) :: replaced k b es := rfl
    rw [List.map_cons, List.nodup_cons] at hn
    rw [hcons, List.filter_cons]
    by_cases hk : c = k
    · subst hk
      rw [if_pos rfl, Option.some.injEq] at h
      subst h
      have hf : (es.filter fun e => decide (e.1 ≠ c)) = es := by
        rw [List.filter_eq_self]
        intro e he
        have : e.1 ≠ c := fun hc => hn.1 (List.mem_map.2 ⟨e, he, hc⟩)
        simpa using this
      rw [replaced_of_not_mem hn.1]
      simp only [ne_eq, not_true_eq_false, decide_false, Bool.false_eq_true, if_false, if_true,
        weight] at hf ⊢
      rw [hf]
      omega
    · rw [if_neg fun hc => hk hc.symm] at h
      have := ih hn.2 h
      simp only [hk, ne_eq, not_false_eq_true, decide_true, if_true, if_false, weight] at this ⊢
      omega

theorem total_insert {t : Table α} {k : String} {a : α} (w : α → Nat) (b : α)
    (h : t.find? k = some a) : (t.insert k b).total w + w a = t.total w + w b := by
  have hk : k ∈ t.keys := mem_def.1 (find?_isSome_iff.1 (by rw [h]; rfl))
  rw [total, total, insert, dif_pos hk]
  exact (weight_of_lookup w b t.nodup h).1

theorem total_erase {t : Table α} {k : String} {a : α} (w : α → Nat) (h : t.find? k = some a) :
    (t.erase k).total w + w a = t.total w := by
  rw [total, total, erase]
  exact (weight_of_lookup w a t.nodup h).2

end Table

end DemandPlan
