/-!
# Blank characters

Two sets of characters count as blank. White space is the Unicode property of that name; the
blanks that surround a name also include the four information separators.

* `Text.strip_eq_self_iff`: a text is its own trimmed form exactly when no blank stands at either
  end.
-/

namespace DemandPlan.Text

/-- The Unicode property White_Space. -/
def isWhiteSpace (c : Char) : Bool :=
  let n := c.toNat
  (0x09 ≤ n && n ≤ 0x0D) || n = 0x20 || n = 0x85 || n = 0xA0 || n = 0x1680 ||
  (0x2000 ≤ n && n ≤ 0x200A) || n = 0x2028 || n = 0x2029 || n = 0x202F || n = 0x205F || n = 0x3000

/-- White space and the information separators U+001C to U+001F. -/
def isBlank (c : Char) : Bool :=
  isWhiteSpace c || (0x1C ≤ c.toNat && c.toNat ≤ 0x1F)

/-- Drops the characters of a class from both ends. -/
def trim (p : Char → Bool) (cs : List Char) : List Char :=
  ((cs.dropWhile p).reverse.dropWhile p).reverse

/-- A text without the blanks around it. -/
def strip (s : String) : String := String.ofList (trim isBlank s.toList)

theorem isBlank_of_isWhitespace {c : Char} (h : c.isWhitespace) : isBlank c := by
  simp only [Char.isWhitespace, Bool.or_eq_true, decide_eq_true_eq] at h
  rcases h with ((rfl | rfl) | rfl) | rfl <;> decide

theorem not_isWhiteSpace_of_isDigit {c : Char} (h : c.isDigit = true) : isWhiteSpace c = false := by
  simp only [Char.isDigit, Bool.and_eq_true, decide_eq_true_eq] at h
  have h : 48 ≤ c.toNat ∧ c.toNat ≤ 57 := h
  simp [isWhiteSpace]
  omega

theorem not_isDigit_of_isWhiteSpace {c : Char} (h : isWhiteSpace c = true) : c.isDigit = false := by
  rw [Bool.eq_false_iff]
  intro hdigit
  rw [not_isWhiteSpace_of_isDigit hdigit] at h
  cases h

/-- No character of the class stands at either end. -/
def Trimmed (p : Char → Bool) (cs : List Char) : Prop :=
  (∀ c ∈ cs.head?, p c = false) ∧ ∀ c ∈ cs.getLast?, p c = false

theorem dropWhile_eq_self {p : Char → Bool} {cs : List Char} (h : ∀ c ∈ cs.head?, p c = false) :
    cs.dropWhile p = cs := by
  cases cs with
  | nil => rfl
  | cons c cs => simp [h c (by simp)]

theorem takeWhile_eq_nil {p : Char → Bool} {cs : List Char} (h : ∀ c ∈ cs.head?, p c = false) :
    cs.takeWhile p = [] := by
  cases cs with
  | nil => rfl
  | cons c cs => simp [h c (by simp)]

theorem head_dropWhile {p : Char → Bool} {cs : List Char} :
    ∀ c ∈ (cs.dropWhile p).head?, p c = false := by
  intro c hc
  have h := List.head?_dropWhile_not p cs
  rwa [hc] at h

theorem getLast?_dropWhile {p : Char → Bool} {cs : List Char} (h : ∀ c ∈ cs.getLast?, p c = false) :
    ∀ c ∈ (cs.dropWhile p).getLast?, p c = false := by
  intro c hc
  obtain ⟨pre, hpre⟩ := List.dropWhile_suffix (l := cs) p
  refine h c ?_
  rw [← hpre, List.getLast?_append]
  simp [Option.mem_def.1 hc]

theorem trimmed_trim (p : Char → Bool) (cs : List Char) : Trimmed p (trim p cs) := by
  constructor
  · unfold trim
    rw [List.head?_reverse]
    refine getLast?_dropWhile ?_
    rw [List.getLast?_reverse]
    exact head_dropWhile
  · unfold trim
    rw [List.getLast?_reverse]
    exact head_dropWhile

theorem trim_eq_self_iff {p : Char → Bool} {cs : List Char} :
    trim p cs = cs ↔ Trimmed p cs := by
  constructor
  · intro h
    rw [← h]
    exact trimmed_trim p cs
  · intro h
    unfold trim
    rw [dropWhile_eq_self h.1, dropWhile_eq_self (by rw [List.head?_reverse]; exact h.2),
      List.reverse_reverse]

/-- What surrounds a trimmed text is taken off. -/
theorem trim_append {p : Char → Bool} {before cs after : List Char} (hb : ∀ c ∈ before, p c)
    (ha : ∀ c ∈ after, p c) (hne : cs ≠ []) (h : Trimmed p cs) :
    trim p (before ++ cs ++ after) = cs := by
  have hleft : (before ++ cs ++ after).dropWhile p = cs ++ after := by
    obtain ⟨c, cs, rfl⟩ := List.exists_cons_of_ne_nil hne
    rw [List.append_assoc, List.dropWhile_append_of_pos hb]
    exact dropWhile_eq_self h.1
  have hright : (cs ++ after).reverse.dropWhile p = cs.reverse := by
    rw [List.reverse_append, List.dropWhile_append_of_pos, dropWhile_eq_self]
    · rw [List.head?_reverse]
      exact h.2
    · exact fun c hc => ha c (List.mem_reverse.1 hc)
  rw [trim, hleft, hright, List.reverse_reverse]

theorem strip_eq_self_iff {s : String} : strip s = s ↔ Trimmed isBlank s.toList := by
  rw [← trim_eq_self_iff, strip]
  constructor
  · intro h
    conv => rhs; rw [← h]
    simp
  · intro h
    rw [h, String.ofList_toList]

end DemandPlan.Text
