import DemandPlan.Json.Reader
import DemandPlan.Proofs.Token

/-!
# Writing and reading JSON

A value that is written, in either layout, reads back, if no numeral in it is too long to be read.
The text is the tokens of the value with blanks between them (`lex_write`), and the reader, which
keeps what is open on a stack, puts the tokens together again (`value?_tokens`).

* `parse?_render`: the round trip.
-/

namespace DemandPlan.Json

open Token

/-- A value all of whose numerals are short enough to be read. -/
inductive Readable : Json → Prop
  | null : Readable .null
  | bool (b : Bool) : Readable (.bool b)
  | int {n : Int} (h : Fits n) : Readable (.int n)
  | decimal {d : Decimal} (h : Fits d.significand) : Readable (.decimal d)
  | nonFinite (x : NonFinite) : Readable (.nonFinite x)
  | str (s : String) : Readable (.str s)
  | arr {items : List Json} (h : ∀ v ∈ items, Readable v) : Readable (.arr items)
  | obj {members : List (String × Json)} (h : ∀ m ∈ members, Readable m.2) :
    Readable (.obj members)

/-! ## The tokens of a value -/

mutual

/-- The tokens that a value is written with. -/
def tokens : Json → List Token
  | .str s => [.str s]
  | .arr [] => [.openArr, .closeArr]
  | .arr (x :: xs) => .openArr :: tokens x ++ itemTokens xs ++ [.closeArr]
  | .obj [] => [.openObj, .closeObj]
  | .obj ((k, v) :: ms) =>
    .openObj :: .str k :: .colon :: tokens v ++ memberTokens ms ++ [.closeObj]
  | v => [.atom v]

/-- The tokens of the items of an array after the first one. -/
def itemTokens : List Json → List Token
  | [] => []
  | x :: xs => .comma :: tokens x ++ itemTokens xs

/-- The tokens of the members of an object after the first one. -/
def memberTokens : List (String × Json) → List Token
  | [] => []
  | (k, v) :: ms => .comma :: .str k :: .colon :: tokens v ++ memberTokens ms

end

/-! ## From tokens to values -/

theorem value?_openArr {ts : List Token} (h : ts.head? ≠ some .closeArr) (stack : List Frame) :
    value? (.openArr :: ts) stack = value? ts (.items [] :: stack) := by
  cases ts with
  | nil => rfl
  | cons t ts => cases t <;> first | rfl | exact absurd rfl h

theorem head?_tokens (v : Json) (ts : List Token) :
    (tokens v ++ ts).head? ≠ some .closeArr := by
  unfold tokens
  split <;> simp

/-- Reading the items after one that has been read, up to the end of the array. -/
theorem after?_itemTokens {xs : List Json}
    (h : ∀ x ∈ xs, ∀ ts stack, value? (tokens x ++ ts) stack = after? x ts stack) (x : Json)
    (done : List Json) (ts : List Token) (stack : List Frame) :
    after? x (itemTokens xs ++ .closeArr :: ts) (.items done :: stack) =
      after? (.arr (done.reverse ++ x :: xs)) ts stack := by
  induction xs generalizing x done with
  | nil => simp [itemTokens, after?]
  | cons y xs ih =>
    simp only [itemTokens, List.cons_append, List.append_assoc, after?]
    rw [h y List.mem_cons_self, ih fun z hz => h z (List.mem_cons_of_mem _ hz)]
    simp

/-- Reading the members after one that has been read, up to the end of the object. -/
theorem after?_memberTokens {ms : List (String × Json)}
    (h : ∀ m ∈ ms, ∀ ts stack, value? (tokens m.2 ++ ts) stack = after? m.2 ts stack) (k : String)
    (v : Json) (done : List (String × Json)) (ts : List Token) (stack : List Frame) :
    after? v (memberTokens ms ++ .closeObj :: ts) (.members done k :: stack) =
      after? (.obj (done.reverse ++ (k, v) :: ms)) ts stack := by
  induction ms generalizing k v done with
  | nil => simp [memberTokens, after?]
  | cons m ms ih =>
    obtain ⟨k', v'⟩ := m
    simp only [memberTokens, List.cons_append, List.append_assoc, after?]
    rw [h (k', v') List.mem_cons_self, ih fun z hz => h z (List.mem_cons_of_mem _ hz)]
    simp

/-- **The reader undoes the tokens.** -/
theorem value?_tokens {v : Json} (hv : v.Readable) (ts : List Token) (stack : List Frame) :
    value? (tokens v ++ ts) stack = after? v ts stack := by
  induction hv generalizing ts stack with
  | null | bool | int | decimal | nonFinite | str => simp [tokens, value?]
  | @arr items _ ih =>
    cases items with
    | nil => rfl
    | cons x xs =>
      have hhead := head?_tokens x (itemTokens xs ++ ([.closeArr] ++ ts))
      simp only [tokens, List.cons_append, List.append_assoc, List.nil_append] at hhead ⊢
      rw [value?_openArr hhead, ih x List.mem_cons_self,
        after?_itemTokens fun y hy => ih y (List.mem_cons_of_mem _ hy)]
      rfl
  | @obj members _ ih =>
    cases members with
    | nil => rfl
    | cons m ms =>
      obtain ⟨k, v⟩ := m
      simp only [tokens, List.cons_append, List.append_assoc, List.nil_append]
      rw [value?, ih (k, v) List.mem_cons_self,
        after?_memberTokens fun y hy => ih y (List.mem_cons_of_mem _ hy)]
      rfl

/-! ## From text to tokens -/

/-- No word goes on here. -/
def EndsWord (rest : List Char) : Prop := ∀ c ∈ rest.head?, isWordChar c = false

theorem isBlank_of_mark {c : Char} {t : Token} (h : ofMark? c = some t) : isBlank c = false := by
  unfold ofMark? at h
  split at h <;> first | rfl | cases h

theorem endsWord_of_mark {c : Char} {t : Token} (h : ofMark? c = some t) (rest : List Char) :
    EndsWord (c :: rest) := by
  intro d hd
  cases hd
  simp [isWordChar, h]

theorem endsWord_lineBreak (l : Layout) (depth : Nat) {rest : List Char} (h : EndsWord rest) :
    EndsWord (l.lineBreak depth ++ rest) := by
  cases l with
  | compact => exact h
  | indented width =>
    intro d hd
    cases hd
    rfl

theorem lex_of_isBlank {c : Char} (h : isBlank c = true) (rest : List Char) :
    lex (c :: rest) = lex rest := by
  rw [lex, if_pos h]

theorem lex_lineBreak (l : Layout) (depth : Nat) (rest : List Char) :
    lex (l.lineBreak depth ++ rest) = lex rest := by
  have hblanks : ∀ n, lex (List.replicate n ' ' ++ rest) = lex rest := by
    intro n
    induction n with
    | zero => rfl
    | succ n ih => rw [List.replicate_succ, List.cons_append, lex_of_isBlank rfl, ih]
  cases l with
  | compact => rfl
  | indented width => exact (lex_of_isBlank rfl _).trans (hblanks _)

theorem lex_mark {c : Char} {t : Token} (h : ofMark? c = some t) (rest : List Char) :
    lex (c :: rest) = (lex rest).map (t :: ·) := by
  rw [lex, if_neg (by simp [isBlank_of_mark h])]
  split
  · next t' h' =>
    obtain rfl := Option.some.inj (h.symm.trans h')
    rfl
  · next h' => rw [h] at h'; cases h'

theorem lex_writeString (s : String) (rest : List Char) :
    lex (writeString s ++ rest) = (lex rest).map (.str s :: ·) := by
  have hread : string? (s.toList.flatMap escape ++ '"' :: rest) = some (s.toList, rest) :=
    string?_flatMap_escape s.toList rest
  rw [writeString, List.cons_append, List.cons_append, List.append_assoc, List.singleton_append, lex,
    if_neg (by decide)]
  simp only [show ofMark? '"' = none from rfl, if_true]
  split
  · next h => rw [hread] at h; cases h
  · next cs rest' h =>
    rw [hread] at h
    cases h
    rw [String.ofList_toList]

theorem lex_word {w : List Char} {v : Json} (hw : w.all isWordChar = true)
    (hv : word? w = some v) {rest : List Char} (hrest : EndsWord rest) :
    lex (w ++ rest) = (lex rest).map (.atom v :: ·) := by
  cases w with
  | nil => cases hv
  | cons c w =>
    rw [List.all_eq_true] at hw
    have hc := hw c List.mem_cons_self
    simp only [isWordChar, Bool.and_eq_true, Bool.not_eq_true', Option.isNone_iff_eq_none,
      decide_eq_true_eq] at hc
    obtain ⟨⟨hblank, hmark⟩, hquote⟩ := hc
    -- A word goes on as long as it can, so that what follows has to end it.
    have hsplit : (w ++ rest).takeWhile isWordChar = w ∧ (w ++ rest).dropWhile isWordChar = rest := by
      have hw' : ∀ d ∈ w, isWordChar d = true := fun d hd => hw d (List.mem_cons_of_mem _ hd)
      rw [List.takeWhile_append_of_pos hw', List.dropWhile_append_of_pos hw']
      cases rest with
      | nil => simp
      | cons d rest => simp [hrest d rfl]
    rw [List.cons_append, lex, if_neg (by simp [hblank]), hsplit.1, hsplit.2, hv]
    simp [hmark, hquote]

/-! ## Written values -/

theorem isWordChar_of_isDigit {c : Char} (h : c.isDigit = true) : isWordChar c = true := by
  have hmark : ∀ d : Char, d.isDigit = false → c ≠ d := by
    rintro d hd rfl
    rw [h] at hd
    cases hd
  have hnone : ofMark? c = none := by
    unfold ofMark?
    split <;> first | rfl | exact absurd rfl (hmark _ (by decide))
  simp [isWordChar, hnone, isBlank, hmark]

theorem isWordChar_of_mem_writeInt {n : Int} {c : Char} (h : c ∈ writeInt n) :
    isWordChar c = true := by
  unfold writeInt at h
  split at h
  · rcases List.mem_cons.1 h with rfl | h
    · rfl
    · exact isWordChar_of_isDigit (isDigit_of_mem h)
  · exact isWordChar_of_isDigit (isDigit_of_mem h)

theorem isWordChar_of_mem_writeDecimal {d : Decimal} {c : Char} (h : c ∈ writeDecimal d) :
    isWordChar c = true := by
  rcases List.mem_append.1 h with h | h
  · exact isWordChar_of_mem_writeInt h
  rcases List.mem_cons.1 h with rfl | h
  · rfl
  · exact isWordChar_of_mem_writeInt h

theorem endsWord_writeItems (l : Layout) (depth : Nat) (xs : List Json) {rest : List Char}
    (h : EndsWord rest) : EndsWord (writeItems l depth xs ++ rest) := by
  cases xs with
  | nil => exact h
  | cons x xs => exact endsWord_of_mark (c := ',') rfl _

theorem endsWord_writeMembers (l : Layout) (depth : Nat) (ms : List (String × Json))
    {rest : List Char} (h : EndsWord rest) : EndsWord (writeMembers l depth ms ++ rest) := by
  cases ms with
  | nil => exact h
  | cons m ms => exact endsWord_of_mark (c := ',') rfl _

theorem lex_colon (l : Layout) (rest : List Char) :
    lex (l.colon ++ rest) = (lex rest).map (.colon :: ·) := by
  have hmark := fun rest => lex_mark (c := ':') (t := .colon) rfl rest
  cases l with
  | compact => exact hmark rest
  | indented width => exact (hmark _).trans (congrArg _ (lex_of_isBlank rfl rest))

theorem lex_writeItems (l : Layout) {xs : List Json}
    (h : ∀ x ∈ xs, ∀ depth rest, EndsWord rest →
      lex (write l depth x ++ rest) = (lex rest).map (tokens x ++ ·))
    (depth : Nat) {rest : List Char} (hrest : EndsWord rest) :
    lex (writeItems l depth xs ++ rest) = (lex rest).map (itemTokens xs ++ ·) := by
  induction xs with
  | nil => simp [writeItems, itemTokens]
  | cons x xs ih =>
    have hxs := endsWord_writeItems l depth xs hrest
    simp only [writeItems, itemTokens, List.cons_append, List.append_assoc]
    rw [lex_mark (t := .comma) rfl, lex_lineBreak, h x List.mem_cons_self _ _ hxs,
      ih fun y hy => h y (List.mem_cons_of_mem _ hy)]
    simp [Function.comp_def]

theorem lex_writeMembers (l : Layout) {ms : List (String × Json)}
    (h : ∀ m ∈ ms, ∀ depth rest, EndsWord rest →
      lex (write l depth m.2 ++ rest) = (lex rest).map (tokens m.2 ++ ·))
    (depth : Nat) {rest : List Char} (hrest : EndsWord rest) :
    lex (writeMembers l depth ms ++ rest) = (lex rest).map (memberTokens ms ++ ·) := by
  induction ms with
  | nil => simp [writeMembers, memberTokens]
  | cons m ms ih =>
    obtain ⟨k, v⟩ := m
    have hms := endsWord_writeMembers l depth ms hrest
    simp only [writeMembers, memberTokens, List.cons_append, List.append_assoc]
    rw [lex_mark (t := .comma) rfl, lex_lineBreak, lex_writeString, lex_colon,
      h (k, v) List.mem_cons_self _ _ hms, ih fun y hy => h y (List.mem_cons_of_mem _ hy)]
    simp [Function.comp_def]

/-- **The text is the tokens**, with blanks between them. -/
theorem lex_write (l : Layout) {v : Json} (hv : v.Readable) (depth : Nat) {rest : List Char}
    (hrest : EndsWord rest) :
    lex (write l depth v ++ rest) = (lex rest).map (tokens v ++ ·) := by
  -- The text of a value stands before any text that ends a word; a number would run on otherwise.
  induction hv generalizing depth rest with
  | null =>
    rw [write]
    exact lex_word (by decide) word?_names.1 hrest
  | bool b =>
    cases b with
    | false =>
      rw [write]
      exact lex_word (by decide) word?_names.2.2 hrest
    | true =>
      rw [write]
      exact lex_word (by decide) word?_names.2.1 hrest
  | int h =>
    exact lex_word (List.all_eq_true.2 fun c => isWordChar_of_mem_writeInt) (word?_writeInt h) hrest
  | decimal h =>
    exact lex_word (List.all_eq_true.2 fun c => isWordChar_of_mem_writeDecimal)
      (word?_writeDecimal h) hrest
  | nonFinite x =>
    have hword : (NonFinite.word x).all isWordChar = true := by cases x <;> decide
    exact lex_word hword (word?_nonFinite x) hrest
  | str s => exact lex_writeString s rest
  | @arr items _ ih =>
    cases items with
    | nil =>
      show lex ('[' :: ']' :: rest) = _
      rw [lex_mark (t := .openArr) rfl, lex_mark (t := .closeArr) rfl]
      simp [Function.comp_def, tokens]
    | cons x xs =>
      -- Every item is followed by a comma, a bracket or a blank, all of which end words.
      have hend : EndsWord (l.lineBreak depth ++ ']' :: rest) :=
        endsWord_lineBreak l depth (endsWord_of_mark (t := .closeArr) rfl rest)
      simp only [write, tokens, List.cons_append, List.append_assoc, List.nil_append]
      rw [lex_mark (t := .openArr) rfl, lex_lineBreak,
        ih x List.mem_cons_self _ (endsWord_writeItems l _ xs hend),
        lex_writeItems l (fun y hy d r hr => ih y (List.mem_cons_of_mem _ hy) d hr) _ hend,
        lex_lineBreak, lex_mark (t := .closeArr) rfl]
      simp [Function.comp_def]
  | @obj members _ ih =>
    cases members with
    | nil =>
      show lex ('\x7b' :: '\x7d' :: rest) = _
      rw [lex_mark (t := .openObj) rfl, lex_mark (t := .closeObj) rfl]
      simp [Function.comp_def, tokens]
    | cons m ms =>
      obtain ⟨k, v⟩ := m
      have hend : EndsWord (l.lineBreak depth ++ '\x7d' :: rest) :=
        endsWord_lineBreak l depth (endsWord_of_mark (t := .closeObj) rfl rest)
      simp only [write, tokens, List.cons_append, List.append_assoc, List.nil_append]
      rw [lex_mark (t := .openObj) rfl, lex_lineBreak, lex_writeString, lex_colon,
        ih (k, v) List.mem_cons_self _ (endsWord_writeMembers l _ ms hend),
        lex_writeMembers l (fun y hy d r hr => ih y (List.mem_cons_of_mem _ hy) d hr) _ hend,
        lex_lineBreak, lex_mark (t := .closeObj) rfl]
      simp [Function.comp_def]

/-- **The round trip.** What is written, in either layout, reads back. -/
theorem parse?_render {v : Json} (hv : v.Readable) (l : Layout) : parse? (v.render l) = some v := by
  have hlex : lex (write l 0 v) = some (tokens v) := by
    have hend : EndsWord [] := fun _ hc => nomatch hc
    rw [← List.append_nil (write l 0 v), lex_write l hv 0 hend, lex]
    simp
  have hread : ofTokens? (tokens v) = some v := by
    have h := value?_tokens hv [] []
    rwa [List.append_nil] at h
  rw [parse?, render, String.toList_ofList, hlex]
  exact hread

end DemandPlan.Json
