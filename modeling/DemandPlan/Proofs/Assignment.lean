import DemandPlan.Operation.Declaration
import DemandPlan.Proofs.Record
import Mathlib

/-!
# Assignments read back

An assignment is read by cutting a text at its arrow and at its commas and by taking the blanks off
the pieces. So what is read are clean names, and clean names are what can be written down and read
again: between them the writing puts a comma, an arrow and blanks, none of which makes an arrow
together with the end of a name.

* `IsClean`: the names that an assignment can carry.
* `parse_eq_ok_iff`: what is read, by the one arrow of the text.
* `parse_render`: an assignment of clean names reads back.
* `assignments_read_back`: which texts are read, and which assignments read back.
-/

namespace DemandPlan

/-! ## Trimming -/

namespace Text

variable {p : Char → Bool} {c : Char} {cs : List Char}

theorem trim_eq_nil_iff : trim p cs = [] ↔ cs.all p := by
  constructor
  · intro h
    have hdrop := List.dropWhile_eq_nil_iff.1 (List.reverse_eq_nil_iff.1 h)
    -- Where the first trimming stops, the second one would stop too.
    cases hd : cs.dropWhile p with
    | nil => simpa using List.dropWhile_eq_nil_iff.1 hd
    | cons d ds =>
      have hnot : p d = false := head_dropWhile d (by rw [hd]; rfl)
      have hall : p d = true := hdrop d (by simp [hd])
      cases hnot.symm.trans hall
  · intro h
    have hnil : cs.dropWhile p = [] := List.dropWhile_eq_nil_iff.2 (by simpa using h)
    rw [trim, hnil]
    rfl

theorem trim_infix (p : Char → Bool) (cs : List Char) : trim p cs <:+: cs := by
  have hleft := List.dropWhile_suffix (l := cs) p
  have hright := List.dropWhile_suffix (l := (cs.dropWhile p).reverse) p
  rw [← List.reverse_prefix, List.reverse_reverse] at hright
  exact hright.isInfix.trans hleft.isInfix

theorem trim_cons_of_pos (h : p c) : trim p (c :: cs) = trim p cs := by
  rw [trim, List.dropWhile_cons_of_pos h, trim]

theorem trim_snoc_of_pos (h : p c) : trim p (cs ++ [c]) = trim p cs := by
  by_cases hall : cs.all p
  · rw [trim_eq_nil_iff.2 hall, trim_eq_nil_iff, List.all_append, hall]
    simpa using h
  · have hne : (cs.dropWhile p).isEmpty = false := by
      rw [Bool.eq_false_iff, ne_eq, List.isEmpty_iff, List.dropWhile_eq_nil_iff]
      simpa using hall
    rw [trim, List.dropWhile_append, hne, if_neg Bool.false_ne_true, List.reverse_append,
      List.reverse_singleton, List.singleton_append, List.dropWhile_cons_of_pos h, trim]

end Text

namespace Assignment

variable {c : Char} {cs left right piece : List Char} {a : Assignment} {n text : String}

/-! ## Arrows -/

/-- The sign between the inputs and the output. -/
def arrow : List Char := ['-', '>']

/-- How often the arrow occurs. -/
def arrows (cs : List Char) : Nat := cs.tails.countP arrow.isPrefixOf

@[simp] theorem arrows_nil : arrows [] = 0 := rfl

theorem arrows_cons (c : Char) (cs : List Char) :
    arrows (c :: cs) = arrows cs + if c = '-' ∧ cs.head? = some '>' then 1 else 0 := by
  rw [arrows, List.tails_cons, List.countP_cons, arrows]
  congr 1
  cases cs with
  | nil => simp [arrow]
  | cons d cs => simp [arrow, @eq_comm _ '-', @eq_comm _ '>']

theorem arrows_eq_zero_iff : arrows cs = 0 ↔ ¬arrow <:+: cs := by
  rw [arrows, List.countP_eq_zero]
  simp only [List.mem_tails, List.isPrefixOf_iff_prefix, List.infix_iff_prefix_suffix, not_exists,
    not_and]
  exact forall_congr' fun _ => imp_not_comm

theorem arrows_of_infix (h : left <:+: cs) (hcs : arrows cs = 0) : arrows left = 0 := by
  rw [arrows_eq_zero_iff] at hcs ⊢
  exact fun harrow => hcs (harrow.trans h)

/-- Where texts are put together, an arrow can arise only before a `>`. -/
theorem arrows_append (left : List Char) (h : right.head? ≠ some '>') :
    arrows (left ++ right) = arrows left + arrows right := by
  induction left with
  | nil => simp
  | cons c cs ih =>
    have hhead : (cs ++ right).head? = some '>' ↔ cs.head? = some '>' := by
      cases cs with
      | nil => simpa using h
      | cons d cs => rfl
    rw [List.cons_append, arrows_cons, arrows_cons, ih, if_congr (and_congr_right' hhead) rfl rfl]
    omega

theorem arrows_append_arrow (left right : List Char) :
    arrows (left ++ arrow ++ right) = arrows left + arrows right + 1 := by
  have harrow : arrows (arrow ++ right) = arrows right + 1 := by
    simp [arrow, arrows_cons]
  rw [List.append_assoc, arrows_append left (by simp [arrow]), harrow]
  omega

theorem exists_of_arrows_eq_one (h : arrows cs = 1) :
    ∃ left right, cs = left ++ arrow ++ right ∧ arrows left = 0 ∧ arrows right = 0 := by
  obtain ⟨left, right, rfl⟩ : arrow <:+: cs := by
    by_contra hnot
    rw [arrows_eq_zero_iff.2 hnot] at h
    cases h
  rw [arrows_append_arrow] at h
  exact ⟨left, right, rfl, by omega, by omega⟩

/-! ## Cutting at the arrows -/

theorem splitArrows_cons (h : ¬(c = '-' ∧ cs.head? = some '>')) :
    splitArrows (c :: cs) = extendHead c (splitArrows cs) := by
  rw [splitArrows]
  rintro ds rfl rfl
  exact h ⟨rfl, rfl⟩

theorem length_extendHead (c : Char) {ps : List (List Char)} (h : ps ≠ []) :
    (extendHead c ps).length = ps.length := by
  cases ps with
  | nil => exact absurd rfl h
  | cons p ps => rfl

/-- There is one piece more than there are arrows. -/
theorem length_splitArrows (cs : List Char) : (splitArrows cs).length = arrows cs + 1 := by
  fun_induction splitArrows cs with
  | case1 => rfl
  | case2 cs ih => simp [arrows_cons, ih]
  | case3 c cs h ih =>
    have hne : splitArrows cs ≠ [] := List.ne_nil_of_length_eq_add_one ih
    have hc : ¬(c = '-' ∧ cs.head? = some '>') := by
      rintro ⟨rfl, hhead⟩
      obtain ⟨ds, rfl⟩ := List.head?_eq_some_iff.1 hhead
      exact h ds rfl rfl
    rw [length_extendHead c hne, ih, arrows_cons, if_neg hc]

theorem splitArrows_of_arrows_eq_zero (h : arrows cs = 0) : splitArrows cs = [cs] := by
  induction cs with
  | nil => rfl
  | cons c cs ih =>
    rw [arrows_cons, Nat.add_eq_zero_iff, ite_eq_right_iff] at h
    rw [splitArrows_cons fun hc => absurd (h.2 hc) Nat.one_ne_zero, ih h.1, extendHead]

theorem splitArrows_append (h : arrows left = 0) (right : List Char) :
    splitArrows (left ++ arrow ++ right) = left :: splitArrows right := by
  induction left with
  | nil => rfl
  | cons c cs ih =>
    rw [arrows_cons, Nat.add_eq_zero_iff, ite_eq_right_iff] at h
    have hc : ¬(c = '-' ∧ (cs ++ arrow ++ right).head? = some '>') := by
      rintro ⟨rfl, hhead⟩
      cases cs with
      | nil => simp [arrow] at hhead
      | cons d cs => exact absurd (h.2 ⟨rfl, hhead⟩) Nat.one_ne_zero
    rw [List.cons_append, List.cons_append, splitArrows_cons hc, ih h.1, extendHead]

/-- A text is cut in two just where its only arrow is. -/
theorem splitArrows_eq_pair_iff : splitArrows cs = [left, right] ↔
    cs = left ++ arrow ++ right ∧ arrows left = 0 ∧ arrows right = 0 := by
  constructor
  · intro h
    have hone : arrows cs = 1 := by
      have := length_splitArrows cs
      rw [h] at this
      exact (Nat.succ.inj this).symm
    obtain ⟨left', right', rfl, hleft, hright⟩ := exists_of_arrows_eq_one hone
    rw [splitArrows_append hleft, splitArrows_of_arrows_eq_zero hright] at h
    obtain ⟨hl, hr⟩ := List.cons.inj h
    rw [← hl, ← List.singleton_inj.1 hr]
    exact ⟨rfl, hleft, hright⟩
  · rintro ⟨rfl, hleft, hright⟩
    rw [splitArrows_append hleft, splitArrows_of_arrows_eq_zero hright]

/-! ## Cutting at the commas -/

theorem splitCommas_eq (cs : List Char) : splitCommas cs = cs.splitOn ',' := by
  induction cs with
  | nil => rfl
  | cons c cs ih =>
    rw [splitCommas, List.splitOn_cons_eq_if_modifyHead, ih]
    obtain ⟨p, ps, hps⟩ := List.exists_cons_of_ne_nil (List.splitOn_ne_nil ',' cs)
    simp only [hps, extendHead, List.modifyHead_cons, beq_iff_eq]

theorem not_mem_of_mem_splitOn (h : piece ∈ cs.splitOn ',') : ',' ∉ piece := by
  induction cs generalizing piece with
  | nil => simp_all
  | cons c cs ih =>
    obtain ⟨p, ps, hps⟩ := List.exists_cons_of_ne_nil (List.splitOn_ne_nil ',' cs)
    rw [List.splitOn_cons_eq_if_modifyHead, hps] at h
    rw [hps] at ih
    split at h
    · rcases List.mem_cons.1 h with rfl | h
      · exact List.not_mem_nil
      · exact ih h
    · next hc =>
      rw [List.modifyHead_cons] at h
      rcases List.mem_cons.1 h with rfl | h
      · have hp := ih List.mem_cons_self
        simpa [@eq_comm _ ','] using ⟨by simpa using hc, hp⟩
      · exact ih (List.mem_cons_of_mem _ h)

theorem infix_intercalate {sep : List Char} {ps : List (List Char)} (h : piece ∈ ps) :
    piece <:+: sep.intercalate ps := by
  induction ps with
  | nil => cases h
  | cons p ps ih =>
    cases ps with
    | nil =>
      obtain rfl := List.mem_singleton.1 h
      rw [List.intercalate_singleton]
    | cons q ps =>
      rw [List.intercalate_cons_cons]
      rcases List.mem_cons.1 h with rfl | h
      · rw [List.append_assoc]
        exact (List.prefix_append _ _).isInfix
      · exact (ih h).trans (List.suffix_append _ _).isInfix

theorem infix_of_mem_splitOn (h : piece ∈ cs.splitOn ',') : piece <:+: cs := by
  have hcs : [','].intercalate (cs.splitOn ',') = cs := List.intercalate_splitOn ','
  exact hcs ▸ infix_intercalate h

/-! ## Clean names -/

/-- A name that an assignment can carry. -/
structure IsClean (name : String) : Prop where
  nonempty : name ≠ ""
  trimmed : Text.strip name = name
  noComma : ',' ∉ name.toList
  noArrow : ¬arrow <:+: name.toList

theorem names_eq (piece : List Char) : names piece =
    (((piece.splitOn ',').map (Text.trim Text.isBlank)).filter (!·.isEmpty)).map String.ofList := by
  rw [names, splitCommas_eq]

/-- There are as many names as there are pieces that are not blank. -/
theorem length_names (piece : List Char) : (names piece).length =
    (piece.splitOn ',').countP fun p => !p.all Text.isBlank := by
  rw [names_eq, List.length_map, ← List.countP_eq_length_filter, List.countP_map]
  refine List.countP_congr fun p _ => ?_
  simp only [Function.comp_apply, Bool.not_eq_true', ← Bool.not_eq_true, List.isEmpty_iff,
    Text.trim_eq_nil_iff]

theorem isClean_of_mem_names (h : arrows piece = 0) (hn : n ∈ names piece) : IsClean n := by
  rw [names_eq, List.mem_map] at hn
  obtain ⟨cs, hcs, rfl⟩ := hn
  rw [List.mem_filter, List.mem_map] at hcs
  obtain ⟨⟨p, hp, rfl⟩, hne⟩ := hcs
  have hsub : Text.trim Text.isBlank p <:+: p := Text.trim_infix _ _
  constructor
  · simpa using hne
  · rw [Text.strip_eq_self_iff, String.toList_ofList]
    exact Text.trimmed_trim _ _
  · rw [String.toList_ofList]
    exact fun hc => not_mem_of_mem_splitOn hp (hsub.subset hc)
  · rw [String.toList_ofList, ← arrows_eq_zero_iff]
    exact arrows_of_infix (hsub.trans (infix_of_mem_splitOn hp)) h

theorem IsClean.trim_eq (h : IsClean n) : Text.trim Text.isBlank n.toList = n.toList :=
  Text.trim_eq_self_iff.2 (Text.strip_eq_self_iff.1 h.trimmed)

theorem IsClean.arrows_eq_zero (h : IsClean n) : arrows n.toList = 0 :=
  arrows_eq_zero_iff.2 h.noArrow

/-! ## Names between commas -/

/-- A clean name is read back, also with a blank behind it. -/
theorem names_of_trim (hn : IsClean n) (hc : ',' ∉ piece)
    (h : Text.trim Text.isBlank piece = n.toList) : names piece = [n] := by
  rw [names_eq, List.splitOn_eq_singleton hc, List.map_singleton, h, List.filter_cons_of_pos]
  · simp
  · simpa using hn.nonempty

theorem names_append_comma (left right : List Char) :
    names (left ++ ',' :: right) = names left ++ names right := by
  simp only [names_eq, List.splitOn_append_cons_self, List.map_append, List.filter_append]

theorem names_cons_of_isBlank (h : Text.isBlank c) (cs : List Char) :
    names (c :: cs) = names cs := by
  have hc : ¬(c == ',') = true := by
    rw [beq_iff_eq]
    rintro rfl
    exact absurd h (by decide)
  obtain ⟨p, ps, hps⟩ := List.exists_cons_of_ne_nil (List.splitOn_ne_nil ',' cs)
  rw [names_eq, names_eq, List.splitOn_cons_eq_if_modifyHead, if_neg hc, hps, List.modifyHead_cons,
    List.map_cons, List.map_cons, Text.trim_cons_of_pos h]

/-- The names that are written with commas between them are read back, and no arrow arises. -/
theorem joined_reads_back {ns : List String} (h : ∀ n ∈ ns, IsClean n) :
    names ((", ".intercalate ns).toList ++ [' ']) = ns ∧
      arrows ((", ".intercalate ns).toList ++ [' ']) = 0 := by
  rw [String.toList_intercalate]
  induction ns with
  | nil => exact ⟨rfl, rfl⟩
  | cons n ns ih =>
    rw [List.forall_mem_cons] at h
    obtain ⟨hn, hns⟩ := h
    cases ns with
    | nil =>
      rw [List.map_singleton, List.intercalate_singleton]
      constructor
      · refine names_of_trim hn (by simpa using hn.noComma) ?_
        rw [Text.trim_snoc_of_pos (by decide), hn.trim_eq]
      · rw [arrows_append _ (by simp), hn.arrows_eq_zero]
        rfl
    | cons m ns =>
      obtain ⟨hnames, harrows⟩ := ih hns
      rw [List.map_cons, List.map_cons, List.intercalate_cons_cons, ← List.map_cons]
      -- The first comma ends the first name. The blank behind it is cut off when the second one is
      -- read.
      have hcut : n.toList ++ ", ".toList ++ (", ".toList).intercalate ((m :: ns).map String.toList)
          ++ [' '] = n.toList ++ ',' :: ' ' ::
            ((", ".toList).intercalate ((m :: ns).map String.toList) ++ [' ']) := by
        simp
      rw [hcut]
      constructor
      · rw [names_append_comma, names_cons_of_isBlank (by decide), hnames,
          names_of_trim hn hn.noComma hn.trim_eq]
        rfl
      · rw [arrows_append _ (by simp), hn.arrows_eq_zero, arrows_cons, arrows_cons, harrows]
        simp

/-! ## Reading -/

/-- **What is read.** A text is read by its only arrow: the names before it are the inputs, and the
only name behind it is the output. -/
theorem parse_eq_ok_iff : parse text = .ok a ↔ ∃ left right, text.toList = left ++ arrow ++ right ∧
    arrows left = 0 ∧ arrows right = 0 ∧ names left = a.inputs ∧ names right = [a.output] := by
  constructor
  · intro h
    unfold parse at h
    split at h
    · next left right hsplit =>
      obtain ⟨htext, hleft, hright⟩ := splitArrows_eq_pair_iff.1 hsplit
      split at h
      · next output hnames =>
        obtain rfl := Except.ok.inj h
        exact ⟨left, right, htext, hleft, hright, rfl, hnames⟩
      · cases h
    · cases h
    · cases h
    · cases h
  · rintro ⟨left, right, htext, hleft, hright, hinputs, houtput⟩
    have hsplit := splitArrows_eq_pair_iff.2 ⟨htext, hleft, hright⟩
    simp only [parse, hsplit, houtput, hinputs]

theorem isClean_of_parse (h : parse text = .ok a) : ∀ n ∈ a.output :: a.inputs, IsClean n := by
  obtain ⟨left, right, -, hleft, hright, hinputs, houtput⟩ := parse_eq_ok_iff.1 h
  rw [List.forall_mem_cons, ← hinputs]
  refine ⟨isClean_of_mem_names hright ?_, fun n => isClean_of_mem_names hleft⟩
  rw [houtput]
  exact List.mem_singleton_self _

/-- **Reading what has been written.** An assignment of clean names reads back. -/
theorem parse_render (h : ∀ n ∈ a.output :: a.inputs, IsClean n) : parse a.render = .ok a := by
  rw [List.forall_mem_cons] at h
  obtain ⟨houtput, hinputs⟩ := h
  obtain ⟨hnames, harrows⟩ := joined_reads_back hinputs
  refine parse_eq_ok_iff.2 ⟨_, ' ' :: a.output.toList, ?_, harrows, ?_, hnames, ?_⟩
  · simp [render, arrow]
  · rw [arrows_cons, houtput.arrows_eq_zero]
    simp
  · rw [names_cons_of_isBlank (by decide), names_of_trim houtput houtput.noComma houtput.trim_eq]

/-- A text is read if it has one arrow and one piece behind it that is not blank. -/
theorem exists_parse_eq_ok_iff : (∃ a, parse text = .ok a) ↔ arrows text.toList = 1 ∧
    ∃ left right, text.toList = left ++ arrow ++ right ∧
      (right.splitOn ',').countP (fun p => !p.all Text.isBlank) = 1 := by
  constructor
  · rintro ⟨a, h⟩
    obtain ⟨left, right, htext, hleft, hright, -, houtput⟩ := parse_eq_ok_iff.1 h
    refine ⟨?_, left, right, htext, ?_⟩
    · rw [htext, arrows_append_arrow, hleft, hright]
    · rw [← length_names, houtput, List.length_singleton]
  · rintro ⟨hone, left, right, htext, hcount⟩
    rw [htext, arrows_append_arrow] at hone
    rw [← length_names, List.length_eq_one_iff] at hcount
    obtain ⟨output, houtput⟩ := hcount
    exact ⟨⟨names left, output⟩,
      parse_eq_ok_iff.2 ⟨left, right, htext, by omega, by omega, rfl, houtput⟩⟩

end Assignment

/-! ## Declared operations -/

namespace Operation

variable {V E : Type} {op : Operation V E} {impl : Option (Implementation V E)}

theorem asOutput_str {output name : String} (h : asOutput (.str output) = .ok name) :
    name = output := by
  simp only [asOutput, Json.asString_str] at h
  split at h
  · cases h
  · exact (Except.ok.inj h).symm

theorem assignment_of_ofFields {fs : Fields} {a : Assignment}
    (houtput : fs.find? "output" = some (.str a.output))
    (hinputs : fs.find? "inputs" = some (.ofNames a.inputs)) (h : ofFields fs impl = .ok op) :
    op.assignment = a := by
  unfold ofFields at h
  obtain ⟨_, isAsync, h₃, -, hop⟩ := Checked.ap_eq_ok_iff.1 h
  obtain ⟨_, i, h₂, -, rfl⟩ := Checked.ap_eq_ok_iff.1 h₃
  obtain ⟨_, inputs, h₁, hi, rfl⟩ := Checked.ap_eq_ok_iff.1 h₂
  obtain ⟨_, output, h₀, ho, rfl⟩ := Checked.ap_eq_ok_iff.1 h₁
  obtain rfl := Except.ok.inj h₀
  rw [Fields.optional_of_find? hinputs (Json.asSequence_ofNames _ _)] at hi
  rw [Fields.required, houtput] at ho
  rw [← hop, assignment, ← Except.ok.inj hi, asOutput_str (Checked.within_eq_ok_iff.1 ho)]

/-- An operation that a text declares has the names that are read from the text. -/
theorem parse_of_ofAssignment {text : String} {isAsync : Option Json}
    (h : ofAssignment text impl isAsync = .ok op) : Assignment.parse text = .ok op.assignment := by
  unfold ofAssignment at h
  split at h
  · cases h
  · next a hparse =>
    simp only at h
    generalize hfields : ofFields _ impl = x at h
    cases x with
    | error issues => cases h
    | ok op' =>
      obtain rfl : op' = op := Except.ok.inj h
      rw [hparse, assignment_of_ofFields ?_ ?_ hfields] <;> cases isAsync <;> rfl

end Operation

namespace Assignment

/-- **Assignments read back.** The names that are read from a text are clean, and whatever operation
has them, its assignment reads back as the same names in the same order. The assignment of an
operation reads back just in case its names are clean. A text is read just in case it has exactly
one arrow and, among the pieces between the commas behind it, exactly one that is not blank. -/
theorem assignments_read_back (V E : Type) (text : String) :
    (∀ a, parse text = .ok a → (∀ n ∈ a.output :: a.inputs, IsClean n) ∧
      ∀ op : Operation V E, op.inputs = a.inputs → op.output = a.output →
        parse op.assignment.render = .ok a) ∧
    (∀ op : Operation V E,
      parse op.assignment.render = .ok { inputs := op.inputs, output := op.output } ↔
        ∀ n ∈ op.output :: op.inputs, IsClean n) ∧
    (∀ (op : Operation V E) (impl : Option (Implementation V E)) (isAsync : Option Json),
      Operation.ofAssignment text impl isAsync = .ok op → parse text = .ok op.assignment) ∧
    ((∃ a, parse text = .ok a) ↔ arrows text.toList = 1 ∧
      ∃ left right, text.toList = left ++ arrow ++ right ∧
        (right.splitOn ',').countP (fun p => !p.all Text.isBlank) = 1) := by
  refine ⟨fun a h => ?_, fun op => ⟨fun h => ?_, fun h => ?_⟩, fun op impl isAsync h => ?_, ?_⟩
  · have hclean := isClean_of_parse h
    refine ⟨hclean, fun op hinputs houtput => ?_⟩
    have ha : op.assignment = a := by rw [Operation.assignment, hinputs, houtput]
    rw [ha]
    exact parse_render hclean
  · exact isClean_of_parse h
  · exact parse_render (a := op.assignment) h
  · exact Operation.parse_of_ofAssignment h
  · exact exists_parse_eq_ok_iff

/-- The theorem at names that begin or end with half an arrow, written with blank pieces. -/
theorem assignments_read_back_of_half_arrows :
    let op : Operation Nat Unit :=
      { output := ">c", inputs := ["a-", "b  -"], isAsync := false
        impl := { label := "c", style := .plain, pauses := 0, apply := fun vs => .ok vs.sum } }
    let text := " a-,, b  - ->>c ,\t"
    parse text = .ok op.assignment ∧ (∀ n ∈ op.output :: op.inputs, IsClean n) ∧
      op.assignment.render = "a-, b  - -> >c" ∧
      parse op.assignment.render = .ok op.assignment := by
  intro op text
  have hread : parse text = .ok op.assignment := by decide
  obtain ⟨hnames, -⟩ := assignments_read_back Nat Unit text
  obtain ⟨hclean, hback⟩ := hnames _ hread
  exact ⟨hread, hclean, by decide, hback op rfl rfl⟩

end Assignment

end DemandPlan
