import Mathlib.Data.List.Forall2

/-!
# Lists of outcomes

Going through a list, with an outcome for each element, ends with all values or with the first
failure.

* `mapM_eq_ok_iff`: all values, one for each element, in order.
* `mapM_eq_error_iff`: the failure of the leftmost element without a value.
-/

namespace DemandPlan.Outcome

variable {F G α β γ : Type}

/-! ## Related lists -/

theorem exists_of_forall₂ {R : α → β → Prop} {l : List α} {vs : List β} (h : List.Forall₂ R l vs)
    {a : α} (ha : a ∈ l) : ∃ v ∈ vs, R a v := by
  induction h with
  | nil => cases ha
  | cons hv _ ih =>
    rcases List.mem_cons.1 ha with rfl | ha
    · exact ⟨_, List.mem_cons_self, hv⟩
    · obtain ⟨v, hv, hr⟩ := ih ha
      exact ⟨v, List.mem_cons_of_mem _ hv, hr⟩

theorem forall₂_imp_mem {R S : α → β → Prop} {l : List α} {vs : List β} (h : List.Forall₂ R l vs)
    (hRS : ∀ a ∈ l, ∀ v, R a v → S a v) : List.Forall₂ S l vs := by
  have hand := (List.forall₂_and_left (p := (· ∈ l)) l vs).2 ⟨fun _ ha => ha, h⟩
  exact hand.imp fun a v hv => hRS a hv.1 v hv.2

/-! ## Outcomes for a list -/

theorem mapM_cons_of_ok {f : α → Except F β} {a : α} {v : β} (h : f a = .ok v) (l : List α) :
    (a :: l).mapM f = (l.mapM f).map (v :: ·) := by
  rw [List.mapM_cons, h]
  cases l.mapM f <;> rfl

theorem mapM_cons_of_error {f : α → Except F β} {a : α} {e : F} (h : f a = .error e)
    (l : List α) : (a :: l).mapM f = .error e := by
  rw [List.mapM_cons, h]
  rfl

theorem mapM_congr {f g : α → Except F β} {l : List α} (h : ∀ a ∈ l, f a = g a) :
    l.mapM f = l.mapM g := by
  induction l with
  | nil => rfl
  | cons a l ih =>
    rw [List.mapM_cons, List.mapM_cons, h a List.mem_cons_self,
      ih fun b hb => h b (List.mem_cons_of_mem _ hb)]

theorem mapM_eq_ok_iff {f : α → Except F β} {l : List α} {vs : List β} :
    l.mapM f = .ok vs ↔ List.Forall₂ (fun a v => f a = .ok v) l vs := by
  induction l generalizing vs with
  | nil =>
    rw [List.forall₂_nil_left_iff]
    exact ⟨fun h => (Except.ok.inj h).symm, fun h => h ▸ rfl⟩
  | cons a l ih =>
    rw [List.forall₂_cons_left_iff]
    cases ha : f a with
    | error e =>
      rw [mapM_cons_of_error ha]
      exact ⟨fun h => (nomatch h), fun ⟨_, _, h, _⟩ => (nomatch h)⟩
    | ok v =>
      rw [mapM_cons_of_ok ha]
      constructor
      · intro h
        cases hl : l.mapM f with
        | error e => rw [hl] at h; cases h
        | ok ws =>
          rw [hl] at h
          exact ⟨v, ws, rfl, ih.1 hl, (Except.ok.inj h).symm⟩
      · rintro ⟨w, ws, hw, hws, rfl⟩
        rw [ih.2 hws, Except.ok.inj hw]
        rfl

theorem mapM_eq_ok_map {f : α → Except F β} {g : α → β} {l : List α}
    (h : ∀ a ∈ l, f a = .ok (g a)) : l.mapM f = .ok (l.map g) := by
  rw [mapM_eq_ok_iff, List.forall₂_map_right_iff, List.forall₂_same]
  exact h

theorem exists_ok_of_mapM {f : α → Except F β} {l : List α} {vs : List β}
    (h : l.mapM f = .ok vs) {a : α} (ha : a ∈ l) : ∃ v ∈ vs, f a = .ok v :=
  exists_of_forall₂ (mapM_eq_ok_iff.1 h) ha

/-- If each value is also the value of another function, so are all of them. -/
theorem mapM_ok_imp {f : α → Except F β} {g : α → Except G β} {l : List α} {vs : List β}
    (h : l.mapM f = .ok vs) (hfg : ∀ a ∈ l, ∀ v, f a = .ok v → g a = .ok v) :
    l.mapM g = .ok vs := by
  rw [mapM_eq_ok_iff] at h ⊢
  exact forall₂_imp_mem h hfg

theorem mapM_ok_of_forall {f : α → Except F β} {l : List α} (h : ∀ a ∈ l, ∃ v, f a = .ok v) :
    ∃ vs, l.mapM f = .ok vs := by
  induction l with
  | nil => exact ⟨[], rfl⟩
  | cons a l ih =>
    obtain ⟨v, hv⟩ := h a List.mem_cons_self
    obtain ⟨vs, hvs⟩ := ih fun b hb => h b (List.mem_cons_of_mem _ hb)
    exact ⟨v :: vs, by rw [mapM_cons_of_ok hv, hvs]; rfl⟩

/-- An element of a list before which all elements are good. -/
inductive Leftmost (good : α → Prop) : List α → α → Prop
  | head {a : α} {l : List α} : Leftmost good (a :: l) a
  | tail {a b : α} {l : List α} : good b → Leftmost good l a → Leftmost good (b :: l) a

theorem leftmost_iff {good : α → Prop} {l : List α} {a : α} : Leftmost good l a ↔
    ∃ done rest, l = done ++ a :: rest ∧ ∀ b ∈ done, good b := by
  constructor
  · intro h
    induction h with
    | @head a l => exact ⟨[], l, rfl, fun _ hb => nomatch hb⟩
    | @tail a b l hb _ ih =>
      obtain ⟨done, rest, rfl, hdone⟩ := ih
      exact ⟨b :: done, rest, rfl, List.forall_mem_cons.2 ⟨hb, hdone⟩⟩
  · rintro ⟨done, rest, rfl, hdone⟩
    induction done with
    | nil => exact .head
    | cons b done ih =>
      rw [List.forall_mem_cons] at hdone
      exact .tail hdone.1 (ih hdone.2)

/-- It is the element with the least index that is not good, if it is not good itself. -/
theorem leftmost_iff_getElem? {good : α → Prop} {l : List α} {a : α} : Leftmost good l a ↔
    ∃ i : Nat, l[i]? = some a ∧ ∀ j < i, ∀ b, l[j]? = some b → good b := by
  constructor
  · intro h
    induction h with
    | head => exact ⟨0, rfl, fun _ hj => absurd hj (Nat.not_lt_zero _)⟩
    | tail hb _ ih =>
      obtain ⟨i, hi, hbefore⟩ := ih
      refine ⟨i + 1, hi, fun j hj b hget => ?_⟩
      cases j with
      | zero => exact Option.some.inj hget ▸ hb
      | succ j => exact hbefore j (Nat.lt_of_succ_lt_succ hj) b hget
  · rintro ⟨i, hi, hbefore⟩
    induction l generalizing i with
    | nil => cases hi
    | cons b l ih =>
      cases i with
      | zero => exact Option.some.inj hi ▸ .head
      | succ i =>
        refine .tail (hbefore 0 (Nat.succ_pos i) b rfl) (ih i hi fun j hj c hc => ?_)
        exact hbefore (j + 1) (Nat.succ_lt_succ hj) c hc

theorem Leftmost.mem {good : α → Prop} {l : List α} {a : α} (h : Leftmost good l a) : a ∈ l := by
  induction h with
  | head => exact List.mem_cons_self
  | tail _ _ ih => exact List.mem_cons_of_mem _ ih

theorem Leftmost.imp_mem {good good' : α → Prop} {l : List α} {a : α} (h : Leftmost good l a)
    (hgood : ∀ b ∈ l, good b → good' b) : Leftmost good' l a := by
  induction h with
  | head => exact .head
  | tail hb _ ih =>
    rw [List.forall_mem_cons] at hgood
    exact .tail (hgood.1 hb) (ih hgood.2)

/-- The failure is that of the leftmost element that has no value. -/
theorem mapM_eq_error_iff {f : α → Except F β} {l : List α} {e : F} : l.mapM f = .error e ↔
    ∃ a, Leftmost (fun b => ∃ v, f b = .ok v) l a ∧ f a = .error e := by
  constructor
  · intro h
    induction l with
    | nil => cases h
    | cons a l ih =>
      cases ha : f a with
      | error e' =>
        rw [mapM_cons_of_error ha] at h
        exact ⟨a, .head, ha.trans (congrArg _ (Except.error.inj h))⟩
      | ok v =>
        rw [mapM_cons_of_ok ha] at h
        have hl : l.mapM f = .error e := by
          cases hl : l.mapM f with
          | error e' => rw [hl] at h; exact congrArg _ (Except.error.inj h)
          | ok vs => rw [hl] at h; cases h
        obtain ⟨b, hleft, hb⟩ := ih hl
        exact ⟨b, .tail ⟨v, ha⟩ hleft, hb⟩
  · rintro ⟨a, h, ha⟩
    induction h with
    | head => exact mapM_cons_of_error ha _
    | tail hb _ ih =>
      obtain ⟨v, hv⟩ := hb
      rw [mapM_cons_of_ok hv, ih ha]
      rfl

/-! ## Failures and where they come from -/

section Failures

variable {f : F}

theorem pure_ne_error (a : α) : (pure a : Except F α) ≠ .error f := fun h => nomatch h

theorem bind_eq_error_iff {x : Except F α} {k : α → Except F β} :
    x >>= k = .error f ↔ x = .error f ∨ ∃ a, x = .ok a ∧ k a = .error f := by
  cases x <;> simp [bind, Except.bind]

theorem bind_ne_error {x : Except F α} {k : α → Except F β} (hx : x ≠ .error f)
    (hk : ∀ a, k a ≠ .error f) : x >>= k ≠ .error f := fun h =>
  (bind_eq_error_iff.1 h).elim hx fun ⟨a, _, ha⟩ => hk a ha

theorem mapM_ne_error {g : α → Except F β} {l : List α} (h : ∀ a ∈ l, g a ≠ .error f) :
    l.mapM g ≠ .error f := by
  intro hl
  obtain ⟨a, hleft, ha⟩ := mapM_eq_error_iff.1 hl
  exact h a hleft.mem ha

theorem exists_of_foldlM_eq_error {g : β → α → Except F β} {l : List α} {b : β}
    (h : l.foldlM g b = .error f) : ∃ b', ∃ a ∈ l, g b' a = .error f := by
  induction l generalizing b with
  | nil => exact absurd h (pure_ne_error b)
  | cons a l ih =>
    rw [List.foldlM_cons] at h
    rcases bind_eq_error_iff.1 h with h | ⟨b', -, h⟩
    · exact ⟨b, a, List.mem_cons_self, h⟩
    · obtain ⟨b', c, hc, h⟩ := ih h
      exact ⟨b', c, List.mem_cons_of_mem _ hc, h⟩

theorem foldlM_ne_error {g : β → α → Except F β} (h : ∀ b a, g b a ≠ .error f)
    (l : List α) (b : β) : l.foldlM g b ≠ .error f := fun hl =>
  have ⟨b', a, _, ha⟩ := exists_of_foldlM_eq_error hl
  h b' a ha

end Failures

/-! ## Two outcomes -/

/-- Two outcomes with related values, or with the same failure. -/
def Agree (R : α → β → Prop) : Except F α → Except F β → Prop
  | .ok a, .ok b => R a b
  | .error f, .error g => f = g
  | _, _ => False

theorem Agree.refl {R : α → α → Prop} (hr : ∀ a, R a a) (x : Except F α) : Agree R x x := by
  cases x with
  | error f => rfl
  | ok a => exact hr a

theorem Agree.cases {R : α → β → Prop} {x : Except F α} {y : Except F β} (h : Agree R x y) :
    (∃ e, x = .error e ∧ y = .error e) ∨ ∃ a b, x = .ok a ∧ y = .ok b ∧ R a b := by
  cases x with
  | error e =>
    cases y with
    | error e' => exact .inl ⟨e, rfl, congrArg _ (Eq.symm h)⟩
    | ok b => exact h.elim
  | ok a =>
    cases y with
    | error e => exact h.elim
    | ok b => exact .inr ⟨a, b, rfl, rfl, h⟩

theorem exists_of_map_eq_ok {f : α → β} {x : Except F α} {b : β} (h : x.map f = .ok b) :
    ∃ a, x = .ok a ∧ f a = b := by
  cases x with
  | error e => cases h
  | ok a => exact ⟨a, rfl, Except.ok.inj h⟩

theorem eq_of_map_eq_error {f : α → β} {x : Except F α} {e : F} (h : x.map f = .error e) :
    x = .error e := by
  cases x with
  | error e' => exact congrArg _ (Except.error.inj h)
  | ok a => cases h

/-- An outcome that is another one but for the form of its values and of its failures. -/
theorem cases_of_map_eq_mapError {f : α → β} {g : G → F} {x : Except F α} {y : Except G β}
    (h : x.map f = y.mapError g) :
    (∃ e, x = .error (g e) ∧ y = .error e) ∨ ∃ a, x = .ok a ∧ y = .ok (f a) := by
  cases y with
  | error e => exact .inl ⟨e, eq_of_map_eq_error h, rfl⟩
  | ok b =>
    obtain ⟨a, rfl, rfl⟩ := exists_of_map_eq_ok h
    exact .inr ⟨a, rfl, rfl⟩

theorem agree_of_map_eq {f : α → β} {x y : Except F α} (h : x.map f = y.map f) :
    Agree (fun a b => f a = f b) x y := by
  cases x with
  | error f =>
    cases y with
    | error g => exact Except.error.inj h
    | ok b => cases h
  | ok a =>
    cases y with
    | error g => cases h
    | ok b => exact Except.ok.inj h

end DemandPlan.Outcome
