import DemandPlan.Proofs.Registration
import Mathlib

/-!
# The history of a registry

A registry is asked for one change after the other, and some of them it refuses. Its history is the
list of the changes that were made: a registration or a removal each. The history tells all about
the registry: which operation a name has, in which order the names are, and the version.

* `Registry.history`: the changes that requests make.
* `LastRegistered`, `Entered`: what the history says about a name.
* `Shows`: a registry that shows its history; `Shows.place` and `Shows.remove` are the two steps.
* `ordered_last_write`: after any requests, a registry shows its history.
-/

namespace DemandPlan.Registry

variable {V E : Type}

/-! ## Requests and changes -/

/-- What a registry can be asked to change. -/
inductive Request (V E : Type)
  | register (op : Operation V E) (override : Option Bool)
  | registerMany (ops : List (Operation V E))
  | remove (name : String)

/-- What happens to a registry. -/
inductive Change (V E : Type)
  | registered (op : Operation V E)
  | removed (name : String)

/-- The name that a change is about. -/
def Change.name : Change V E → String
  | .registered op => op.output
  | .removed name => name

@[simp] theorem Change.name_registered (op : Operation V E) :
    (Change.registered op).name = op.output := rfl

@[simp] theorem Change.name_removed (name : String) :
    (Change.removed name : Change V E).name = name := rfl

/-- The registry after a request. -/
def perform (r : Registry V E) : Request V E → Registry V E
  | .register op override =>
    match r.register op override with
    | .ok r' => r'
    | .error _ => r
  | .registerMany ops => (r.registerMany ops).1
  | .remove name => r.remove name

/-- The operations of a list that are registered, which are those before the first refused one. -/
def accepted (r : Registry V E) : List (Operation V E) → List (Operation V E)
  | [] => []
  | op :: ops =>
    match r.register op with
    | .ok r' => op :: r'.accepted ops
    | .error _ => []

/-- The changes that a request makes: none if it is refused. -/
def changes (r : Registry V E) : Request V E → List (Change V E)
  | .register op override =>
    match r.register op override with
    | .ok _ => [.registered op]
    | .error _ => []
  | .registerMany ops => (r.accepted ops).map .registered
  | .remove name => if r.contains name then [.removed name] else []

/-- The registry after some requests. -/
def after (r : Registry V E) (requests : List (Request V E)) : Registry V E :=
  requests.foldl perform r

/-- The changes that some requests make, one after the other. -/
def history (r : Registry V E) : List (Request V E) → List (Change V E)
  | [] => []
  | q :: requests => r.changes q ++ (r.perform q).history requests

/-! ## What a history says about a name -/

/-- The last change of a name is the registration of this operation. -/
def LastRegistered (h : List (Change V E)) (name : String) (op : Operation V E) : Prop :=
  op.output = name ∧
    ∃ before after, h = before ++ .registered op :: after ∧ ∀ c ∈ after, c.name ≠ name

/-- A registration of a name that the history has at a place. -/
def RegisteredAt (h : List (Change V E)) (name : String) (i : Nat) : Prop :=
  ∃ op, h[i]? = some (.registered op) ∧ op.output = name

/-- The first registration of a name since its last removal stands at a place of the history: after
it the name has not been removed, and after every registration before it the name has been. -/
@[mk_iff]
structure Entered (h : List (Change V E)) (name : String) (i : Nat) : Prop where
  registered : RegisteredAt h name i
  kept : ∀ k, i < k → h[k]? ≠ some (.removed name)
  first : ∀ j, j < i → RegisteredAt h name j → ∃ k, j < k ∧ k < i ∧ h[k]? = some (.removed name)

variable {r r' : Registry V E} {h : List (Change V E)} {c : Change V E} {op : Operation V E}
  {name : String} {i j : Nat}

theorem lastRegistered_snoc_iff : LastRegistered (h ++ [c]) name op ↔
    c = .registered op ∧ op.output = name ∨ c.name ≠ name ∧ LastRegistered h name op := by
  constructor
  · rintro ⟨hop, before, after, heq, hafter⟩
    rcases List.eq_nil_or_concat' after with rfl | ⟨after, d, rfl⟩
    · obtain rfl := List.singleton_inj.1 (List.append_inj_right' heq rfl)
      exact .inl ⟨rfl, hop⟩
    · rw [List.forall_mem_append] at hafter
      rw [← List.cons_append, ← List.append_assoc] at heq
      obtain ⟨rfl, hd⟩ := List.append_inj' heq rfl
      obtain rfl := List.singleton_inj.1 hd
      exact .inr ⟨hafter.2 c (List.mem_singleton_self c), hop, before, after, rfl, hafter.1⟩
  · rintro (⟨rfl, hop⟩ | ⟨hc, hop, before, after, rfl, hafter⟩)
    · exact ⟨hop, h, [], rfl, fun _ hmem => absurd hmem List.not_mem_nil⟩
    · refine ⟨hop, before, after ++ [c], by simp, ?_⟩
      rw [List.forall_mem_append]
      exact ⟨hafter, by simpa using hc⟩

theorem getElem?_snoc_eq_some_iff {d : Change V E} :
    (h ++ [c])[i]? = some d ↔ h[i]? = some d ∨ i = h.length ∧ c = d := by
  rcases Nat.lt_trichotomy i h.length with hi | rfl | hi
  · rw [List.getElem?_append_left hi]
    simp [hi.ne]
  · simp
  · rw [List.getElem?_eq_none (by simpa using hi), List.getElem?_eq_none hi.le]
    simp [hi.ne']

theorem registeredAt_snoc_iff : RegisteredAt (h ++ [c]) name i ↔
    RegisteredAt h name i ∨ i = h.length ∧ ∃ op, c = .registered op ∧ op.output = name := by
  simp only [RegisteredAt, getElem?_snoc_eq_some_iff]
  grind

theorem RegisteredAt.lt (hi : RegisteredAt h name i) : i < h.length := by
  obtain ⟨op, hget, -⟩ := hi
  exact (List.getElem?_eq_some_iff.1 hget).1

/-! ## Places in a history -/

/-- There is one such place at most. -/
theorem Entered.unique (hi : Entered h name i) (hj : Entered h name j) : i = j := by
  have hle : ∀ {i j}, Entered h name i → Entered h name j → j ≤ i := by
    intro i j hi hj
    by_contra hlt
    obtain ⟨k, hik, -, hk⟩ := hj.first i (Nat.lt_of_not_le hlt) hi.registered
    exact hi.kept k hik hk
  exact Nat.le_antisymm (hle hj hi) (hle hi hj)

/-- A name that has been registered and not been removed since has such a place. -/
theorem exists_entered (hj : RegisteredAt h name j)
    (hkept : ∀ k, j < k → h[k]? ≠ some (.removed name)) : ∃ i, Entered h name i := by
  classical
  have hex : ∃ i, RegisteredAt h name i ∧ ∀ k, i < k → h[k]? ≠ some (.removed name) :=
    ⟨j, hj, hkept⟩
  refine ⟨Nat.find hex, (Nat.find_spec hex).1, (Nat.find_spec hex).2, fun j hlt hj => ?_⟩
  by_contra hnot
  -- An earlier registration without a removal up to the least one would be less.
  refine Nat.find_min hex hlt ⟨hj, fun k hjk hk => ?_⟩
  rcases Nat.lt_trichotomy k (Nat.find hex) with hlt' | heq | hgt
  · exact hnot ⟨k, hjk, hlt', hk⟩
  · obtain ⟨op, hop, -⟩ := (Nat.find_spec hex).1
    rw [← heq, hk] at hop
    cases hop
  · exact (Nat.find_spec hex).2 k hgt hk

theorem entered_snoc_of_ne (hc : c.name ≠ name) : Entered (h ++ [c]) name i ↔ Entered h name i := by
  have hregistered : ∀ j, RegisteredAt (h ++ [c]) name j ↔ RegisteredAt h name j := by
    intro j
    rw [registeredAt_snoc_iff, or_iff_left]
    rintro ⟨-, op, rfl, rfl⟩
    exact hc rfl
  have hremoved : ∀ k : Nat, (h ++ [c])[k]? = some (Change.removed name) ↔
      h[k]? = some (Change.removed name) := by
    intro k
    rw [getElem?_snoc_eq_some_iff, or_iff_left]
    rintro ⟨-, rfl⟩
    exact hc rfl
  simp only [entered_iff, hregistered, ne_eq, hremoved]

/-- Registering a name again does not move it. -/
theorem Entered.snoc_registered (hi : Entered h name i) (op : Operation V E) :
    Entered (h ++ [.registered op]) name i where
  registered := registeredAt_snoc_iff.2 (.inl hi.registered)
  kept k hk hget := by
    rcases getElem?_snoc_eq_some_iff.1 hget with hget | ⟨-, hc⟩
    · exact hi.kept k hk hget
    · cases hc
  first j hj hjr := by
    rcases registeredAt_snoc_iff.1 hjr with hjr | ⟨rfl, -⟩
    · obtain ⟨k, hjk, hki, hk⟩ := hi.first j hj hjr
      exact ⟨k, hjk, hki, getElem?_snoc_eq_some_iff.2 (.inl hk)⟩
    · exact absurd (hj.trans hi.registered.lt) (Nat.lt_irrefl _)

/-- A name that is not registered comes in at the end. -/
theorem entered_snoc_registered (hnew : ∀ i, ¬Entered h op.output i) :
    Entered (h ++ [.registered op]) op.output h.length where
  registered := registeredAt_snoc_iff.2 (.inr ⟨rfl, op, rfl, rfl⟩)
  kept k hk hget := by
    rcases getElem?_snoc_eq_some_iff.1 hget with hget | ⟨rfl, -⟩
    · exact absurd ((List.getElem?_eq_some_iff.1 hget).1.trans hk) (Nat.lt_irrefl _)
    · exact absurd hk (Nat.lt_irrefl _)
  first j hj hjr := by
    rcases registeredAt_snoc_iff.1 hjr with hjr | ⟨rfl, -⟩
    · by_contra hnot
      obtain ⟨i, hi⟩ := exists_entered hjr fun k hjk hk => hnot
        ⟨k, hjk, (List.getElem?_eq_some_iff.1 hk).1, getElem?_snoc_eq_some_iff.2 (.inl hk)⟩
      exact hnew i hi
    · exact absurd hj (Nat.lt_irrefl _)

theorem not_entered_snoc_removed : ¬Entered (h ++ [.removed name]) name i := by
  intro hi
  rcases registeredAt_snoc_iff.1 hi.registered with hr | ⟨-, op, hc, -⟩
  · exact hi.kept h.length hr.lt (getElem?_snoc_eq_some_iff.2 (.inr ⟨rfl, rfl⟩))
  · cases hc

/-! ## One change -/

/-- A registry that shows its history: each name has the operation of its last registration, the
names are in the order in which they came in, and the version counts the changes. -/
structure Shows (h : List (Change V E)) (r : Registry V E) : Prop where
  lookup_iff : ∀ name op, r.lookup name = some op ↔ LastRegistered h name op
  mem_names_iff : ∀ name, name ∈ r.names ↔ ∃ i, Entered h name i
  ascending : r.names.Pairwise fun m n => ∀ i j, Entered h m i → Entered h n j → i < j
  version : r.version = h.length

namespace Shows

theorem empty (onDuplicate : DuplicatePolicy) : Shows (V := V) (E := E) [] { onDuplicate } where
  lookup_iff name op := by simp [lookup, LastRegistered]
  mem_names_iff name := by simp [names, entered_iff, RegisteredAt]
  ascending := List.Pairwise.nil
  version := rfl

theorem entered_of_snoc (hs : Shows h r) (hname : name ∈ r.names)
    (hi : Entered (h ++ [.registered op]) name i) : Entered h name i := by
  obtain ⟨j, hj⟩ := (hs.mem_names_iff name).1 hname
  exact (hj.snoc_registered op).unique hi ▸ hj

theorem place (hs : Shows h r) (op : Operation V E) :
    Shows (h ++ [.registered op]) (r.place op) where
  lookup_iff name op' := by
    rw [lookup_place, lastRegistered_snoc_iff, ← hs.lookup_iff]
    by_cases hn : name = op.output
    · subst hn
      simp only [if_true, Change.name_registered, ne_eq, not_true_eq_false, false_and, or_false,
        Option.some.injEq, Change.registered.injEq]
      exact ⟨fun h => ⟨h, h ▸ rfl⟩, fun h => h.1⟩
    · have hc : (Change.registered op).name ≠ name := Ne.symm hn
      rw [if_neg hn, or_iff_right, and_iff_right hc]
      rintro ⟨hop, rfl⟩
      cases hop
      exact hn rfl
  mem_names_iff name := by
    rw [names_place]
    by_cases hn : name = op.output
    · subst hn
      by_cases hmem : op.output ∈ r.names
      · -- The name is registered already and keeps its place.
        obtain ⟨i, hi⟩ := (hs.mem_names_iff _).1 hmem
        rw [if_pos hmem]
        exact iff_of_true hmem ⟨i, hi.snoc_registered op⟩
      · -- The name is new, or it has been removed: it comes in with this change.
        rw [if_neg hmem]
        refine iff_of_true (by simp) ⟨h.length, entered_snoc_registered fun i hi => ?_⟩
        exact hmem ((hs.mem_names_iff _).2 ⟨i, hi⟩)
    · have hc : (Change.registered op).name ≠ name := Ne.symm hn
      simp only [entered_snoc_of_ne hc, ← hs.mem_names_iff]
      split
      · rfl
      · simp [hn]
  ascending := by
    have hold : r.names.Pairwise fun m n => ∀ i j, Entered (h ++ [.registered op]) m i →
        Entered (h ++ [.registered op]) n j → i < j :=
      hs.ascending.imp_of_mem fun hm hn hlt i j hi hj =>
        hlt i j (hs.entered_of_snoc hm hi) (hs.entered_of_snoc hn hj)
    rw [names_place]
    split
    · exact hold
    · next hmem =>
      -- A name that comes in last stands last.
      refine List.pairwise_append.2 ⟨hold, List.pairwise_singleton _ _, ?_⟩
      intro m hm n hn i j hi hj
      obtain rfl := List.mem_singleton.1 hn
      have hlast : Entered (h ++ [.registered op]) op.output h.length :=
        entered_snoc_registered fun i hi => hmem ((hs.mem_names_iff _).2 ⟨i, hi⟩)
      rw [hj.unique hlast]
      exact (hs.entered_of_snoc hm hi).registered.lt
  version := by rw [version_place, hs.version, List.length_append, List.length_singleton]

theorem remove (hs : Shows h r) (hname : r.contains name) :
    Shows (h ++ [.removed name]) (r.remove name) where
  lookup_iff name' op := by
    rw [lookup_remove, lastRegistered_snoc_iff, ← hs.lookup_iff]
    by_cases hn : name' = name
    · simp [hn]
    · simp [hn, Ne.symm hn]
  mem_names_iff name' := by
    rw [names_remove, List.mem_filter, decide_eq_true_eq]
    -- A removal ends the entry of its own name and no other.
    by_cases hn : name' = name
    · subst hn
      exact iff_of_false (fun h => h.2 rfl) fun ⟨_, hi⟩ => not_entered_snoc_removed hi
    · have hc : (Change.removed (V := V) (E := E) name).name ≠ name' := Ne.symm hn
      simp only [entered_snoc_of_ne hc, ← hs.mem_names_iff]
      exact and_iff_left hn
  ascending := by
    rw [names_remove]
    refine (hs.ascending.filter _).imp_of_mem fun hm hn hlt i j hi hj => ?_
    rw [List.mem_filter, decide_eq_true_eq] at hm hn
    rw [entered_snoc_of_ne (Ne.symm hm.2)] at hi
    rw [entered_snoc_of_ne (Ne.symm hn.2)] at hj
    exact hlt i j hi hj
  version := by
    rw [Registry.remove, if_pos hname, List.length_append, List.length_singleton, ← hs.version]

/-! ## Requests -/

theorem registerMany (hs : Shows h r) (ops : List (Operation V E)) :
    Shows (h ++ (r.accepted ops).map .registered) (r.registerMany ops).1 := by
  induction ops generalizing h r with
  | nil => simpa [accepted, Registry.registerMany] using hs
  | cons op ops ih =>
    cases hr : r.register op with
    | error e =>
      rw [registerMany_cons_of_error hr, accepted, hr]
      simpa using hs
    | ok r' =>
      obtain rfl := eq_place_of_register hr
      rw [registerMany_cons_of_ok hr, accepted, hr]
      simpa using ih (hs.place op)

/-- **One request.** The history goes on with the changes that the request makes. -/
theorem perform (hs : Shows h r) (q : Request V E) : Shows (h ++ r.changes q) (r.perform q) := by
  cases q with
  | register op override =>
    simp only [changes, Registry.perform]
    cases hr : r.register op override with
    | error e => simpa using hs
    | ok r' =>
      obtain rfl := eq_place_of_register hr
      exact hs.place op
  | registerMany ops => exact hs.registerMany ops
  | remove name =>
    simp only [changes, Registry.perform]
    split
    · next hname => exact hs.remove hname
    · next hname =>
      rw [Registry.remove, if_neg hname]
      simpa using hs

/-- **Any requests.** -/
theorem after (hs : Shows h r) (requests : List (Request V E)) :
    Shows (h ++ r.history requests) (r.after requests) := by
  induction requests generalizing h r with
  | nil => simpa [history, Registry.after] using hs
  | cons q requests ih =>
    rw [history, ← List.append_assoc]
    exact ih (hs.perform q)

end Shows

/-! ## What requests keep -/

/-- What every registration and every removal keeps holds after any requests. -/
theorem after_induction {P : Registry V E → Prop} (hplace : ∀ r op, P r → P (r.place op))
    (hremove : ∀ r name, P r → P (r.remove name)) (hr : P r) (requests : List (Request V E)) :
    P (r.after requests) := by
  have hmany : ∀ (ops : List (Operation V E)) {r : Registry V E}, P r →
      P (r.registerMany ops).1 := by
    intro ops
    induction ops with
    | nil => exact id
    | cons op ops ih =>
      intro r hr
      cases hx : r.register op with
      | error e => rwa [registerMany_cons_of_error hx]
      | ok r' =>
        obtain rfl := eq_place_of_register hx
        rw [registerMany_cons_of_ok hx]
        exact ih (hplace r op hr)
  induction requests generalizing r with
  | nil => exact hr
  | cons q requests ih =>
    -- A request is a row of such changes: those before the first refusal are made.
    refine ih ?_
    cases q with
    | register op override =>
      rw [perform]
      split
      · next r' hx => exact eq_place_of_register hx ▸ hplace r op hr
      · exact hr
    | registerMany ops => exact hmany ops hr
    | remove name => exact hremove r name hr

theorem follows_after (r : Registry V E) (requests : List (Request V E)) :
    r.Follows (r.after requests) :=
  after_induction (fun _ op h => h.trans (follows_place _ op))
    (fun _ name h => h.trans (follows_remove _ name)) (.inl rfl) requests

theorem onDuplicate_after (r : Registry V E) (requests : List (Request V E)) :
    (r.after requests).onDuplicate = r.onDuplicate := by
  refine after_induction (P := fun r' => r'.onDuplicate = r.onDuplicate) (fun r' op h => ?_)
    (fun r' name h => ?_) rfl requests
  · rw [← h, place]
    split <;> rfl
  · rw [← h, remove]
    split <;> rfl

/-! ## New registries -/

theorem accepted_of_ok {ops : List (Operation V E)} (hr : r.registerMany ops = (r', .ok ())) :
    r.accepted ops = ops := by
  induction ops generalizing r with
  | nil => rfl
  | cons op ops ih =>
    cases hx : r.register op with
    | error e =>
      rw [registerMany_cons_of_error hx] at hr
      cases hr
    | ok r₁ =>
      rw [registerMany_cons_of_ok hx] at hr
      simp only [accepted, hx, ih hr]

theorem registerMany_of_ofOperations {ops : List (Operation V E)} {onDuplicate : DuplicatePolicy}
    (hr : ofOperations ops onDuplicate = .ok r) :
    registerMany { onDuplicate } ops = (r, .ok ()) := by
  unfold ofOperations at hr
  split at hr
  · next hx => rw [hx, Except.ok.inj hr]
  · cases hr

/-- A registry that has been made of some operations shows their registrations. -/
theorem shows_of_ofOperations {ops : List (Operation V E)} {onDuplicate : DuplicatePolicy}
    (hr : ofOperations ops onDuplicate = .ok r) :
    Shows (ops.map .registered) r ∧ r.onDuplicate = onDuplicate := by
  have hmany := registerMany_of_ofOperations hr
  have hafter : ({ onDuplicate } : Registry V E).after [.registerMany ops] = r :=
    congrArg Prod.fst hmany
  constructor
  · simpa [accepted_of_ok hmany, hmany] using (Shows.empty onDuplicate).registerMany ops
  · rw [← hafter, onDuplicate_after]

/-! ## What a registry shows -/

theorem lookup_of_mem (hop : op ∈ r.operations) : r.lookup op.output = some op := by
  cases hl : r.lookup op.output with
  | none => exact absurd (List.mem_map_of_mem hop) (lookup_eq_none_iff.1 hl)
  | some op' =>
    rw [List.inj_on_of_nodup_map r.nodup (mem_of_lookup hl) hop (output_of_lookup hl)]

/-- Going through a registry gives the operation of each name, in the order of the names. -/
theorem map_lookup_names (r : Registry V E) : r.names.map r.lookup = r.operations.map some := by
  rw [names, List.map_map]
  exact List.map_congr_left fun op hop => lookup_of_mem hop

theorem register_override_eq_error_iff {override : Option Bool} {e : Error} :
    r.register op override = .error e ↔ op.output ∈ r.names ∧
      override.getD (r.onDuplicate = .override) = false ∧ e = .duplicateOperation op.output := by
  unfold register
  rw [← contains_iff]
  cases r.contains op.output <;> cases override.getD (r.onDuplicate = .override) <;>
    simp [eq_comm]

/-- **Registries and their history.** After any requests, successful or not, to a registry that has
been made of some operations, a name has the operation of its last registration since its last
removal. The names, and with them the operations, are in the order of their first registration since
their last removal. The version is the number of changes. A registration is refused just in case the
name is registered and overriding is not allowed. So as long as the version is the same, the
registry is the same. -/
theorem ordered_last_write {ops : List (Operation V E)} {onDuplicate : DuplicatePolicy}
    (hr : ofOperations ops onDuplicate = .ok r) (requests : List (Request V E)) :
    let now := r.after requests
    let h := ops.map .registered ++ r.history requests
    (∀ name op, now.lookup name = some op ↔ LastRegistered h name op) ∧
    now.operations.map some = now.names.map now.lookup ∧
    (∀ name, name ∈ now.names ↔ ∃ i, Entered h name i) ∧
    (now.names.Pairwise fun m n => ∀ i j, Entered h m i → Entered h n j → i < j) ∧
    now.version = h.length ∧
    (∀ op override e, now.register op override = .error e ↔ (∃ i, Entered h op.output i) ∧
      override.getD (onDuplicate = .override) = false ∧ e = .duplicateOperation op.output) ∧
    ∀ more, (now.after more).version = now.version → now.after more = now := by
  intro now h
  obtain ⟨hshows, hpolicy⟩ := shows_of_ofOperations hr
  have hnow : Shows h now := hshows.after requests
  have hpolicy : now.onDuplicate = onDuplicate := (onDuplicate_after r requests).trans hpolicy
  refine ⟨hnow.lookup_iff, (map_lookup_names now).symm, hnow.mem_names_iff, hnow.ascending,
    hnow.version, fun op override e => ?_, fun more => (now.follows_after more).eq_of_version⟩
  rw [register_override_eq_error_iff, hnow.mem_names_iff, hpolicy]

/-- The theorem at a name that is overridden, removed and registered again, with refused requests in
between. -/
theorem ordered_last_write_of_moved :
    let sum (output : String) (inputs : List String) : Operation Nat Unit :=
      { output, inputs, isAsync := false
        impl := { label := output, style := .plain, pauses := 0, apply := fun vs => .ok vs.sum } }
    let requests : List (Request Nat Unit) :=
      [.register (sum "a" ["y"]) (some true), .register (sum "b" ["y"]) none, .remove "a",
        .registerMany [sum "c" ["x"], sum "a" ["z"], sum "b" ["z"], sum "d" ["x"]], .remove "d"]
    let r : Registry Nat Unit :=
      { operations := [sum "a" ["x"], sum "b" ["x"]], nodup := by decide, onDuplicate := .error
        version := 2 }
    let h := [.registered (sum "a" ["x"]), .registered (sum "b" ["x"])] ++ r.history requests
    ofOperations [sum "a" ["x"], sum "b" ["x"]] .error = .ok r ∧
      (r.after requests).names = ["b", "c", "a"] ∧ (r.after requests).version = 6 ∧
      LastRegistered h "a" (sum "a" ["z"]) ∧
      (r.after requests).after [.register (sum "c" ["y"]) (some false)] = r.after requests := by
  intro sum requests r h
  have hr : ofOperations [sum "a" ["x"], sum "b" ["x"]] .error = .ok r := by rfl
  have hnames : (r.after requests).names = ["b", "c", "a"] := by
    unfold r requests
    cbv
  have hversion : (r.after requests).version = 6 := by
    unfold r requests
    cbv
  have hfound : (r.after requests).lookup "a" = some (sum "a" ["z"]) := by
    unfold r requests
    cbv
  have hrefused : ((r.after requests).after [.register (sum "c" ["y"]) (some false)]).version =
      (r.after requests).version := by
    unfold r requests
    cbv
  obtain ⟨hlookup, -, -, -, -, -, hsame⟩ := ordered_last_write hr requests
  exact ⟨hr, hnames, hversion, (hlookup "a" (sum "a" ["z"])).1 hfound, hsame _ hrefused⟩

end DemandPlan.Registry
