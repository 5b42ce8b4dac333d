import DemandPlan.Names

/-!
# Bounded memos

A memo remembers what was computed for a query. Two queries are the same if they want the same
sequence of names and have the same set of hints. There is room for a fixed number of answers; the
one that has been there longest makes room for a new one, however often it has been asked for.

* `Memo.size_remember`: a memo never holds more than its capacity.
-/

namespace DemandPlan

/-- What a memo knows a query by. -/
structure Memo.Key where
  wanted : List String
  /-- The set of hints, in ascending order. -/
  hints : List String
  deriving DecidableEq, Repr

/-- The key of a query. -/
def Memo.Key.of (wanted hints : List String) : Memo.Key :=
  { wanted, hints := Names.sorted (Names.distinct hints) }

/-- Remembered answers, the oldest first. Without capacity nothing is remembered. -/
structure Memo (α : Type) where
  capacity : Int := 256
  entries : List (Memo.Key × α) := []

namespace Memo

variable {α : Type}

/-- How many answers are remembered. -/
def size (m : Memo α) : Nat := m.entries.length

/-- The remembered answer to a query. -/
def find? (m : Memo α) (key : Key) : Option α :=
  (m.entries.find? fun e => e.1 = key).map Prod.snd

/-- The memo without any answer. -/
def clear (m : Memo α) : Memo α := { m with entries := [] }

/-- The memo with one answer more, after making room for it. A negative capacity leaves no room at
all. -/
def remember (m : Memo α) (key : Key) (a : α) : Option (Memo α) :=
  if m.capacity ≤ 0 then none
  else
    some { m with entries := m.entries.drop (m.size + 1 - m.capacity.toNat) ++ [(key, a)] }

/-- The answer to a query: the remembered one, else a computed one, which is remembered from then
on. If there is no room for it, there is no answer, and nothing is remembered any more. A
computation that fails leaves the memo as it is. -/
def getOrCompute {m : Type → Type} [Monad m] (memo : Memo α) (wanted hints : List String)
    (compute : m α) : m (Option α × Memo α) :=
  if memo.capacity = 0 then do return (some (← compute), memo)
  else
    let key := Key.of wanted hints
    match memo.find? key with
    | some a => return (some a, memo)
    | none => do
      let a ← compute
      match memo.remember key a with
      | some memo' => return (some a, memo')
      | none => return (none, memo.clear)

theorem size_remember {m m' : Memo α} {key : Key} {a : α} (h : m.remember key a = some m') :
    m'.size ≤ m'.capacity.toNat := by
  unfold remember at h
  split at h
  · cases h
  · cases h
    simp only [size, List.length_append, List.length_drop, List.length_cons, List.length_nil]
    omega

end Memo

end DemandPlan
