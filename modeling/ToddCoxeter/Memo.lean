/-! # Remembered results

A `Memo` remembers values under names.  `Memo.fetch` gives the value remembered under a name, or
computes one and remembers it; a computation that fails or that gives no value leaves nothing to
remember. -/

namespace ToddCoxeter

/-- Values remembered under names. -/
structure Memo (α : Type) where
  /-- The names with their values. -/
  entries : List (String × α) := []
deriving Repr

namespace Memo

variable {α σ ε : Type}

/-- The memo that remembers nothing. -/
def empty : Memo α := {}

/-- The value remembered under the name. -/
def get? (m : Memo α) (name : String) : Option α := m.entries.lookup name

/-- Is a value remembered under the name? -/
def contains (m : Memo α) (name : String) : Bool := (m.get? name).isSome

/-- The memo that remembers the value, if there is one, under the name. -/
def insert (m : Memo α) (name : String) : Option α → Memo α
  | some a => ⟨(name, a) :: m.entries⟩
  | none => m

/-- The memo after everything was forgotten. -/
def clear (_ : Memo α) : Memo α := {}

/-- The value remembered under the name.  Without one, `compute` is run on the state `s`, and its
value is remembered; it may give no value, or fail. -/
def fetch (m : Memo α) (name : String) (compute : σ → Except ε (Option α) × σ) (s : σ) :
    Except ε (Option α) × Memo α × σ :=
  match m.get? name with
  | some a => (.ok (some a), m, s)
  | none =>
    match compute s with
    | (.ok result, s) => (.ok result, m.insert name result, s)
    | (.error e, s) => (.error e, m, s)

theorem get?_insert_some (m : Memo α) (name key : String) (a : α) :
    (m.insert name (some a)).get? key = if key = name then some a else m.get? key := by
  by_cases h : key = name
  · simp [get?, insert, h]
  · have hb : (key == name) = false := by simpa using h
    simp [get?, insert, List.lookup_cons, h, hb]

@[simp] theorem get?_empty (key : String) : (empty : Memo α).get? key = none := rfl

@[simp] theorem get?_clear (m : Memo α) (key : String) : m.clear.get? key = none := rfl

end Memo

end ToddCoxeter
