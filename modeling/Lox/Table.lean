/-!
# Tables of names

A table maps names to what they stand for: the variables of a frame, the methods of a class, the
fields of an instance.
-/

namespace Lox

/-- A table, as its entries in the order in which their names first came in. Tables are made by
`Table.insert`, so a name has one entry. -/
abbrev Table (α : Type) := List (String × α)

namespace Table

variable {α : Type}

/-- Binds a name, in place of what it was bound to before. -/
def insert (t : Table α) (name : String) (a : α) : Table α :=
  match t with
  | [] => [(name, a)]
  | (n, b) :: rest => if n = name then (name, a) :: rest else (n, b) :: insert rest name a

/-- Whether a name is bound. -/
def binds (t : Table α) (name : String) : Bool := (t.lookup name).isSome

/-- Binds names to values, pair by pair. -/
def insertAll (t : Table α) (entries : List (String × α)) : Table α :=
  entries.foldl (fun t (name, a) => t.insert name a) t

/-- The entries in the order of their names. -/
def sorted (t : Table α) : List (String × α) := t.mergeSort fun a b => !(b.1 < a.1)

/-- The bound names in order. -/
def names (t : Table α) : List String := t.sorted.map (·.1)

/-! ## Lookup after insertion -/

@[simp] theorem lookup_insert_self (t : Table α) (name : String) (a : α) :
    (t.insert name a).lookup name = some a := by
  induction t with
  | nil => simp [insert]
  | cons e rest ih =>
    obtain ⟨n, b⟩ := e
    unfold insert
    split
    · simp
    · rename_i h
      have hn : (name == n) = false := by simpa using Ne.symm h
      rw [List.lookup_cons, hn]
      exact ih

theorem lookup_insert_of_ne (t : Table α) {name other : String} (a : α) (h : other ≠ name) :
    (t.insert name a).lookup other = t.lookup other := by
  have ho : (other == name) = false := by simpa using h
  induction t with
  | nil => simp [insert, List.lookup_cons, ho]
  | cons e rest ih =>
    obtain ⟨n, b⟩ := e
    unfold insert
    split
    · rename_i hn
      rw [List.lookup_cons, List.lookup_cons, hn, ho]
    · rw [List.lookup_cons, List.lookup_cons, ih]

end Table

end Lox
