/-! # Names and what they stand for

`Bindings α` maps names to values of type `α`, each name at most to one. It is used for the names
that a scope declares, for the variables of a scope at run time, and for fields and methods. -/

namespace LoxLang

/-- What some names stand for. -/
structure Bindings (α : Type) where
  entries : List (String × α)

namespace Bindings

variable {α : Type}

/-- No names. -/
def empty : Bindings α := ⟨[]⟩

/-- What a name stands for. -/
def get? (name : String) (b : Bindings α) : Option α := b.entries.lookup name

/-- Whether a name stands for something. -/
def contains (name : String) (b : Bindings α) : Bool := (b.get? name).isSome

/-- Replaces the value of a name that is there, and puts a new name at the end. -/
def insertEntry (name : String) (value : α) : List (String × α) → List (String × α)
  | [] => [(name, value)]
  | (n, v) :: rest =>
    if name == n then (name, value) :: rest else (n, v) :: insertEntry name value rest

/-- Lets a name stand for a value. -/
def insert (name : String) (value : α) (b : Bindings α) : Bindings α :=
  ⟨insertEntry name value b.entries⟩

/-- The names in pairs with their values, later pairs in place of earlier ones. -/
def ofList (pairs : List (String × α)) : Bindings α :=
  pairs.foldl (fun b p => b.insert p.1 p.2) empty

/-- The names, with their values, in the order of their characters. -/
def sorted (b : Bindings α) : List (String × α) :=
  b.entries.mergeSort (fun p q => !decide (q.1 < p.1))

@[simp] theorem get?_empty (name : String) : (empty : Bindings α).get? name = none := rfl

/-- An inserted name stands for the value, and no other name changes. -/
theorem get?_insert (name other : String) (value : α) (b : Bindings α) :
    (b.insert name value).get? other = if other = name then some value else b.get? other := by
  obtain ⟨entries⟩ := b
  simp only [get?, insert]
  induction entries with
  | nil =>
    by_cases h : other = name
    · simp [insertEntry, h]
    · simp [insertEntry, List.lookup_cons, beq_eq_false_iff_ne.mpr h, h]
  | cons p rest ih =>
    obtain ⟨n, v⟩ := p
    by_cases hn : name = n
    · subst hn
      by_cases h : other = name
      · simp [insertEntry, h]
      · simp [insertEntry, List.lookup_cons, beq_eq_false_iff_ne.mpr h, h]
    · by_cases h : other = n
      · subst h
        simp [insertEntry, hn, Ne.symm hn]
      · simp only [insertEntry, beq_iff_eq, hn, if_false, List.lookup_cons,
          beq_eq_false_iff_ne.mpr h]
        exact ih

@[simp] theorem get?_insert_self (name : String) (value : α) (b : Bindings α) :
    (b.insert name value).get? name = some value := by
  simp [get?_insert]

theorem contains_insert (name other : String) (value : α) (b : Bindings α) :
    (b.insert name value).contains other = (other == name || b.contains other) := by
  by_cases h : other = name <;> simp [contains, get?_insert, h]

end Bindings

end LoxLang
