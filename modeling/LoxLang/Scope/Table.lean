import LoxLang.Syntax.Label

/-! # The binding table

For each reference that means a local variable the table says how many scopes lie between the
reference and the scope of the variable. References that mean global variables are not in it. The
entries stay in the order in which their references were first recorded.

Which references stand outside all functions is kept as a mark of their entries (`Binding.topLevel`)
and not as a list beside the table.  The list would get a reference each time it is recorded outside
all functions, so the same one several times; but its one use is to remove the entry of each
reference on it, if there still is one, and the list is empty after that.  The second time a
reference comes up there is nothing left to remove, so all that counts is whether it is on the list:
whether it was recorded outside all functions at least once (`record`) since the last removal
(`dropTopLevel`). -/

namespace LoxLang

/-- What a reference does. -/
inductive RefUse
  | read
  | assign
  | this
  | super
  deriving DecidableEq, Repr

/-- What the table knows about a reference. -/
structure Binding where
  label : Label
  use : RefUse
  /-- The token of the name, or of the word `this` or `super`. -/
  name : Token
  /-- The number of scopes to leave on the way to that of the variable. -/
  hops : Nat
  /-- Whether the reference was recorded outside all functions, so that it is evaluated in one run
  only. -/
  topLevel : Bool

/-- The bindings of references. -/
structure BindingTable where
  entries : List Binding

namespace BindingTable

/-- No bindings. -/
def empty : BindingTable := ⟨[]⟩

/-- The number of bindings. -/
def size (t : BindingTable) : Nat := t.entries.length

/-- The binding of a reference. -/
def find? (label : Label) (t : BindingTable) : Option Binding :=
  t.entries.find? (fun b => b.label == label)

/-- The scopes to leave from a reference, if it means a local variable. -/
def hops? (label : Label) (t : BindingTable) : Option Nat := (t.find? label).map Binding.hops

/-- Puts a binding in place of an earlier one of the same reference, and a new one at the end.  A
reference that was recorded outside all functions stays marked so. -/
def recordEntry (b : Binding) : List Binding → List Binding
  | [] => [b]
  | c :: rest =>
    if c.label == b.label then { b with topLevel := c.topLevel || b.topLevel } :: rest
    else c :: recordEntry b rest

/-- Records a binding. -/
def record (b : Binding) (t : BindingTable) : BindingTable := ⟨recordEntry b t.entries⟩

/-- Drops the bindings of references outside all functions. -/
def dropTopLevel (t : BindingTable) : BindingTable := ⟨t.entries.filter (fun b => !b.topLevel)⟩

/-- A recorded binding is found under its label, and no other binding changes. -/
theorem hops?_record (b : Binding) (label : Label) (t : BindingTable) :
    (t.record b).hops? label = if label = b.label then some b.hops else t.hops? label := by
  obtain ⟨entries⟩ := t
  simp only [hops?, find?, record]
  induction entries with
  | nil =>
    by_cases h : label = b.label
    · simp [recordEntry, h]
    · simp [recordEntry, beq_eq_false_iff_ne.mpr (Ne.symm h), h]
  | cons c rest ih =>
    by_cases hc : c.label = b.label
    · by_cases h : label = b.label
      · simp [recordEntry, hc, h]
      · simp [recordEntry, hc, h, beq_eq_false_iff_ne.mpr (Ne.symm h)]
    · by_cases h : label = b.label
      · subst h
        simpa [recordEntry, hc] using ih
      · by_cases hl : c.label = label
        · simp [recordEntry, hl, h]
        · simpa [recordEntry, hc, hl, h] using ih

end BindingTable

end LoxLang
