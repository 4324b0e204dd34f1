import LoxLang.Proofs.Scope.Findings
import Mathlib.Data.List.Forall2

/-! # Names bound one after another

What is bound in the end when names are bound one after another: a parameter for each argument, a
method for each name, and, in an open scope, the names that are declared in a row. -/

namespace LoxLang
namespace Bindings

variable {α : Type}

@[simp] theorem insert_insert (name : String) (v w : α) (b : Bindings α) :
    (b.insert name v).insert name w = b.insert name w := by
  obtain ⟨entries⟩ := b
  simp only [insert, mk.injEq]
  induction entries with
  | nil => simp [insertEntry]
  | cons p rest ih =>
    obtain ⟨n, u⟩ := p
    by_cases h : name = n
    · simp [insertEntry, h]
    · simpa [insertEntry, h] using ih

theorem get?_foldl_insert {pairs : List (String × α)} {b : Bindings α} {name : String} {v : α}
    (h : (pairs.foldl (fun b p => b.insert p.1 p.2) b).get? name = some v) :
    (name, v) ∈ pairs ∨ b.get? name = some v := by
  induction pairs generalizing b with
  | nil => exact .inr h
  | cons p pairs ih =>
    rcases ih h with h | h
    · exact .inl (List.mem_cons_of_mem p h)
    · rw [get?_insert] at h
      split at h
      · rename_i heq
        refine .inl (List.mem_cons.mpr (.inl ?_))
        rw [heq, ← Option.some.inj h]
      · exact .inr h

theorem contains_foldl_insert (pairs : List (String × α)) (b : Bindings α) (name : String) :
    (pairs.foldl (fun b p => b.insert p.1 p.2) b).contains name ↔
      name ∈ pairs.map Prod.fst ∨ b.contains name := by
  induction pairs generalizing b with
  | nil => simp
  | cons p pairs ih => simp [ih, contains_insert, or_assoc, or_left_comm]

/-- What is found in the bindings of a list is in the list. -/
theorem mem_of_get?_ofList {pairs : List (String × α)} {name : String} {v : α}
    (h : (ofList pairs).get? name = some v) : (name, v) ∈ pairs :=
  (get?_foldl_insert h).resolve_right nofun

theorem contains_ofList (pairs : List (String × α)) (name : String) :
    (ofList pairs).contains name ↔ name ∈ pairs.map Prod.fst :=
  (contains_foldl_insert pairs empty name).trans (or_iff_left nofun)

end Bindings

/-! ## Bindings under other names -/

namespace Bindings

variable {α β : Type} {change : String → String} {R R' : α → β → Prop} {b : Bindings α}
  {b' : Bindings β}

/-- The bindings have values that belong together, in the second one under changed names. -/
def Matches (change : String → String) (R : α → β → Prop) (b : Bindings α) (b' : Bindings β) :
    Prop := ∀ name, Option.Rel R (b.get? name) (b'.get? (change name))

theorem matches_empty (change : String → String) (R : α → β → Prop) :
    (empty : Bindings α).Matches change R empty := fun _ => .none

theorem Matches.imp (h : b.Matches change R b') (hR : ∀ a a', R a a' → R' a a') :
    b.Matches change R' b' := by
  intro name
  generalize hget : b.get? name = x, hget' : b'.get? (change name) = y
  have hrel := h name
  rw [hget, hget'] at hrel
  cases hrel with
  | none => exact .none
  | some ha => exact .some (hR _ _ ha)

theorem Matches.insert (h : b.Matches change R b') (hchange : Function.Injective change)
    (name : String) {a : α} {a' : β} (ha : R a a') :
    (b.insert name a).Matches change R (b'.insert (change name) a') := by
  intro other
  rw [get?_insert, get?_insert]
  by_cases hother : other = name
  · rw [if_pos hother, if_pos (congrArg change hother)]
    exact .some ha
  · rw [if_neg hother, if_neg fun heq => hother (hchange heq)]
    exact h other

theorem Matches.ofList (hchange : Function.Injective change) {ps : List (String × α)}
    {ps' : List (String × β)}
    (h : List.Forall₂ (fun p p' => p'.1 = change p.1 ∧ R p.2 p'.2) ps ps') :
    (ofList ps).Matches change R (ofList ps') := by
  have hfold : ∀ (b : Bindings α) (b' : Bindings β), b.Matches change R b' →
      (ps.foldl (fun b p => b.insert p.1 p.2) b).Matches change R
        (ps'.foldl (fun b p => b.insert p.1 p.2) b') := by
    induction h with
    | nil => exact fun _ _ hb => hb
    | @cons p p' ps ps' hp _ ih =>
      intro b b' hb
      have hinsert := hb.insert hchange p.1 hp.2
      rw [← hp.1] at hinsert
      exact ih _ _ hinsert
  exact hfold _ _ (matches_empty change R)

theorem Matches.contains_eq (h : b.Matches change R b') (name : String) :
    b'.contains (change name) = b.contains name := by
  unfold contains
  generalize hget : b.get? name = x, hget' : b'.get? (change name) = y
  have hrel := h name
  rw [hget, hget'] at hrel
  cases hrel with
  | none => rfl
  | some _ => rfl

/-- Bindings match themselves if their values belong together with themselves. -/
theorem matches_self {R : α → α → Prop} {b : Bindings α}
    (h : ∀ name a, b.get? name = some a → R a a) : b.Matches (fun name => name) R b := by
  intro name
  cases hget : b.get? name with
  | none => exact .none
  | some a => exact .some (h name a hget)

/-- What matches up to equality is found under the changed names. -/
theorem Matches.get?_eq {b b' : Bindings α} (h : b.Matches change Eq b') (name : String) :
    b'.get? (change name) = b.get? name := by
  generalize hget : b.get? name = x, hget' : b'.get? (change name) = y
  have hrel := h name
  rw [hget, hget'] at hrel
  cases hrel with
  | none => rfl
  | some ha => rw [ha]

end Bindings

namespace OpenScope

/-- Declares and defines names in their order. -/
def introduceAll (names : List Token) (scope : OpenScope) : OpenScope :=
  names.foldl (fun scope name => scope.mark name.lexeme true) scope

theorem whole_introduceAll (names : List Token) (scope : OpenScope) :
    (scope.introduceAll names).whole = scope.whole := by
  induction names generalizing scope with
  | nil => rfl
  | cons name names ih => exact ih _

/-- The names that have been introduced are defined, and the others are as they were. -/
theorem get?_introduceAll (names : List Token) (scope : OpenScope) (name : String) :
    (scope.introduceAll names).declared.get? name =
      if name ∈ names.map Token.lexeme then some true else scope.declared.get? name := by
  induction names generalizing scope with
  | nil => rfl
  | cons first names ih =>
    refine (ih _).trans ?_
    simp only [mark, Bindings.get?_insert, List.map_cons, List.mem_cons]
    by_cases h : name ∈ names.map Token.lexeme <;> by_cases h' : name = first.lexeme <;>
      simp [h, h']

end OpenScope

theorem Context.introduceAll_cons (names : List Token) (scope : OpenScope) (outer : Context) :
    Context.introduceAll names (scope :: outer) = scope.introduceAll names :: outer := by
  induction names generalizing scope with
  | nil => rfl
  | cons name names ih => exact ih _

end LoxLang
