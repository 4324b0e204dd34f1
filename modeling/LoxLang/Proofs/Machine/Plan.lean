import LoxLang.Machine.State
import LoxLang.Proofs.Scope.Ready

/-! # Scopes of the program and scopes of the machine

A running program makes a scope of the machine each time it enters a scope of the program.  A plan
says of each scope of the machine which names it may ever have: those that are declared anywhere in
the scope of the program for which it was made.  An environment fits the scopes that are open at a
point of the program if it leads through scopes planned for them (`Shape`), which have got the names
that are defined at that point (`Present`).  Scopes of the machine only ever get more names, so an
environment that a function has kept goes on fitting (`Stands.grow`). -/

namespace LoxLang

open Binder (ClassContext)

/-- For each scope of the machine the names that it may ever have.  What is planned for the first,
that of the global variables, does not matter. -/
abbrev Plan := List (List String)

variable {α : Type}

/-- An environment leads through scopes planned for the open ones, and ends with the globals. -/
inductive Shape (W : Plan) : Context → Env → Prop
  | globals : Shape W [] Machine.globalEnv
  | scope {first : OpenScope} {outer : Context} {id : ScopeId} {env : Env} (hid : id ≠ 0)
      (hplan : W[id]? = some first.whole) (houter : Shape W outer env) :
      Shape W (first :: outer) (id :: env)

/-- The scopes of an environment have the names that are defined in the open ones. -/
def Present (store : Store α) (context : Context) (env : Env) : Prop :=
  ∀ (i : Nat) (scope : OpenScope) (id : ScopeId), context[i]? = some scope → env[i]? = some id →
    ∀ name, scope.declared.get? name = some true → (store.scope id).contains name

/-- An environment fits the open scopes, of which at most the innermost has names that are not
defined yet. -/
structure Stands (W : Plan) (store : Store α) (classBody : ClassContext) (context : Context)
    (env : Env) : Prop where
  shape : Shape W context env
  present : Present store context env
  defined : Context.Defined context.tail
  coherent : context.Coherent classBody

/-- Scopes have been added and names have been made, and nothing else has changed. -/
structure Grows (W : Plan) (store : Store α) (W' : Plan) (store' : Store α) : Prop where
  plan : W <+: W'
  names : ∀ id name, (store.scope id).contains name → (store'.scope id).contains name

namespace Grows

variable {W W' W'' : Plan} {store store' store'' : Store α}

theorem refl (W : Plan) (store : Store α) : Grows W store W store :=
  ⟨List.prefix_rfl, fun _ _ h => h⟩

theorem trans (h : Grows W store W' store') (h' : Grows W' store' W'' store'') :
    Grows W store W'' store'' :=
  ⟨h.plan.trans h'.plan, fun id name hn => h'.names id name (h.names id name hn)⟩

theorem set (W : Plan) (store : Store α) (id : ScopeId) (name : String) (value : α) :
    Grows W store W (store.set id name value) := by
  refine ⟨List.prefix_rfl, fun other name' h => ?_⟩
  rw [Store.scope_set]
  split
  · rename_i hid
    rw [Bindings.contains_insert, ← hid.1, h, Bool.or_true]
  · exact h

theorem push (W : Plan) (store : Store α) (names : List String) (vars : Bindings α) :
    Grows W store (W ++ [names]) (store.push vars) := by
  refine ⟨List.prefix_append .., fun id name h => ?_⟩
  rw [Store.scope_push]
  split
  · rename_i hid
    have hnone : store.scope id = Bindings.empty := by
      simp [Store.scope, hid, Store.nextId]
    rw [hnone] at h
    cases h
  · exact h

end Grows

namespace Shape

variable {W W' : Plan} {context : Context} {env : Env}

theorem mono (h : Shape W context env) (hW : W <+: W') : Shape W' context env := by
  induction h with
  | globals => exact .globals
  | scope hid hplan _ ih =>
    obtain ⟨hlt, _⟩ := List.getElem?_eq_some_iff.mp hplan
    obtain ⟨added, rfl⟩ := hW
    exact .scope hid ((List.getElem?_append_left hlt).trans hplan) ih

theorem mark (h : Shape W context env) (name : String) (d : Bool) :
    Shape W (context.mark name d) env := by
  cases h with
  | globals => exact .globals
  | scope hid hplan houter => exact .scope hid hplan houter

theorem introduceAll (h : Shape W context env) (names : List Token) :
    Shape W (context.introduceAll names) env := by
  induction names generalizing context with
  | nil => exact h
  | cons name names ih => exact ih (h.mark name.lexeme true)

/-- Each open scope has its scope of the machine. -/
theorem getElem? (h : Shape W context env) {i : Nat} {scope : OpenScope}
    (hi : context[i]? = some scope) :
    ∃ id, env[i]? = some id ∧ id ≠ 0 ∧ W[id]? = some scope.whole := by
  induction h generalizing i with
  | globals => simp at hi
  | @scope first outer id env hid hplan _ ih =>
    cases i with
    | zero =>
      obtain rfl : first = scope := by simpa using hi
      exact ⟨id, rfl, hid, hplan⟩
    | succ i => simpa using ih (by simpa using hi)

/-- The innermost scope of the machine, which is that of the globals or is planned for the
innermost open one. -/
theorem exists_cons (h : Shape W context env) :
    ∃ id outer, env = id :: outer ∧
      (id ≠ 0 → ∃ scope, context.head? = some scope ∧ W[id]? = some scope.whole) := by
  cases h with
  | globals => exact ⟨0, [], rfl, fun h => absurd rfl h⟩
  | scope hid hplan _ => exact ⟨_, _, rfl, fun _ => ⟨_, rfl, hplan⟩⟩

end Shape

namespace Present

variable {store store' : Store α} {context : Context} {env : Env}

theorem nil (store : Store α) (env : Env) : Present store [] env := by
  intro i scope id hi
  simp at hi

theorem mono (h : Present store context env)
    (hnames : ∀ id name, (store.scope id).contains name → (store'.scope id).contains name) :
    Present store' context env :=
  fun i scope id hi hid name hname => hnames id name (h i scope id hi hid name hname)

theorem cons {first : OpenScope} {id : ScopeId} (h : Present store context env)
    (hfirst : ∀ name, first.declared.get? name = some true → (store.scope id).contains name) :
    Present store (first :: context) (id :: env) := by
  intro i scope id' hi hid
  cases i with
  | zero =>
    obtain rfl : first = scope := by simpa using hi
    obtain rfl : id = id' := by simpa using hid
    exact hfirst
  | succ i => exact h i scope id' (by simpa using hi) (by simpa using hid)

theorem head {first : OpenScope} {id : ScopeId} (h : Present store (first :: context) (id :: env)) :
    ∀ name, first.declared.get? name = some true → (store.scope id).contains name :=
  h 0 first id rfl rfl

theorem tail {first : OpenScope} {id : ScopeId} (h : Present store (first :: context) (id :: env)) :
    Present store context env :=
  fun i scope id' hi hid => h (i + 1) scope id' (by simpa using hi) (by simpa using hid)

/-- A name that is not defined yet asks for nothing. -/
theorem markFalse (h : Present store context env) (name : String) :
    Present store (context.mark name false) env := by
  cases context with
  | nil => exact h
  | cons first outer =>
    cases env with
    | nil => intro _ _ _ _ hid; simp at hid
    | cons id env =>
      refine h.tail.cons fun other hother => h.head other ?_
      simp only [OpenScope.mark, Bindings.get?_insert] at hother
      split at hother
      · cases hother
      · exact hother

/-- A name may be defined once the innermost scope has it. -/
theorem introduce {id : ScopeId} (h : Present store context (id :: env)) {name : Token}
    (hname : (store.scope id).contains name.lexeme) :
    Present store (context.introduce name) (id :: env) := by
  cases context with
  | nil => exact h
  | cons first outer =>
    refine h.tail.cons fun other hother => ?_
    simp only [OpenScope.mark, Bindings.get?_insert] at hother
    split at hother
    · rename_i heq
      rw [heq]
      exact hname
    · exact h.head other hother

end Present

namespace Context

theorem exists_of_hops? {name : String} {context : Context} {hops : Nat}
    (h : context.hops? name = some hops) :
    ∃ scope, context[hops]? = some scope ∧ scope.has name ∧
      ∀ i < hops, ∀ scope', context[i]? = some scope' → scope'.has name = false := by
  obtain ⟨hlt, hhas, hbefore⟩ := List.findIdx?_eq_some_iff_getElem.mp h
  refine ⟨context[hops], List.getElem?_eq_getElem hlt, hhas, fun i hi scope' hscope' => ?_⟩
  obtain ⟨hlt', rfl⟩ := List.getElem?_eq_some_iff.mp hscope'
  simpa using hbefore i hi

theorem not_has_of_hops?_eq_none {name : String} {context : Context}
    (h : context.hops? name = none) : ∀ scope ∈ context, scope.has name = false :=
  List.findIdx?_eq_none_iff.mp h

end Context

namespace Stands

variable {W W' : Plan} {store store' : Store α} {classBody : ClassContext} {context : Context}
  {env : Env}

theorem grow (h : Stands W store classBody context env) (hgrows : Grows W store W' store') :
    Stands W' store' classBody context env :=
  ⟨h.shape.mono hgrows.plan, h.present.mono hgrows.names, h.defined, h.coherent⟩

theorem globals (W : Plan) (store : Store α) :
    Stands W store .outside [] Machine.globalEnv :=
  ⟨.globals, .nil _ _, nofun, .nil⟩

/-- The scope that a name is bound to has the name, unless the name is not defined yet. -/
theorem exists_of_hops? (h : Stands W store classBody context env) {name : String}
    (hpending : context.isPending name = false) {hops : Nat}
    (hhops : context.hops? name = some hops) :
    ∃ id, env[hops]? = some id ∧ (store.scope id).contains name := by
  obtain ⟨scope, hscope, hhas, _⟩ := Context.exists_of_hops? hhops
  obtain ⟨id, hid, _⟩ := h.shape.getElem? hscope
  refine ⟨id, hid, h.present hops scope id hscope hid name ?_⟩
  obtain ⟨d, hd⟩ := Option.isSome_iff_exists.mp hhas
  cases d with
  | true => exact hd
  | false =>
    exfalso
    cases context with
    | nil => simp at hscope
    | cons first outer =>
      cases hops with
      | zero =>
        obtain rfl : first = scope := by simpa using hscope
        simp [Context.isPending, hd] at hpending
      | succ hops => exact h.defined scope (List.mem_of_getElem? (by simpa using hscope)) name hd

end Stands

end LoxLang
