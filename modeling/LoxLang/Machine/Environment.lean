import LoxLang.Fault
import LoxLang.Machine.RuntimeError
import LoxLang.Scope.Bindings

/-! # Environments

An environment is a chain of scopes, the innermost first and the global one last. The scopes
themselves lie in a store, so that chains share them: what is assigned through one chain is read
through every other that passes the same scope. A variable is reached in two ways, by its name,
along the chain to the first scope that has it, or by a number of scopes to leave. -/

namespace LoxLang

/-- The place of a scope in the store. -/
abbrev ScopeId := Nat

/-- A chain of scopes, innermost first. -/
abbrev Env := List ScopeId

/-- The environment that is left after `distance` scopes; at a distance below zero, the
environment itself. There is none past the outermost scope. -/
def Env.leave (env : Env) (distance : Int) : Except Fault Env :=
  match env.drop distance.toNat with
  | [] => .error .pastGlobalScope
  | outer => .ok outer

/-- Leaving scopes leads to the scope that stands so far out in the chain. -/
theorem Env.leave_of_getElem? {env : Env} {hops : Nat} {id : ScopeId} (h : env[hops]? = some id) :
    env.leave hops = .ok (id :: env.drop (hops + 1)) := by
  obtain ⟨hlt, rfl⟩ := List.getElem?_eq_some_iff.mp h
  rw [Env.leave, Int.toNat_natCast, List.drop_eq_getElem_cons hlt]

/-- All scopes, with their variables. -/
structure Store (α : Type) where
  scopes : Array (Bindings α)

namespace Store

variable {α : Type}

/-- No scopes. -/
def empty : Store α := ⟨#[]⟩

/-- The place that the next scope will have. -/
def nextId (s : Store α) : ScopeId := s.scopes.size

/-- Adds a scope. -/
def push (b : Bindings α) (s : Store α) : Store α := ⟨s.scopes.push b⟩

/-- The variables of a scope. -/
def scope (id : ScopeId) (s : Store α) : Bindings α := (s.scopes[id]?).getD Bindings.empty

/-- The value of a variable of a scope. -/
def get? (id : ScopeId) (name : String) (s : Store α) : Option α := (s.scope id).get? name

/-- Gives a variable of a scope a value; the variable is made if the scope lacks it. -/
def set (id : ScopeId) (name : String) (value : α) (s : Store α) : Store α :=
  ⟨s.scopes.modify id (fun b => b.insert name value)⟩

/-- Gives a variable of the innermost scope a value, making it if need be. -/
def define (env : Env) (name : String) (value : α) (s : Store α) : Store α :=
  match env with
  | [] => s
  | id :: _ => s.set id name value

/-- The first scope of a chain that has the variable. -/
def home? (env : Env) (name : String) (s : Store α) : Option ScopeId :=
  env.find? (fun id => (s.scope id).contains name)

/-- The value of the first variable with the name along a chain. -/
def lookup? (env : Env) (name : String) (s : Store α) : Option α :=
  env.findSome? (fun id => s.get? id name)

/-- Gives the first variable with the name along a chain a value. -/
def assign? (env : Env) (name : String) (value : α) (s : Store α) : Option (Store α) :=
  (s.home? env name).map (fun id => s.set id name value)

/-- The value of the variable that the scope `distance` scopes out has. -/
def getAt (env : Env) (distance : Int) (name : String) (s : Store α) : Except Fault α := do
  let outer ← env.leave distance
  match outer.head?.bind (fun id => s.get? id name) with
  | some value => return value
  | none => throw (.missingName name)

/-- Gives a variable of the scope `distance` scopes out a value, making it if need be. -/
def setAt (env : Env) (distance : Int) (name : String) (value : α) (s : Store α) :
    Except Fault (Store α) := do
  return s.define (← env.leave distance) name value

/-! ## Elementary facts -/

@[simp] theorem nextId_push (b : Bindings α) (s : Store α) :
    (s.push b).nextId = s.nextId + 1 := by
  simp [nextId, push]

@[simp] theorem nextId_set (id : ScopeId) (name : String) (value : α) (s : Store α) :
    (s.set id name value).nextId = s.nextId := by
  simp [nextId, set]

/-- A new scope changes no other, and has the variables it was made with. -/
theorem scope_push (b : Bindings α) (id : ScopeId) (s : Store α) :
    (s.push b).scope id = if id = s.nextId then b else s.scope id := by
  simp only [scope, push, nextId, Array.getElem?_push]
  split <;> simp_all

/-- Setting a variable changes the scope it is in, and no other. -/
theorem scope_set (id other : ScopeId) (name : String) (value : α) (s : Store α) :
    (s.set id name value).scope other =
      if other = id ∧ id < s.nextId then (s.scope id).insert name value else s.scope other := by
  simp only [scope, set, nextId, Array.getElem?_modify]
  by_cases h : other = id
  · subst h
    by_cases hlt : other < s.scopes.size
    · simp [hlt]
    · simp [hlt]
  · simp [h, Ne.symm h]

/-- Looking a variable up along a chain reads it in the first scope that has it. -/
theorem lookup?_eq_home? (env : Env) (name : String) (s : Store α) :
    s.lookup? env name = (s.home? env name).bind (fun id => s.get? id name) := by
  induction env with
  | nil => rfl
  | cons id outer ih =>
    simp only [lookup?, home?] at ih
    have hc : (s.scope id).contains name = (s.get? id name).isSome := rfl
    cases h : s.get? id name with
    | none => simp [lookup?, home?, hc, h, ih]
    | some v => simp [lookup?, home?, hc, h]

end Store

/-- Environments by number, in the order in which they were made. The `n`-th of them has the
`n`-th scope of the store as its innermost. -/
structure Environments (α : Type) where
  store : Store α
  chains : List Env

namespace Environments

variable {α : Type}

/-- No environments. -/
def empty : Environments α := ⟨Store.empty, []⟩

/-- The chain of an environment. -/
def chain (n : Nat) (e : Environments α) : Env := (e.chains[n]?).getD []

/-- Makes an environment without variables inside another one, or one that is outermost. -/
def push (parent : Option Nat) (e : Environments α) : Environments α :=
  let outer := parent.elim [] e.chain
  { store := e.store.push Bindings.empty
    chains := e.chains ++ [e.store.nextId :: outer] }

/-- Makes a variable of an environment, or gives it another value. -/
def define (n : Nat) (name : String) (value : α) (e : Environments α) : Environments α :=
  { e with store := e.store.define (e.chain n) name value }

/-- The value of the variable that a name means in an environment. -/
def get (n : Nat) (name : Token) (e : Environments α) : Except RuntimeError α :=
  match e.store.lookup? (e.chain n) name.lexeme with
  | some value => .ok value
  | none => .error ⟨.undefinedVariable name.lexeme, name⟩

/-- Gives the variable that a name means in an environment a value. -/
def assign (n : Nat) (name : Token) (value : α) (e : Environments α) :
    EStateM.Result RuntimeError (Environments α) Unit :=
  match e.store.assign? (e.chain n) name.lexeme value with
  | some store => .ok () { e with store := store }
  | none => .error ⟨.undefinedVariable name.lexeme, name⟩ e

/-- The environment that is left after `distance` environments. -/
def ancestor (n : Nat) (distance : Int) (e : Environments α) : Except Fault Nat :=
  ((e.chain n).leave distance).map fun outer => outer.headD n

/-- The value of a variable of the environment `distance` environments out. -/
def getAt (n : Nat) (distance : Int) (name : String) (e : Environments α) : Except Fault α :=
  e.store.getAt (e.chain n) distance name

/-- Gives a variable of the environment `distance` environments out a value. -/
def assignAt (n : Nat) (distance : Int) (name : Token) (value : α) (e : Environments α) :
    EStateM.Result Fault (Environments α) Unit :=
  match e.store.setAt (e.chain n) distance name.lexeme value with
  | .ok store => .ok () { e with store := store }
  | .error f => .error f e

end Environments

end LoxLang
