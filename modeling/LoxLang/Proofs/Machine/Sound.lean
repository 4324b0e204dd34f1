import LoxLang.Proofs.Machine.Plan
import LoxLang.Proofs.Scope.Inside

/-! # Machines in order

What holds of a machine between any two steps of a run: each function kept in a variable, a field
or a class was made in an environment that fits the scopes around it, its body is ready to run
there, each scope has none but the names that are planned for it, `this` is an object wherever it is
there at all, and `super` is a class. -/

namespace LoxLang

open Binder (Surroundings FunctionContext ClassContext)

/-! ## Values -/

/-- A function fits the place where it was made. -/
structure Closure.At (Q : Demand Label) (W : Plan) (store : Store Value)
    (around : Surroundings) (kind : FunctionContext) (context : Context) (f : Closure) :
    Prop where
  stands : Stands W store around.classBody context f.env
  defined : context.Defined
  inside : kind ≠ .outside
  ready : f.declaration.Ready Q around kind context
  /-- A method that sets up objects stands in the scope of `this`. -/
  this : f.isInitializer →
    ∃ scope, context.head? = some scope ∧ scope.declared.get? "this" = some true

/-- A function can be called. -/
def Closure.Callable (Q : Demand Label) (W : Plan) (store : Store Value) (f : Closure) :
    Prop := ∃ around kind context, f.At Q W store around kind context

/-- A method fits the class where it was made, and will stand in the scope of `this`. -/
structure Closure.MethodAt (Q : Demand Label) (W : Plan) (store : Store Value)
    (around : Surroundings) (kind : FunctionContext) (context : Context) (f : Closure) :
    Prop where
  shape : Shape W context f.env
  present : Present store context f.env
  defined : context.Defined
  coherent : Context.Coherent around.classBody (.ofWord "this" :: context)
  inside : kind ≠ .outside
  ready : f.declaration.Ready Q around kind (.ofWord "this" :: context)

/-- A function can be taken from an object. -/
def Closure.Takeable (Q : Demand Label) (W : Plan) (store : Store Value) (f : Closure) :
    Prop := ∃ around kind context, f.MethodAt Q W store around kind context

/-- The methods of a class can be taken from objects. -/
def ClassValue.Sound (Q : Demand Label) (W : Plan) (store : Store Value) (c : ClassValue) :
    Prop :=
  ∀ level ∈ c.lineage, ∀ name f, level.methods.get? name = some f → f.Takeable Q W store

/-- The functions in a value can be called, and the methods in it be taken from objects. -/
def Value.Sound (Q : Demand Label) (W : Plan) (store : Store Value) : Value → Prop
  | .datum _ | .clock => True
  | .function f => f.Callable Q W store
  | .classOf c | .object _ c => c.Sound Q W store

/-- A machine whose variables and fields are in order. -/
structure Machine.Sound (Q : Demand Label) (W : Plan) (m : Machine) : Prop where
  length : W.length = m.store.nextId
  pos : 0 < m.store.nextId
  values : ∀ id name v, m.store.get? id name = some v → v.Sound Q W m.store
  planned : ∀ id, id ≠ 0 → ∀ name, (m.store.scope id).contains name →
    ∃ names, W[id]? = some names ∧ name ∈ names
  fields : ∀ id name v, (m.fields id).get? name = some v → v.Sound Q W m.store
  this : ∀ id v, m.store.get? id "this" = some v → ∃ i c, v = .object i c
  super : ∀ id v, m.store.get? id "super" = some v → ∃ c, v = .classOf c

section
variable {Q Q' : Demand Label} {W W' : Plan} {store store' : Store Value}

theorem Value.sound_nil : Value.nil.Sound Q W store := trivial

theorem Closure.Callable.grow {f : Closure} (h : f.Callable Q W store)
    (hgrows : Grows W store W' store') : f.Callable Q W' store' := by
  obtain ⟨around, kind, context, h⟩ := h
  exact ⟨around, kind, context, { h with stands := h.stands.grow hgrows }⟩

theorem Closure.Takeable.grow {f : Closure} (h : f.Takeable Q W store)
    (hgrows : Grows W store W' store') : f.Takeable Q W' store' := by
  obtain ⟨around, kind, context, h⟩ := h
  exact ⟨around, kind, context,
    { h with shape := h.shape.mono hgrows.plan, present := h.present.mono hgrows.names }⟩

theorem ClassValue.Sound.grow {c : ClassValue} (h : c.Sound Q W store)
    (hgrows : Grows W store W' store') : c.Sound Q W' store' :=
  fun level hlevel name f hf => (h level hlevel name f hf).grow hgrows

theorem Value.Sound.grow {v : Value} (h : v.Sound Q W store) (hgrows : Grows W store W' store') :
    v.Sound Q W' store' := by
  cases v with
  | datum | clock => trivial
  | function f => exact Closure.Callable.grow h hgrows
  | classOf c | object _ c => exact ClassValue.Sound.grow h hgrows

/-- A value stays in order when nothing is asked any longer of what stands outside functions. -/
theorem Value.Sound.imp {v : Value} (h : v.Sound Q W store) (hQ : Q.StrongerInside Q') :
    v.Sound Q' W store := by
  have hclass : ∀ c : ClassValue, c.Sound Q W store → c.Sound Q' W store := by
    intro c hc level hlevel name f hf
    obtain ⟨around, kind, context, h⟩ := hc level hlevel name f hf
    exact ⟨around, kind, context, { h with ready := h.ready.imp h.inside hQ }⟩
  cases v with
  | datum | clock => trivial
  | function f =>
    obtain ⟨around, kind, context, h⟩ := h
    exact ⟨around, kind, context, { h with ready := h.ready.imp h.inside hQ }⟩
  | classOf c | object _ c => exact hclass c h

theorem Machine.Sound.imp {m : Machine} (h : m.Sound Q W) (hQ : Q.StrongerInside Q') :
    m.Sound Q' W :=
  { h with
    values := fun id name v hv => (h.values id name v hv).imp hQ
    fields := fun id name v hv => (h.fields id name v hv).imp hQ }

/-- The method of a name that a class has can be taken from objects. -/
theorem ClassValue.Sound.method? {c : ClassValue} (h : c.Sound Q W store) {name : String}
    {f : Closure} (hf : c.method? name = some f) : f.Takeable Q W store := by
  obtain ⟨level, hlevel, hf⟩ := List.exists_of_findSome?_eq_some hf
  exact h level hlevel name f hf

end

/-- A machine before its first program is in order. -/
theorem Machine.sound_start (Q : Demand Label) : Machine.start.Sound Q [[]] := by
  have hget : ∀ id name v, Machine.start.store.get? id name = some v → v = .clock ∧ name = "clock" := by
    intro id name v hv
    cases id with
    | zero =>
      simp only [Store.get?, Store.scope, Machine.start, Store.push, Store.empty] at hv
      simp [Bindings.get?_insert] at hv
      exact ⟨hv.2.symm, hv.1⟩
    | succ id => simp [Store.get?, Store.scope, Machine.start, Store.push, Store.empty] at hv
  refine ⟨rfl, Nat.zero_lt_one, fun id name v hv => ?_, fun id hid name hname => ?_,
    fun id name v hv => ?_, fun id v hv => ?_, fun id v hv => ?_⟩
  · rw [(hget id name v hv).1]
    trivial
  · cases id with
    | zero => exact absurd rfl hid
    | succ id => simp [Store.scope, Machine.start, Store.push, Store.empty] at hname; cases hname
  · simp [Machine.fields, Machine.start] at hv
  · exact absurd (hget id "this" v hv).2 (by decide)
  · exact absurd (hget id "super" v hv).2 (by decide)

end LoxLang
