import LoxLang.Proofs.Machine.Runs
import LoxLang.Proofs.Scope.Lexical

/-! # Where functions and methods were made

An environment in which a part of a program is evaluated has the same form as what lies around the
part in the program (`Mirrors`): a scope for each body, and between the scopes of a method and those
around its class that of `this` and, if the class has a superclass, that of `super`.  The two words
have a meaning in the scopes made for them and in no others, and it never changes
(`Store.KeepsWords`).  So what they mean inside a method was settled when the method was taken from
an object and when the class was made. -/

namespace LoxLang

variable {α : Type}

/-! ## Words -/

/-- A word that has a meaning in scopes around methods, and is declared nowhere. -/
def IsWord (name : String) : Prop := name = "this" ∨ name = "super"

theorem Token.IsName.not_isWord {t : Token} (h : t.IsName) : ¬ IsWord t.lexeme :=
  fun hword => hword.elim h.1 h.2

namespace Store

/-- The scope is there, and no word has a meaning in it. -/
structure Wordless (store : Store α) (id : ScopeId) : Prop where
  lt : id < store.nextId
  none : ∀ word, IsWord word → store.get? id word = none

/-- The words mean in the scopes of a store what they meant before. -/
structure KeepsWords (store store' : Store α) : Prop where
  le : store.nextId ≤ store'.nextId
  words : ∀ id < store.nextId, ∀ word, IsWord word → store'.get? id word = store.get? id word

theorem lt_of_get? {store : Store α} {id : ScopeId} {name : String} {value : α}
    (h : store.get? id name = some value) : id < store.nextId := by
  by_contra hlt
  have hnone : store.scopes[id]? = none := Array.getElem?_eq_none (Nat.le_of_not_lt hlt)
  rw [get?, scope, hnone] at h
  cases h

namespace KeepsWords

variable {store store' store'' : Store α}

theorem refl (store : Store α) : store.KeepsWords store := ⟨Nat.le_refl _, fun _ _ _ _ => rfl⟩

theorem trans (h : store.KeepsWords store') (h' : store'.KeepsWords store'') :
    store.KeepsWords store'' :=
  ⟨Nat.le_trans h.le h'.le, fun id hid word hword =>
    (h'.words id (Nat.lt_of_lt_of_le hid h.le) word hword).trans (h.words id hid word hword)⟩

theorem push (store : Store α) (vars : Bindings α) : store.KeepsWords (store.push vars) := by
  refine ⟨by simp, fun id hid word _ => ?_⟩
  rw [Store.get?, scope_push, if_neg (Nat.ne_of_lt hid)]
  rfl

theorem set (store : Store α) (id : ScopeId) {name : String} (hname : ¬ IsWord name) (value : α) :
    store.KeepsWords (store.set id name value) := by
  refine ⟨by simp, fun other _ word hword => ?_⟩
  rw [Store.get?, scope_set]
  split
  · rename_i hother
    have hne : word ≠ name := fun h => hname (h ▸ hword)
    rw [Bindings.get?_insert, if_neg (by simpa using hne), hother.1]
    rfl
  · rfl

/-- What a word means, it means later on. -/
theorem some (h : store.KeepsWords store') {id : ScopeId} {word : String} (hword : IsWord word)
    {value : α} (hvalue : store.get? id word = some value) : store'.get? id word = some value :=
  (h.words id (lt_of_get? hvalue) word hword).trans hvalue

theorem wordless (h : store.KeepsWords store') {id : ScopeId} (hid : store.Wordless id) :
    store'.Wordless id :=
  ⟨Nat.lt_of_lt_of_le hid.lt h.le, fun word hword =>
    (h.words id hid.lt word hword).trans (hid.none word hword)⟩

end KeepsWords
end Store

/-! ## Places and environments -/

/-- What is known of the programs of a session, and of what they have done. -/
structure Chronicle where
  /-- There is such a place in one of the programs. -/
  HasSite : Site Label → Prop
  /-- The scope was made for the methods of a class, with the function among them, when the statement
  of the class was executed in the environment; its superclass was the class. -/
  Derives : ScopeId → Env → Function Label → ClassValue → Prop

section
variable (H : Chronicle) (store : Store Value)

/-- What lies around the scopes of `this` of a class that was made in the environment `env`, with
the function among its methods: if it has a superclass, first the scope where `super` is that. -/
def Inherits (f : Function Label) (env : Env) : Bool → Env → Prop
  | false, rest => rest = env
  | true, rest =>
    ∃ p c, rest = p :: env ∧ store.get? p "super" = some (.classOf c) ∧ H.Derives p env f c

/-- The scope of `this` of a method that was taken from an object. -/
structure Receives (f : Function Label) (env : Env) (derived : Bool) (t : ScopeId)
    (rest : Env) : Prop where
  this : ∃ id c, store.get? t "this" = some (.object id c)
  super : store.get? t "super" = none
  inherits : Inherits H store f env derived rest

/-- An environment leads through a scope for each body around a place, and through the scopes of
`this` and `super` of the methods around it. -/
inductive Mirrors : Whereabouts Label → Env → Prop
  | globals : Mirrors [] Machine.globalEnv
  | body {owner : BodyOf Label} {earlier : List (Stmt Label)} {s : Stmt Label}
      {around : Whereabouts Label} {id : ScopeId} {env : Env} (hid : store.Wordless id)
      (howner : ∀ f, owner ≠ .function f true) (houter : Mirrors around env) :
      Mirrors (.body owner earlier s :: around) (id :: env)
  | method {f : Function Label} {earlier : List (Stmt Label)} {s : Stmt Label} {derived : Bool}
      {around : Whereabouts Label} {id t : ScopeId} {rest env : Env} (hid : store.Wordless id)
      (hthis : Receives H store f env derived t rest) (houter : Mirrors around env) :
      Mirrors (.body (.function f true) earlier s :: .methods derived :: around) (id :: t :: rest)
  | initializer {name : Token} {around : Whereabouts Label} {env : Env}
      (houter : Mirrors around env) : Mirrors (.initializer name :: around) env

/-! ## Values -/

/-- A function that can be called stands in a program where its environment says, be it a method
that was taken from an object or no method. -/
inductive Closure.Located (f : Closure) : Prop
  | function {around : Whereabouts Label} (hwf : f.declaration.WellFormed)
      (henv : Mirrors H store around f.env)
      (hsites : ∀ site ∈ Function.sites false around f.declaration, H.HasSite site)
      (hkind : f.isInitializer = false)
  | method {around : Whereabouts Label} {derived : Bool} {t : ScopeId} {rest env : Env}
      (hwf : f.declaration.WellFormed) (henv : f.env = t :: rest)
      (hthis : Receives H store f.declaration env derived t rest)
      (houter : Mirrors H store around env)
      (hsites : ∀ site ∈ Function.sites true (.methods derived :: around) f.declaration,
        H.HasSite site)

/-- A method of a class stands in a program where its environment says. -/
structure Closure.LocatedMethod (f : Closure) (around : Whereabouts Label) (derived : Bool)
    (env : Env) : Prop where
  wellFormed : f.declaration.WellFormed
  inherits : Inherits H store f.declaration env derived f.env
  outer : Mirrors H store around env
  sites : ∀ site ∈ Function.sites true (.methods derived :: around) f.declaration, H.HasSite site

/-- The methods of a class stand in a program where their environments say. -/
def ClassValue.Located (c : ClassValue) : Prop :=
  ∀ level ∈ c.lineage, ∀ name f, level.methods.get? name = some f →
    ∃ around derived env, f.LocatedMethod H store around derived env

/-- The functions in a value stand where their environments say. -/
def Value.Located : Value → Prop
  | .datum _ | .clock => True
  | .function f => f.Located H store
  | .classOf c | .object _ c => c.Located H store

/-- What is called stands where its environments say. -/
def Callee.Located : Callee → Prop
  | .clock => True
  | .function f => f.Located H store
  | .classOf c => c.Located H store

end

/-- The functions in the variables and fields of a machine stand where their environments say. -/
structure Machine.Located (H : Chronicle) (m : Machine) : Prop where
  pos : 0 < m.store.nextId
  values : ∀ id name v, m.store.get? id name = some v → v.Located H m.store
  fields : ∀ id name v, (m.fields id).get? name = some v → v.Located H m.store

/-! ## Later on -/

section
variable {H H' : Chronicle} {store store' : Store Value}

/-- More is known. -/
structure Chronicle.Extends (H H' : Chronicle) : Prop where
  site : ∀ {site}, H.HasSite site → H'.HasSite site
  derives : ∀ {p env f c}, H.Derives p env f c → H'.Derives p env f c

theorem Chronicle.Extends.refl (H : Chronicle) : H.Extends H := ⟨fun h => h, fun h => h⟩

variable (hH : H.Extends H') (hstore : store.KeepsWords store')
include hH hstore

theorem Inherits.later {f : Function Label} {env rest : Env} {derived : Bool}
    (h : Inherits H store f env derived rest) : Inherits H' store' f env derived rest := by
  cases derived with
  | false => exact h
  | true =>
    obtain ⟨p, c, hrest, hsuper, hderives⟩ := h
    exact ⟨p, c, hrest, hstore.some (.inr rfl) hsuper, hH.derives hderives⟩

theorem Receives.later {f : Function Label} {env rest : Env} {derived : Bool} {t : ScopeId}
    (h : Receives H store f env derived t rest) : Receives H' store' f env derived t rest := by
  obtain ⟨id, c, hthis⟩ := h.this
  refine ⟨⟨id, c, hstore.some (.inl rfl) hthis⟩, ?_, h.inherits.later hH hstore⟩
  exact (hstore.words t (Store.lt_of_get? hthis) "super" (.inr rfl)).trans h.super

theorem Mirrors.later {around : Whereabouts Label} {env : Env} (h : Mirrors H store around env) :
    Mirrors H' store' around env := by
  induction h with
  | globals => exact .globals
  | body hid howner _ ih => exact .body (hstore.wordless hid) howner ih
  | method hid hthis _ ih => exact .method (hstore.wordless hid) (hthis.later hH hstore) ih
  | initializer _ ih => exact .initializer ih

theorem Closure.Located.later {f : Closure} (h : f.Located H store) : f.Located H' store' := by
  cases h with
  | function hwf henv hsites hkind =>
    exact .function hwf (henv.later hH hstore) (fun site h => hH.site (hsites site h)) hkind
  | method hwf henv hthis houter hsites =>
    exact .method hwf henv (hthis.later hH hstore) (houter.later hH hstore)
      fun site h => hH.site (hsites site h)

theorem ClassValue.Located.later {c : ClassValue} (h : c.Located H store) :
    c.Located H' store' := by
  intro level hlevel name f hf
  obtain ⟨around, derived, env, hmethod⟩ := h level hlevel name f hf
  exact ⟨around, derived, env, hmethod.wellFormed, hmethod.inherits.later hH hstore,
    hmethod.outer.later hH hstore, fun site h => hH.site (hmethod.sites site h)⟩

theorem Value.Located.later {v : Value} (h : v.Located H store) : v.Located H' store' := by
  cases v with
  | datum | clock => trivial
  | function f => exact Closure.Located.later hH hstore h
  | classOf c | object _ c => exact ClassValue.Located.later hH hstore h

theorem Callee.Located.later {callee : Callee} (h : callee.Located H store) :
    callee.Located H' store' := by
  cases callee with
  | clock => trivial
  | function f => exact Closure.Located.later hH hstore h
  | classOf c => exact ClassValue.Located.later hH hstore h

end

/-! ## Looking at values -/

section
variable {H : Chronicle} {store : Store Value}

theorem Value.Located.callee? {v : Value} {callee : Callee} (h : v.Located H store)
    (hcallee : v.callee? = some callee) : callee.Located H store := by
  cases v with
  | datum | object => cases hcallee
  | clock => cases hcallee; trivial
  | function f => cases hcallee; exact h
  | classOf c => cases hcallee; exact h

theorem ClassValue.Located.method? {c : ClassValue} (h : c.Located H store) {name : String}
    {f : Closure} (hf : c.method? name = some f) :
    ∃ around derived env, f.LocatedMethod H store around derived env := by
  obtain ⟨level, hlevel, hf⟩ := List.exists_of_findSome?_eq_some hf
  exact h level hlevel name f hf

/-- The value of an operator is a datum. -/
theorem Value.located_of_unary {v u : Value} {op : Token} (h : v.unary op = .ok u) :
    u.Located H store := by
  unfold Value.unary at h
  repeat' split at h
  all_goals cases h <;> trivial

theorem Value.located_of_binary {v w u : Value} {op : Token} (h : v.binary op w = .ok u) :
    u.Located H store := by
  unfold Value.binary Value.plus Value.arithmetic at h
  repeat' split at h
  all_goals cases h <;> trivial

/-- Around a place in a class, the innermost method is followed by its class; and in the
environment, the scope of `this` follows those of the bodies up to the method, and is the first one
in which a word has a meaning. -/
theorem Mirrors.exists_method {around : Whereabouts Label} {env : Env} {derived : Bool}
    (h : Mirrors H store around env) (hclass : around.class? = some derived) :
    ∃ (inner : Whereabouts Label) (f : Function Label) (earlier : List (Stmt Label))
      (s : Stmt Label) (outer : Whereabouts Label),
      around = inner ++ .body (.function f true) earlier s :: .methods derived :: outer ∧
      inner.class? = none ∧
      ∃ ids t rest outside, env = ids ++ t :: rest ∧ ids.length = inner.scopes.length + 1 ∧
        (∀ id ∈ ids, store.Wordless id) ∧ Receives H store f outside derived t rest ∧
        Mirrors H store outer outside := by
  induction h with
  | globals => cases hclass
  | @body owner earlier s around id env hid _ _ ih =>
    obtain ⟨inner, f, earlier', s', outer, rfl, hinner, ids, t, rest, outside, rfl, hlength, hids,
      hthis⟩ := ih hclass
    exact ⟨.body owner earlier s :: inner, f, earlier', s', outer, rfl, hinner, id :: ids, t, rest,
      outside, rfl, congrArg (· + 1) hlength, List.forall_mem_cons.mpr ⟨hid, hids⟩, hthis⟩
  | @method f earlier s derived' around id t rest env hid hthis houter =>
    obtain rfl : derived' = derived := Option.some.inj hclass
    exact ⟨[], f, earlier, s, around, rfl, rfl, [id], t, rest, env, rfl, rfl, by simpa using hid,
      hthis, houter⟩
  | @initializer name around env _ ih =>
    obtain ⟨inner, f, earlier, s, outer, rfl, hinner, henv⟩ := ih hclass
    exact ⟨.initializer name :: inner, f, earlier, s, outer, rfl, hinner, henv⟩

end

end LoxLang
