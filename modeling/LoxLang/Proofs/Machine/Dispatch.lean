import LoxLang.Proofs.Machine.Access
import LoxLang.Proofs.Machine.Leaves

/-! # Methods, and the words in their scopes

Where a method comes from: from the first class in the chain of superclasses that has it
(`ClassValue.method?_eq`), into a scope of its own in which `this` is the object it is taken from
(`Action.takeMethod_apply`).  And where `this` and `super` lead in a method: to the first scopes of
the environment in which they have a meaning (`Stands.hops?_word`), so that what is found there is
what the method and its class were made with. -/

namespace LoxLang

open Machine
open Binder (ClassContext)

/-! ## Classes -/

namespace ClassValue

/-- A class, its superclass, the superclass of that and so on. -/
def chainFrom (own : ClassLevel) : List ClassLevel → List ClassValue
  | [] => [⟨own, []⟩]
  | nearest :: further => ⟨own, nearest :: further⟩ :: chainFrom nearest further

/-- The chain of superclasses, the class itself first. -/
def chain (c : ClassValue) : List ClassValue := chainFrom c.own c.above

theorem chain_eq (c : ClassValue) :
    c.chain = c :: (match c.superclass? with
      | none => []
      | some d => d.chain) := by
  obtain ⟨own, above⟩ := c
  cases above <;> rfl

theorem map_own_chain (c : ClassValue) : c.chain.map own = c.lineage := by
  obtain ⟨own, above⟩ := c
  show (chainFrom own above).map ClassValue.own = own :: above
  induction above generalizing own with
  | nil => rfl
  | cons nearest further ih => exact congrArg (own :: ·) (ih nearest)

/-- **A class has the method of the first class in its chain that has one itself.** -/
theorem method?_eq (c : ClassValue) (name : String) :
    c.method? name = c.chain.findSome? fun d => d.own.methods.get? name := by
  rw [method?, ← map_own_chain, List.findSome?_map]
  rfl

end ClassValue

/-! ## Taking methods -/

/-- The function is the method in a scope of its own, outside those that there were. -/
structure Closure.TakenFrom (method : Closure) (t : ScopeId) (f : Closure) : Prop where
  declaration : f.declaration = method.declaration
  isInitializer : f.isInitializer = method.isInitializer
  env : f.env = t :: method.env

theorem Action.takeMethod_apply (object : Value) (method : Closure) (m : Machine) :
    ∃ f m', takeMethod object method m = .ok f m' ∧ method.TakenFrom m.store.nextId f ∧
      m'.store.get? m.store.nextId "this" = some object := by
  refine ⟨_, _, rfl, ⟨rfl, rfl, rfl⟩, ?_⟩
  show (m.store.push (Bindings.empty.insert "this" object)).get? _ _ = _
  rw [Store.get?, Store.scope_push, if_pos rfl]
  exact Bindings.get?_insert_self ..

/-- A property of an object is its field, or else the method of its class, taken from it. -/
theorem Action.property_apply (id : Nat) (c : ClassValue) (name : Token) (m : Machine) :
    match (m.fields id).get? name.lexeme with
    | some v => property id c name m = .ok v m
    | none =>
      match c.chain.findSome? fun d => d.own.methods.get? name.lexeme with
      | some method => ∃ f m', property id c name m = .ok (.function f) m' ∧
          method.TakenFrom m.store.nextId f ∧
          m'.store.get? m.store.nextId "this" = some (.object id c)
      | none => property id c name m = .error (.error ⟨.undefinedProperty name.lexeme, name⟩) m := by
  rw [← ClassValue.method?_eq]
  unfold property
  rw [EStateM.bind_ok (EStateM.get_apply m)]
  cases (m.fields id).get? name.lexeme with
  | some v => rfl
  | none =>
    cases c.method? name.lexeme with
    | none => rfl
    | some method =>
      obtain ⟨f, m', htake, hf, hthis⟩ := takeMethod_apply (.object id c) method m
      refine ⟨f, m', ?_, hf, hthis⟩
      dsimp only
      rw [EStateM.bind_ok htake]
      rfl

/-! ## Making classes -/

/-- The methods of a class are those of the class statement, all in one environment. -/
structure MethodsOf (methods : List (Function Label)) (env : Env) (bs : Bindings Closure) :
    Prop where
  made : ∀ name f, bs.get? name = some f →
    f.declaration ∈ methods ∧ f.declaration.name.lexeme = name ∧ f.env = env ∧
      f.isInitializer = f.declaration.isInitializer
  contains : ∀ f ∈ methods, bs.contains f.name.lexeme

/-- The class is that of a class statement, with the superclass and with the methods in the
environment. -/
structure ClassValue.MadeFrom (name : Token) (parent : Option ClassValue)
    (methods : List (Function Label)) (env : Env) (c : ClassValue) : Prop where
  name : c.own.name = name.lexeme
  superclass : c.superclass? = parent
  methods : MethodsOf methods env c.own.methods

theorem makeMethods_apply (env : Env) (methods : List (Function Label)) (m : Machine) :
    ∃ bs m', makeMethods env methods m = .ok bs m' ∧ m'.store = m.store ∧
      MethodsOf methods env bs := by
  have hpairs : ∃ pairs m', (methods.mapM fun f => do
        let method : Closure := ⟨← Action.freshId, f, env, f.isInitializer⟩
        return (f.name.lexeme, method)) m = .ok pairs m' ∧ m'.store = m.store ∧
      pairs.map Prod.fst = methods.map (fun f => f.name.lexeme) ∧
      ∀ p ∈ pairs, p.2.declaration ∈ methods ∧ p.2.declaration.name.lexeme = p.1 ∧
        p.2.env = env ∧ p.2.isInitializer = p.2.declaration.isInitializer := by
    induction methods generalizing m with
    | nil => exact ⟨[], m, rfl, rfl, rfl, List.forall_mem_nil _⟩
    | cons f methods ih =>
      obtain ⟨pairs, m', hran, hstore, hnames, hmade⟩ := ih { m with nextId := m.nextId + 1 }
      refine ⟨(f.name.lexeme, ⟨m.nextId, f, env, f.isInitializer⟩) :: pairs, m', ?_, hstore,
        congrArg (f.name.lexeme :: ·) hnames,
        List.forall_mem_cons.mpr ⟨⟨List.mem_cons_self, rfl, rfl, rfl⟩, fun p hp => ?_⟩⟩
      · rw [List.mapM_cons, bind_assoc,
          EStateM.bind_ok (rfl : Action.freshId m = .ok m.nextId { m with nextId := m.nextId + 1 }),
          pure_bind, EStateM.bind_ok hran]
        rfl
      · obtain ⟨hmem, hrest⟩ := hmade p hp
        exact ⟨List.mem_cons_of_mem _ hmem, hrest⟩
  obtain ⟨pairs, m', hran, hstore, hnames, hmade⟩ := hpairs
  refine ⟨Bindings.ofList pairs, m', ?_, hstore, fun name f hf => ?_, fun f hf => ?_⟩
  · rw [makeMethods, EStateM.bind_ok hran]
    rfl
  · exact hmade (name, f) (Bindings.mem_of_get?_ofList hf)
  · rw [Bindings.contains_ofList, hnames]
    exact List.mem_map_of_mem hf

/-- What a class statement makes: the class, in a variable where the statement stands.  If there is a
superclass, the methods are in a new scope, in which `super` is that. -/
theorem makeClass_apply {id : ScopeId} {outer : Env} {name : Token} (hname : name.IsName)
    (parent : Option ClassValue) (methods : List (Function Label)) {m : Machine}
    (hid : id < m.store.nextId) :
    ∃ c m', makeClass (id :: outer) name parent methods m = .ok () m' ∧
      m'.store.get? id name.lexeme = some (.classOf c) ∧
      c.MadeFrom name parent methods
        (if parent.isSome then m.store.nextId :: id :: outer else id :: outer) ∧
      ∀ d ∈ parent, m'.store.get? m.store.nextId "super" = some (.classOf d) := by
  -- with and without a superclass the same is done, once the scope around the methods is there
  have hrest : ∀ (above : List ClassLevel) (rest : Env) (m₁ : Machine), id < m₁.store.nextId →
      ∃ own m', (do
          let methods ← makeMethods rest methods
          let own : ClassLevel := ⟨← Action.freshId, name.lexeme, methods⟩
          Action.define (id :: outer) name.lexeme (.classOf ⟨own, above⟩)) m₁ = .ok () m' ∧
        m'.store.get? id name.lexeme = some (.classOf ⟨own, above⟩) ∧
        own.name = name.lexeme ∧ MethodsOf methods rest own.methods ∧
        m₁.store.KeepsWords m'.store := by
    intro above rest m₁ hid
    obtain ⟨bs, m₂, hran, hstore, hbs⟩ := makeMethods_apply rest methods m₁
    rw [EStateM.bind_ok hran]
    refine ⟨⟨m₂.nextId, name.lexeme, bs⟩, _, rfl, ?_, rfl, hbs, ?_⟩
    · show (m₂.store.set id name.lexeme _).get? id _ = _
      rw [Store.get?, Store.scope_set, if_pos ⟨rfl, hstore ▸ hid⟩]
      exact Bindings.get?_insert_self ..
    · rw [← hstore]
      exact .set _ _ hname.not_isWord _
  cases parent with
  | none =>
    obtain ⟨own, m', hran, hget, hown, hmethods, _⟩ := hrest [] (id :: outer) m hid
    exact ⟨⟨own, []⟩, m', hran, hget, ⟨hown, rfl, hmethods⟩, fun _ hd => by cases hd⟩
  | some d =>
    have hsuper : (m.store.push (Bindings.empty.insert "super" (.classOf d))).get?
        m.store.nextId "super" = some (.classOf d) := by
      rw [Store.get?, Store.scope_push, if_pos rfl]
      exact Bindings.get?_insert_self ..
    obtain ⟨own, m', hran, hget, hown, hmethods, hkeeps⟩ := hrest d.lineage
      (m.store.nextId :: id :: outer)
      { m with store := m.store.push (Bindings.empty.insert "super" (.classOf d)) }
      (by simpa using Nat.lt_succ_of_lt hid)
    refine ⟨⟨own, d.lineage⟩, m', hran, hget, ⟨hown, rfl, hmethods⟩, ?_⟩
    rintro _ ⟨⟩
    exact hkeeps.some (.inr rfl) hsuper

/-! ## Words -/

section
variable {Q : Demand Label} {W : Plan} {classBody : ClassContext} {context : Context}
  {m : Machine}

theorem Shape.length_eq {env : Env} (h : Shape W context env) : env.length = context.length + 1 := by
  induction h with
  | globals => rfl
  | scope _ _ _ ih => simpa using ih

/-- **A word leads to the first scope in which it has a meaning**, as many scopes out as that is. -/
theorem Stands.hops?_word {skipped rest : Env} {id : ScopeId} {word : String} {v : Value}
    (h : Stands W m.store classBody context (skipped ++ id :: rest)) (hm : m.Sound Q W)
    (hword : IsWord word) (hrest : rest ≠ [])
    (hskipped : ∀ other ∈ skipped, m.store.get? other word = none)
    (hid : m.store.get? id word = some v) : context.hops? word = some skipped.length := by
  have hlt : skipped.length < context.length := by
    have hlength := h.shape.length_eq
    have hpos := List.length_pos_iff.mpr hrest
    rw [List.length_append, List.length_cons] at hlength
    omega
  have hscope : context[skipped.length]? = some context[skipped.length] :=
    List.getElem?_eq_getElem hlt
  obtain ⟨id', hid', hne, hplan⟩ := h.shape.getElem? hscope
  obtain rfl : id = id' := by simpa using hid'
  obtain ⟨names, hnames, hmem⟩ := hm.planned id hne word (Option.isSome_of_eq_some hid)
  obtain rfl : names = (context[skipped.length]).whole := Option.some.inj (hnames.symm.trans hplan)
  refine List.findIdx?_eq_some_iff_getElem.mpr ⟨hlt, ?_, fun i hi => ?_⟩
  · rcases hword with rfl | rfl
    · exact h.coherent.this _ (List.getElem_mem hlt) hmem
    · exact h.coherent.super _ (List.getElem_mem hlt) hmem
  · -- a scope of the program that has the word has it defined, so the one of the machine has it
    intro hhas
    have hi' : i < context.length := Nat.lt_trans hi hlt
    obtain ⟨d, hd⟩ := Option.isSome_iff_exists.mp hhas
    have hdefined := h.coherent.defined _ (List.getElem_mem hi')
    have htrue : d = true := by
      cases d with
      | true => rfl
      | false =>
        rcases hword with rfl | rfl
        · exact absurd hd hdefined.1
        · exact absurd hd hdefined.2
    subst htrue
    have hother : (skipped ++ id :: rest)[i]? = some skipped[i] := by
      rw [List.getElem?_append_left hi, List.getElem?_eq_getElem hi]
    have hcontains := h.present i _ _ (List.getElem?_eq_getElem hi') hother word hd
    have hnone := hskipped _ (List.getElem_mem hi)
    rw [Store.get?] at hnone
    rw [Bindings.contains, hnone] at hcontains
    cases hcontains

end

/-- Around a place of a program there is an environment. -/
theorem Mirrors.ne_nil {H : Chronicle} {store : Store Value} {around : Whereabouts Label} {env : Env}
    (h : Mirrors H store around env) : env ≠ [] := by
  induction h with
  | initializer _ ih => exact ih
  | _ => exact List.cons_ne_nil _ _

section
variable {table : BindingTable} {m : Machine} {ref : Ref Label} {ids rest : Env} {t : ScopeId}
  {object : Value}

theorem Action.read_word (hhops : table.hops? ref.label = some ids.length)
    (hget : m.store.get? t ref.name.lexeme = some object) :
    Action.read table (ids ++ t :: rest) ref m = .ok object m := by
  rw [Action.read, hhops]
  exact getAt_apply (by simp) hget

theorem Action.parent_word {p : ScopeId} {above : Value}
    (hhops : table.hops? ref.label = some (ids.length + 1))
    (hthis : m.store.get? t "this" = some object) (hsuper : m.store.get? p "super" = some above) :
    Action.parent table (ids ++ t :: p :: rest) ref m = .ok (above, object) m := by
  have habove : Action.getAt (ids ++ t :: p :: rest) ((ids.length + 1 : Nat) : Int) "super" m =
      .ok above m := getAt_apply (by simp) hsuper
  have hobject : Action.getAt (ids ++ t :: p :: rest) ((ids.length : Nat) : Int) "this" m =
      .ok object m := getAt_apply (by simp) hthis
  have hless : ((ids.length + 1 : Nat) : Int) - 1 = ((ids.length : Nat) : Int) := by omega
  rw [Action.parent, hhops]
  show (Action.getAt _ ((ids.length + 1 : Nat) : Int) "super" >>= fun above =>
    Action.getAt _ (((ids.length + 1 : Nat) : Int) - 1) "this" >>= fun object =>
      pure (above, object)) m = _
  rw [EStateM.bind_ok habove, hless, EStateM.bind_ok hobject]
  rfl

/-- The method that `super` gives is that of the first class that has one in the chain that starts at
the class bound to `super`, taken from the object bound to `this`. -/
theorem Action.superMethod_apply {env : Env} {c d : ClassValue} {id : Nat} (name : Token)
    (hparent : Action.parent table env ref m = .ok (.classOf c, .object id d) m) :
    match c.chain.findSome? fun above => above.own.methods.get? name.lexeme with
    | some method => ∃ f m', superMethod (.byHops table) env ref name m = .ok (.function f) m' ∧
        method.TakenFrom m.store.nextId f ∧
        m'.store.get? m.store.nextId "this" = some (.object id d)
    | none => superMethod (.byHops table) env ref name m =
        .error (.error ⟨.undefinedProperty name.lexeme, name⟩) m := by
  have hran : superMethod (.byHops table) env ref name m =
      (match c.method? name.lexeme with
        | some method => do return .function (← takeMethod (.object id d) method)
        | none => fail (.undefinedProperty name.lexeme) name : Action Value) m :=
    EStateM.bind_ok hparent
  rw [hran, ← ClassValue.method?_eq]
  cases c.method? name.lexeme with
  | none => rfl
  | some method =>
    obtain ⟨f, m', htake, hf, hthis⟩ := takeMethod_apply (.object id d) method m
    refine ⟨f, m', ?_, hf, hthis⟩
    dsimp only
    rw [EStateM.bind_ok htake]
    rfl

end

end LoxLang
