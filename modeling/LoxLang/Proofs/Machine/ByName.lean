import LoxLang.Proofs.Machine.Access

/-! # Variables by name

A variable can be reached without any table: by its name, along the chain of scopes to the first
that has it.  This leads to another scope than the hops in the table only where a scope on the way
gets the name although it did not have it where the reference stands, or where the variable that
the hops lead to is not there yet.  References for which neither can happen are direct, and for
them the two ways agree (`Access.agrees_byName`). -/

namespace LoxLang

open Binder (Surroundings ClassContext)

/-! ## The way along the chain -/

namespace Action

/-- The value of the first variable with the name along a chain. -/
def lookUp (env : Env) (name : String) (place : Token) : Action Value := do
  match (← get).store.lookup? env name with
  | some value => return value
  | none => fail (.undefinedVariable name) place

/-- Gives the first variable with the name along a chain a value; it has to be there. -/
def assignAlong (env : Env) (name : Token) (value : Value) : Action Unit := do
  match (← get).store.assign? env name.lexeme value with
  | some store => modify fun m => { m with store := store }
  | none => fail (.undefinedVariable name.lexeme) name

end Action

/-- References reach their variables by name, along the chain of scopes. -/
def Access.byName : Access where
  read env ref := Action.lookUp env ref.name.lexeme ref.name
  assign env ref value := Action.assignAlong env ref.name value
  parent env ref := do
    let above ← Action.lookUp env "super" ref.name
    let object ← Action.lookUp env "this" ref.name
    return (above, object)

/-! ## Direct references -/

/-- No open scope between a point of the program and the scope that a name is bound to there gets
the name anywhere; if the name is not bound to any, no open scope at all does. -/
def Context.Unshadowed (name : String) (context : Context) : Prop :=
  ∀ scope ∈ context.take ((context.hops? name).getD context.length), name ∉ scope.whole

/-- A reference to a name that is not shadowed, and that is defined by now if a value is assigned
to it. -/
structure Use.Direct {ι : Type} (u : Use ι) : Prop where
  unshadowed : u.context.Unshadowed u.ref.name.lexeme
  defined : u.kind = .assign → u.isPending = false

/-- A name that a scope has from the first wherever it has it at all is never shadowed. -/
theorem Context.unshadowed_of_has {name : String} {context : Context}
    (h : ∀ scope ∈ context, name ∈ scope.whole → scope.has name) : context.Unshadowed name := by
  intro scope hscope hwhole
  have hhas := h scope (List.mem_of_mem_take hscope) hwhole
  cases hhops : context.hops? name with
  | none =>
    have hnot := Context.not_has_of_hops?_eq_none hhops scope (List.mem_of_mem_take hscope)
    rw [hhas] at hnot
    cases hnot
  | some hops =>
    rw [hhops] at hscope
    obtain ⟨i, hi, hget⟩ := List.mem_take_iff_getElem.mp hscope
    obtain ⟨_, _, _, hbefore⟩ := Context.exists_of_hops? hhops
    have hlt : i < hops := by
      have : i < min hops context.length := hi
      omega
    have hnot := hbefore i hlt scope (by rw [← hget]; exact List.getElem?_eq_getElem _)
    rw [hhas] at hnot
    cases hnot

/-! ## Scopes that are passed by -/

section
variable {Q : Demand Label} {W : Plan} {m : Machine} {context : Context} {env : Env}
  {name : String}

/-- The scopes of the machine that stand for open scopes without the name are passed by: they have
none but the names that are planned for them. -/
theorem Shape.home?_drop (hm : m.Sound Q W) (h : Shape W context env) {n : Nat}
    (hn : n ≤ context.length) (hnot : ∀ scope ∈ context.take n, name ∉ scope.whole) :
    m.store.home? env name = m.store.home? (env.drop n) name := by
  induction h generalizing n with
  | globals =>
    obtain rfl : n = 0 := Nat.le_zero.mp hn
    rfl
  | @scope first outer id env hid hplan _ ih =>
    cases n with
    | zero => rfl
    | succ n =>
      rw [List.take_succ_cons, List.forall_mem_cons] at hnot
      have habsent : (m.store.scope id).contains name = false := by
        refine Bool.eq_false_iff.mpr fun hname => ?_
        obtain ⟨names, hnames, hmem⟩ := hm.planned id hid name hname
        rw [hplan] at hnames
        cases hnames
        exact hnot.1 hmem
      show (id :: env).find? _ = _
      rw [List.find?_cons, habsent]
      exact ih (Nat.le_of_succ_le_succ hn) hnot.2

theorem Shape.drop_length (h : Shape W context env) :
    env.drop context.length = Machine.globalEnv := by
  induction h with
  | globals => rfl
  | scope _ _ _ ih => exact ih

/-- A name that is not bound to any open scope is looked for among the globals. -/
theorem Shape.home?_of_none (hm : m.Sound Q W) (h : Shape W context env)
    (hunshadowed : context.Unshadowed name) (hhops : context.hops? name = none) :
    m.store.home? env name = m.store.home? Machine.globalEnv name := by
  rw [Context.Unshadowed, hhops] at hunshadowed
  rw [h.home?_drop hm (Nat.le_refl _) hunshadowed, h.drop_length]

/-- A name that is bound to an open scope is found in the scope that the hops lead to, once it is
there. -/
theorem Shape.home?_of_some (hm : m.Sound Q W) (h : Shape W context env)
    (hunshadowed : context.Unshadowed name) {hops : Nat} (hhops : context.hops? name = some hops)
    {id : ScopeId} (hid : env[hops]? = some id) (hname : (m.store.scope id).contains name) :
    m.store.home? env name = some id := by
  obtain ⟨scope, hscope, _⟩ := Context.exists_of_hops? hhops
  obtain ⟨hlt, _⟩ := List.getElem?_eq_some_iff.mp hscope
  obtain ⟨hlt', hget⟩ := List.getElem?_eq_some_iff.mp hid
  rw [Context.Unshadowed, hhops] at hunshadowed
  rw [h.home?_drop hm (Nat.le_of_lt hlt) hunshadowed, List.drop_eq_getElem_cons hlt', hget]
  show (id :: _).find? _ = _
  rw [List.find?_cons, hname]

/-! ## The two ways agree -/

theorem Action.lookUp_apply {id : ScopeId} {v : Value} {place : Token}
    (hhome : m.store.home? env name = some id) (hv : m.store.get? id name = some v) :
    Action.lookUp env name place m = .ok v m := by
  have hlookup : m.store.lookup? env name = some v := by
    rw [Store.lookup?_eq_home?, hhome]
    exact hv
  rw [Action.lookUp, EStateM.bind_ok (EStateM.get_apply m), hlookup]
  rfl

/-- Looking a name up gives what the scope has to which the hops lead. -/
theorem Shape.lookUp_eq_getAt (hm : m.Sound Q W) (h : Shape W context env)
    (hunshadowed : context.Unshadowed name) {hops : Nat} (hhops : context.hops? name = some hops)
    {id : ScopeId} (hid : env[hops]? = some id) (hname : (m.store.scope id).contains name)
    (place : Token) : Action.lookUp env name place m = Action.getAt env hops name m := by
  obtain ⟨v, hv⟩ := Option.isSome_iff_exists.mp hname
  rw [Action.lookUp_apply (h.home?_of_some hm hunshadowed hhops hid hname) hv,
    Action.getAt_apply hid hv]

end

/-- **Direct references reach by name what they reach by the hops in the table.** -/
theorem Access.agrees_byName {Q : Demand Label} {table : BindingTable}
    (htable : ∀ u, Q u → table.hops? u.ref.label = u.hops?) (hdirect : ∀ u, Q u → u.Direct) :
    Access.Agrees Q table Access.byName where
  hops_eq := htable
  read := by
    intro W m env u hm hreach hu hkind
    have hpending : u.isPending = false := by
      rcases hkind with ⟨_, _, hpending⟩ | ⟨_, hthis⟩
      · exact hpending
      · rw [Use.isPending, hthis]
        exact hreach.coherent.not_isPending_this
    have hunshadowed := (hdirect u hu).unshadowed
    unfold Action.read
    rw [htable u hu]
    cases hhops : u.hops? with
    | some hops =>
      obtain ⟨id, hid, hname⟩ := hreach.present hpending hops hhops
      exact hreach.shape.lookUp_eq_getAt hm hunshadowed hhops hid hname u.ref.name
    | none =>
      -- no scope of the program has the name, so both ways end at the global variables
      have hhome := hreach.shape.home?_of_none hm hunshadowed hhops
      have hlookup : m.store.lookup? env u.ref.name.lexeme =
          m.store.lookup? Machine.globalEnv u.ref.name.lexeme := by
        rw [Store.lookup?_eq_home?, hhome, ← Store.lookup?_eq_home?]
      show Action.lookUp env u.ref.name.lexeme u.ref.name m = _
      rw [Action.lookUp, EStateM.bind_ok (EStateM.get_apply m), hlookup]
      rfl
  assign := by
    intro W m env u hm hreach hu hkind hname value
    obtain ⟨hunshadowed, hdefined⟩ := hdirect u hu
    show Action.assignAlong env u.ref.name value m = _
    unfold Action.assign Action.assignAlong
    rw [htable u hu, EStateM.bind_ok (EStateM.get_apply m), Store.assign?]
    cases hhops : u.hops? with
    | some hops =>
      obtain ⟨id, hid, hhas⟩ := hreach.present (hdefined hkind) hops hhops
      -- the nearest scope with the name is the one to which the hops lead
      rw [hreach.shape.home?_of_some hm hunshadowed hhops hid hhas]
      show _ = ((Action.ofAccess (env.leave hops) : Action Env) >>= _) m
      rw [Env.leave_of_getElem? hid]
      rfl
    | none =>
      rw [hreach.shape.home?_of_none hm hunshadowed hhops]
      simp only [EStateM.bind_ok (EStateM.get_apply m)]
      cases m.store.home? Machine.globalEnv u.ref.name.lexeme <;> rfl
  parent := by
    intro W m env u hm hstands hu _ hsuper hderived
    -- `this` stands one hop before `super`, and both words are in their scopes from the first.
    obtain ⟨hops, hhops, hthis⟩ := hstands.coherent.derived hderived
    obtain ⟨id, hid, hhas⟩ := hstands.exists_of_hops? hstands.coherent.not_isPending_super hhops
    obtain ⟨id', hid', hhas'⟩ := hstands.exists_of_hops? hstands.coherent.not_isPending_this hthis
    have habove := hstands.shape.lookUp_eq_getAt hm
      (Context.unshadowed_of_has hstands.coherent.super) hhops hid hhas u.ref.name
    have hobject := hstands.shape.lookUp_eq_getAt hm
      (Context.unshadowed_of_has hstands.coherent.this) hthis hid' hhas' u.ref.name
    obtain ⟨v, hv⟩ := Option.isSome_iff_exists.mp hhas
    have hget := Action.getAt_apply hid hv
    have htable' : table.hops? u.ref.label = some (hops + 1) := by
      rw [htable u hu, Use.hops?, hsuper]
      exact hhops
    have hless : ((hops + 1 : Nat) : Int) - 1 = (hops : Nat) := by omega
    unfold Action.parent
    rw [htable']
    show (Action.lookUp env "super" u.ref.name >>= _) m = (Action.getAt env _ "super" >>= _) m
    rw [EStateM.bind_ok (habove.trans hget), EStateM.bind_ok hget, EStateM.bind_apply,
      EStateM.bind_apply, hless, hobject]

end LoxLang
