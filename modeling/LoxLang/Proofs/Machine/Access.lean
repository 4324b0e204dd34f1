import LoxLang.Proofs.Machine.Runs

/-! # Reaching variables

A reference reaches its variable if the environment leads through scopes planned for those that are
open at the reference, and the scope that its name is bound to has the name by now.  By the hops in
the table it then finds a value there, and never leaves the chain of scopes.  Another way to reach
variables agrees with the table if it does the same at all references that reach theirs. -/

namespace LoxLang

open Binder (Surroundings ClassContext)

/-- A reference reaches its variable through an environment. -/
structure Reaches (W : Plan) (store : Store Value) (env : Env) (u : Use Label) : Prop where
  shape : Shape W u.context env
  coherent : u.context.Coherent u.around.classBody
  present : u.isPending = false → ∀ hops, u.hops? = some hops →
    ∃ id, env[hops]? = some id ∧ (store.scope id).contains u.ref.name.lexeme

theorem Stands.reaches {W : Plan} {store : Store Value} {around : Surroundings}
    {context : Context} {env : Env} (h : Stands W store around.classBody context env)
    (ref : Ref Label) (kind : RefUse) : Reaches W store env ⟨ref, kind, around, context⟩ :=
  ⟨h.shape, h.coherent, fun hpending _ hhops => h.exists_of_hops? hpending hhops⟩

/-- References satisfying `Q` reach the same variables in another way as by the hops in a table,
which are those that their places ask for. -/
structure Access.Agrees (Q : Demand Label) (table : BindingTable) (other : Access) : Prop where
  hops_eq : ∀ u, Q u → table.hops? u.ref.label = u.hops?
  read : ∀ {W : Plan} {m : Machine} {env : Env} {u : Use Label}, m.Sound Q W →
    Reaches W m.store env u → Q u →
    (u.kind = .read ∧ u.ref.name.IsName ∧ u.isPending = false ∨
      u.kind = .this ∧ u.ref.name.lexeme = "this") →
    other.read env u.ref m = Action.read table env u.ref m
  assign : ∀ {W : Plan} {m : Machine} {env : Env} {u : Use Label}, m.Sound Q W →
    Reaches W m.store env u → Q u → u.kind = .assign → u.ref.name.IsName → ∀ value,
    other.assign env u.ref value m = Action.assign table env u.ref value m
  parent : ∀ {W : Plan} {m : Machine} {env : Env} {u : Use Label}, m.Sound Q W →
    Stands W m.store u.around.classBody u.context env → Q u → u.kind = .super →
    u.ref.name.lexeme = "super" → u.around.classBody = .derived →
    other.parent env u.ref m = Action.parent table env u.ref m

/-- A table that knows the same hops agrees with a table. -/
theorem Access.agrees_byHops {Q : Demand Label} {table table' : BindingTable}
    (h : ∀ u, Q u → table.hops? u.ref.label = u.hops?)
    (h' : ∀ u, Q u → table'.hops? u.ref.label = u.hops?) :
    Access.Agrees Q table (Access.byHops table') where
  hops_eq := h
  read _ _ hu _ := by simp only [Access.byHops, Action.read, h _ hu, h' _ hu]
  assign _ _ hu _ _ _ := by simp only [Access.byHops, Action.assign, h _ hu, h' _ hu]
  parent _ _ hu _ _ _ := by simp only [Access.byHops, Action.parent, h _ hu, h' _ hu]

/-- Of a table only the hops matter. -/
theorem Access.byHops_congr {table table' : BindingTable}
    (h : ∀ label, table.hops? label = table'.hops? label) :
    Access.byHops table = Access.byHops table' := by
  have hread : Action.read table = Action.read table' := by
    funext env ref
    rw [Action.read, Action.read, h]
  have hassign : Action.assign table = Action.assign table' := by
    funext env ref value
    rw [Action.assign, Action.assign, h]
  have hparent : Action.parent table = Action.parent table' := by
    funext env ref
    rw [Action.parent, Action.parent, h]
  rw [Access.byHops, Access.byHops, hread, hassign, hparent]

/-! ## Values some scopes out -/

theorem Action.getAt_apply {m : Machine} {env : Env} {hops : Nat} {id : ScopeId} {name : String}
    {v : Value} (hid : env[hops]? = some id) (hv : m.store.get? id name = some v) :
    Action.getAt env hops name m = .ok v m := by
  have hstore : m.store.getAt env hops name = .ok v := by
    simp [Store.getAt, Env.leave_of_getElem? hid, hv, Bind.bind, Except.bind, Pure.pure,
      Except.pure]
  rw [Action.getAt, EStateM.bind_ok (EStateM.get_apply m), hstore]
  rfl

section
variable {Q : Demand Label} {W : Plan} {m : Machine} {table : BindingTable} {other : Access}
  {env : Env}

theorem runs_getAt (hm : m.Sound Q W) {hops : Nat} {id : ScopeId} {name : String}
    (hid : env[hops]? = some id) (h : (m.store.scope id).contains name) :
    Runs Q W m (Action.getAt env hops name) (Action.getAt env hops name)
      fun W' store' v => W' = W ∧ store' = m.store ∧ m.store.get? id name = some v := by
  obtain ⟨v, hv⟩ := Option.isSome_iff_exists.mp h
  exact runs_of_apply (Action.getAt_apply hid hv) (.refl _ _) hm ⟨rfl, rfl, hv⟩

theorem Store.lookup?_globalEnv (store : Store Value) (name : String) :
    store.lookup? Machine.globalEnv name = store.get? 0 name := by
  simp [lookup?, Machine.globalEnv]

theorem Runs.congr_right {α : Type} {x y y' : Action α} {P : Plan → Store Value → α → Prop}
    (h : Runs Q W m x y P) (hy : y' m = y m) : Runs Q W m x y' P :=
  ⟨hy.trans h.1, h.2⟩

/-- Reading a name or `this` gives a value in order, or the name is not defined. -/
theorem runs_read (hother : Access.Agrees Q table other) (hm : m.Sound Q W) {u : Use Label}
    (hreach : Reaches W m.store env u) (hu : Q u)
    (hkind : u.kind = .read ∧ u.ref.name.IsName ∧ u.isPending = false ∨
      u.kind = .this ∧ u.ref.name.lexeme = "this") :
    Runs Q W m (Action.read table env u.ref) (other.read env u.ref)
      fun W' store' v => v.Sound Q W' store' := by
  refine Runs.congr_right ?_ (hother.read hm hreach hu hkind)
  have hpending : u.isPending = false := by
    rcases hkind with ⟨_, _, hpending⟩ | ⟨_, hthis⟩
    · exact hpending
    · rw [Use.isPending, hthis]
      exact hreach.coherent.not_isPending_this
  unfold Action.read
  rw [hother.hops_eq u hu]
  cases hhops : u.hops? with
  | some hops =>
    obtain ⟨id, hid, h⟩ := hreach.present hpending hops hhops
    refine (runs_getAt hm hid h).imp ?_
    rintro W' store' v _ ⟨rfl, rfl, hv⟩
    exact hm.values id _ v hv
  | none =>
    refine runs_get ?_
    rw [Store.lookup?_globalEnv]
    split
    · rename_i v hv
      exact runs_pure hm (hm.values 0 _ v hv)
    · exact runs_fail hm _ _

theorem Machine.Sound.lt_of_planned (hm : m.Sound Q W) {id : ScopeId} {names : List String}
    (h : W[id]? = some names) : id < m.store.nextId := by
  obtain ⟨hlt, _⟩ := List.getElem?_eq_some_iff.mp h
  exact hm.length ▸ hlt

/-- An assignment leaves the machine in order, or the name is not defined. -/
theorem runs_assign (hother : Access.Agrees Q table other) (hm : m.Sound Q W) {u : Use Label}
    (hreach : Reaches W m.store env u) (hu : Q u) (hkind : u.kind = .assign)
    (hname : u.ref.name.IsName) {value : Value} (hvalue : value.Sound Q W m.store) :
    Runs Q W m (Action.assign table env u.ref value) (other.assign env u.ref value)
      fun _ _ _ => True := by
  refine Runs.congr_right ?_ (hother.assign hm hreach hu hkind hname value)
  unfold Action.assign
  rw [hother.hops_eq u hu]
  cases hhops : u.hops? with
  | some hops =>
    obtain ⟨scope, hscope, hhas, _⟩ := Context.exists_of_hops? hhops
    obtain ⟨id, hid, hne, hplan⟩ := hreach.shape.getElem? hscope
    have hwhole := hreach.coherent.whole scope (List.mem_of_getElem? hscope) _ hhas
    show Runs Q W m ((Action.ofAccess (env.leave hops) : Action Env) >>= _)
      ((Action.ofAccess (env.leave hops) : Action Env) >>= _) _
    rw [Env.leave_of_getElem? hid]
    exact (runs_define hm (hm.lt_of_planned hplan) hname (fun _ => ⟨_, hplan, hwhole⟩)
      fun _ hgrows _ => hvalue.grow hgrows).imp fun _ _ _ _ _ => trivial
  | none =>
    refine runs_get ?_
    split
    · rename_i id hhome
      have hmem := List.mem_of_find?_eq_some hhome
      obtain rfl : id = 0 := by simpa [Machine.globalEnv] using hmem
      exact (runs_define hm hm.pos hname (fun h => absurd rfl h)
        fun _ hgrows _ => hvalue.grow hgrows).imp fun _ _ _ _ _ => trivial
    · exact runs_fail hm _ _

/-- Where `super` may stand, it is a class, and `this` is an object. -/
theorem runs_parent (hother : Access.Agrees Q table other) (hm : m.Sound Q W)
    {around : Surroundings} {context : Context}
    (hstands : Stands W m.store around.classBody context env)
    {ref : Ref Label}
    (hu : Q ⟨ref, .super, around, context⟩) (hsuper : ref.name.lexeme = "super")
    (hderived : around.classBody = .derived) :
    Runs Q W m (Action.parent table env ref) (other.parent env ref) fun W' store' p =>
      ∃ c id d, p = (.classOf c, .object id d) ∧ c.Sound Q W' store' ∧ d.Sound Q W' store' := by
  refine Runs.congr_right ?_ (hother.parent hm hstands hu rfl hsuper hderived)
  obtain ⟨hops, hhops, hthis⟩ := hstands.coherent.derived hderived
  have htable : table.hops? ref.label = some (hops + 1) := by
    rw [hother.hops_eq _ hu, Use.hops?, hsuper]
    exact hhops
  obtain ⟨id, hid, hhas⟩ := hstands.exists_of_hops? hstands.coherent.not_isPending_super hhops
  obtain ⟨id', hid', hhas'⟩ := hstands.exists_of_hops? hstands.coherent.not_isPending_this hthis
  have hless : ((hops + 1 : Nat) : Int) - 1 = (hops : Nat) := by omega
  have hparent : Action.parent table env ref = (do
      let above ← Action.getAt env (hops + 1 : Nat) "super"
      let object ← Action.getAt env (hops : Nat) "this"
      return (above, object)) := by
    unfold Action.parent
    rw [htable]
    show (do
      let above ← Action.getAt env (hops + 1 : Nat) "super"
      let object ← Action.getAt env (((hops + 1 : Nat) : Int) - 1) "this"
      return (above, object)) = _
    rw [hless]
  rw [hparent]
  refine (runs_getAt hm hid hhas).bind ?_
  rintro W₁ m₁ above _ hm₁ ⟨rfl, hstore, habove⟩
  rw [← hstore] at hhas'
  refine (runs_getAt hm₁ hid' hhas').bind ?_
  rintro W₂ m₂ object _ hm₂ ⟨rfl, hstore', hobject⟩
  rw [← hstore] at habove
  obtain ⟨c, rfl⟩ := hm₁.super id above habove
  obtain ⟨i, d, rfl⟩ := hm₁.this id' object hobject
  refine runs_pure hm₂ ⟨c, i, d, rfl, ?_, ?_⟩
  · rw [hstore']
    exact hm₁.values id "super" _ habove
  · rw [hstore']
    exact hm₁.values id' "this" _ hobject

end

end LoxLang
