import LoxLang.Machine.Evaluate
import LoxLang.Proofs.Machine.Access
import LoxLang.Proofs.Scope.Bindings

/-! # Execution in step

Two runs that differ only in the way they reach variables, where both ways agree, stay in step
through every expression, call and statement, and leave a machine in order.  All four parts of the
evaluator are proved together, by induction on the levels of nesting that are left
(`inStep`). -/

namespace LoxLang

open Binder (Surroundings FunctionContext ClassContext)
open Machine

variable {α β σ : Type} {Q : Demand Label} {W : Plan} {m : Machine}

/-! ## Sequences -/

/-- Actions in step for all members of a list are in step for the list. -/
theorem runs_mapM {P : Plan → Store Value → β → Prop}
    (hP : ∀ {W store W' store' b}, Grows W store W' store' → P W store b → P W' store' b)
    {f g : σ → Action β} {l : List σ} (hm : m.Sound Q W)
    (h : ∀ a ∈ l, ∀ W' m', Grows W m.store W' m'.store → m'.Sound Q W' →
      Runs Q W' m' (f a) (g a) P) :
    Runs Q W m (l.mapM f) (l.mapM g)
      fun W' store' bs => bs.length = l.length ∧ ∀ b ∈ bs, P W' store' b := by
  induction l generalizing W m with
  | nil => exact runs_pure hm ⟨rfl, List.forall_mem_nil _⟩
  | cons a l ih =>
    rw [List.mapM_cons, List.mapM_cons]
    refine (h a List.mem_cons_self W m (.refl _ _) hm).bind fun W' m' b hgrows hm' hb => ?_
    refine (ih hm' fun a' ha' W'' m'' hgrows' hm'' =>
      h a' (List.mem_cons_of_mem a ha') W'' m'' (hgrows.trans hgrows') hm'').bind ?_
    rintro W'' m'' bs hgrows' hm'' ⟨hlength, hbs⟩
    exact runs_pure hm'' ⟨by simp [hlength], List.forall_mem_cons.mpr ⟨hP hgrows' hb, hbs⟩⟩

/-- What is known when a statement, begun in an environment that fits the open scopes, completes. -/
def Machine.Completion.Sound (Q : Demand Label) (W : Plan) (store : Store Value)
    (context : Context) (env : Env) : Completion → Prop
  | .normal => Present store context env
  | .returned v => v.Sound Q W store

/-! ## The parts of the evaluator -/

/-- Evaluation with `depth` levels left is in step. -/
def EvaluatesInStep (Q : Demand Label) (A B : Setting) (depth : Nat) : Prop :=
  ∀ {W : Plan} {m : Machine} {around : Surroundings} {context : Context} {env : Env}
    {e : Expr Label}, m.Sound Q W → Stands W m.store around.classBody context env →
    e.Ready Q around context →
    Runs Q W m (evaluate A depth env e) (evaluate B depth env e)
      fun W' store' v => v.Sound Q W' store'

/-- What is called is in order. -/
def Callee.Sound (Q : Demand Label) (W : Plan) (store : Store Value) : Callee → Prop
  | .clock => True
  | .function f => f.Callable Q W store
  | .classOf c => c.Sound Q W store

/-- Calls with `depth` levels left are in step. -/
def CallsInStep (Q : Demand Label) (A B : Setting) (depth : Nat) : Prop :=
  ∀ {W : Plan} {m : Machine} {callee : Callee} {arguments : List Value}, m.Sound Q W →
    callee.Sound Q W m.store → (∀ v ∈ arguments, v.Sound Q W m.store) →
    arguments.length = callee.arity →
    Runs Q W m (call A depth callee arguments) (call B depth callee arguments)
      fun W' store' v => v.Sound Q W' store'

/-- Executions of functions with `depth` levels left are in step. -/
def InvokesInStep (Q : Demand Label) (A B : Setting) (depth : Nat) : Prop :=
  ∀ {W : Plan} {m : Machine} {f : Closure} {arguments : List Value}, m.Sound Q W →
    f.Callable Q W m.store → (∀ v ∈ arguments, v.Sound Q W m.store) →
    arguments.length = f.arity →
    Runs Q W m (invoke A depth f arguments) (invoke B depth f arguments)
      fun W' store' v => v.Sound Q W' store'

/-- Executions of statements with `depth` levels left are in step. -/
def ExecutesInStep (Q : Demand Label) (A B : Setting) (depth : Nat) : Prop :=
  ∀ {W : Plan} {m : Machine} {around : Surroundings} {context : Context} {env : Env}
    {s : Stmt Label}, m.Sound Q W → Stands W m.store around.classBody context env →
    context.Defined → s.Ready Q around context →
    Runs Q W m (execute A depth env s) (execute B depth env s)
      fun W' store' c => c.Sound Q W' store' (context.introduceAll s.declares) env

section
variable {table : BindingTable} {other : Access} {clock : Nat → Float} {rounds : Nat}
  {depth : Nat}

/-! ## Expressions -/

theorem Value.sound_unary {op : Token} {operand v : Value} {store : Store Value}
    (h : operand.unary op = .ok v) : v.Sound Q W store := by
  unfold Value.unary at h
  repeat' split at h
  all_goals cases h <;> trivial

theorem Value.sound_binary {op : Token} {left right v : Value} {store : Store Value}
    (h : left.binary op right = .ok v) : v.Sound Q W store := by
  unfold Value.binary Value.plus Value.arithmetic at h
  repeat' split at h
  all_goals cases h <;> trivial

theorem Value.Sound.callee? {v : Value} {callee : Callee} {store : Store Value}
    (h : v.Sound Q W store) (hcallee : v.callee? = some callee) : callee.Sound Q W store := by
  cases v <;> cases hcallee <;> exact h

theorem evaluatesInStep_succ (hother : Access.Agrees Q table other)
    (heval : EvaluatesInStep Q ⟨.byHops table, clock, rounds⟩ ⟨other, clock, rounds⟩ depth)
    (hcall : CallsInStep Q ⟨.byHops table, clock, rounds⟩ ⟨other, clock, rounds⟩ depth) :
    EvaluatesInStep Q ⟨.byHops table, clock, rounds⟩ ⟨other, clock, rounds⟩ (depth + 1) := by
  intro W m around context env e hm hstands he
  unfold evaluate evaluateOuter
  cases e with
  | literal value => exact runs_pure hm trivial
  | nameRef ref =>
    obtain ⟨hname, hpending, hQ⟩ := he.nameRef
    exact runs_read hother hm (hstands.reaches ref .read) hQ (.inl ⟨rfl, hname, hpending⟩)
  | thisRef ref =>
    obtain ⟨hthis, hQ⟩ := he.thisRef
    exact runs_read hother hm (hstands.reaches ref .this) hQ (.inr ⟨rfl, hthis⟩)
  | assign ref value =>
    obtain ⟨hname, hvalue, hQ⟩ := he.assign
    refine (heval hm hstands hvalue).bind fun W₁ m₁ v hgrows hm₁ hv => ?_
    -- the value may have made scopes, so the name is looked up where it stands now
    refine (runs_assign hother hm₁ ((hstands.grow hgrows).reaches ref .assign) hQ rfl hname
      hv).bind fun W₂ m₂ _ hgrows' hm₂ _ => ?_
    exact runs_pure hm₂ (hv.grow hgrows')
  | unary op operand =>
    exact (heval hm hstands he.unary).bind fun W₁ m₁ v _ hm₁ _ =>
      runs_ofExcept hm₁ fun _ h => Value.sound_unary h
  | binary left op right =>
    obtain ⟨hleft, hright⟩ := he.binary
    refine (heval hm hstands hleft).bind fun W₁ m₁ v hgrows hm₁ hv => ?_
    exact (heval hm₁ (hstands.grow hgrows) hright).bind fun W₂ m₂ w _ hm₂ _ =>
      runs_ofExcept hm₂ fun _ h => Value.sound_binary h
  | logical left op right =>
    obtain ⟨hleft, hright⟩ := he.logical
    refine (heval hm hstands hleft).bind fun W₁ m₁ v hgrows hm₁ hv => ?_
    split
    · exact runs_pure hm₁ hv
    · exact heval hm₁ (hstands.grow hgrows) hright
  | group inner => exact heval hm hstands he.group
  | call callee paren arguments =>
    obtain ⟨hcallee, harguments⟩ := he.call
    refine (heval hm hstands hcallee).bind fun W₁ m₁ v hgrows hm₁ hv => ?_
    -- the values that were there stay sound while the scopes grow under the later arguments
    refine (runs_mapM (P := fun W store v => v.Sound Q W store)
      (fun hgrows hv => hv.grow hgrows) hm₁ fun a ha W' m' hgrows' hm' =>
        heval hm' (hstands.grow (hgrows.trans hgrows')) (harguments a ha)).bind ?_
    rintro W₂ m₂ vs hgrows' hm₂ ⟨hlength, hvs⟩
    split
    · exact runs_fail hm₂ _ _
    · rename_i c hc
      split
      · rename_i harity
        exact hcall hm₂ ((hv.grow hgrows').callee? hc) hvs harity
      · exact runs_fail hm₂ _ _
  | get object name =>
    refine (heval hm hstands he.get).bind fun W₁ m₁ v _ hm₁ hv => ?_
    split
    · exact runs_property hm₁ _ hv name
    · exact runs_fail hm₁ _ _
  | set object name value =>
    obtain ⟨hobject, hvalue⟩ := he.set
    refine (heval hm hstands hobject).bind fun W₁ m₁ v hgrows hm₁ hv => ?_
    split
    · refine (heval hm₁ (hstands.grow hgrows) hvalue).bind fun W₂ m₂ w _ hm₂ hw => ?_
      refine (runs_setField hm₂ _ name.lexeme hw).bind ?_
      rintro W₃ m₃ _ _ hm₃ ⟨rfl, hstore⟩
      exact runs_pure hm₃ (hstore ▸ hw)
    · exact runs_fail hm₁ _ _
  | superRef ref name =>
    obtain ⟨hsuper, hderived, hQ⟩ := he.superRef
    -- the superclass and the object come together: `this` stands one scope inside `super`
    refine (runs_parent hother hm hstands hQ hsuper hderived).bind ?_
    rintro W₁ m₁ _ _ hm₁ ⟨c, id, d, rfl, hc, hd⟩
    dsimp only
    split
    · rename_i f hf
      exact (runs_takeMethod hm₁ (hc.method? hf) hd).bind
        fun W₂ m₂ g _ hm₂ hg => runs_pure hm₂ hg.1
    · exact runs_fail hm₁ _ _
  | unknown form => exact nomatch he.wellFormed

/-! ## Calls -/

theorem matchArguments_eq {params : List Token} {arguments : List Value}
    (h : arguments.length = params.length) :
    matchArguments params arguments = .ok ((params.map Token.lexeme).zip arguments) := by
  induction params generalizing arguments with
  | nil =>
    obtain rfl := List.length_eq_zero_iff.mp h
    rfl
  | cons p params ih =>
    cases arguments with
    | nil => simp at h
    | cons a arguments =>
      rw [matchArguments, ih (by simpa using h)]
      rfl

theorem FunctionOf.WellFormed.isName_scopeNames {ι : Type} {f : Function ι} (h : f.WellFormed) :
    ∀ name ∈ f.scopeNames, name.IsName := by
  intro name hname
  rcases List.mem_append.mp hname with hname | hname
  · exact h.params name hname
  · obtain ⟨s, hs, hname⟩ := List.mem_flatMap.mp hname
    exact (h.body s hs).isName_of_declares name hname

/-- A function that is called gets a scope in which each parameter has its argument. -/
theorem runs_enterParameters (hm : m.Sound Q W) (env : Env) {f : Function Label}
    (hf : f.WellFormed) {arguments : List Value} (harguments : ∀ v ∈ arguments, v.Sound Q W m.store)
    (hlength : arguments.length = f.params.length) :
    let vars := Bindings.ofList ((f.params.map Token.lexeme).zip arguments)
    Runs Q W m (Action.enter vars env) (Action.enter vars env)
      (Entered (OpenScope.introduceAll f.params (.fresh f.scopeNames)) env) := by
  have hfst : ((f.params.map Token.lexeme).zip arguments).map Prod.fst =
      f.params.map Token.lexeme := List.map_fst_zip (by simp [hlength])
  have hword : ∀ {word v}, (∀ p ∈ f.params, p.lexeme ≠ word) →
      (Bindings.ofList ((f.params.map Token.lexeme).zip arguments)).get? word ≠ some v := by
    intro word v hne hv
    obtain ⟨p, hp, heq⟩ := List.mem_map.mp (List.of_mem_zip (Bindings.mem_of_get?_ofList hv)).1
    exact hne p hp heq
  refine runs_enter hm env _ (fun name hname => ?_) (fun name hname => ?_) (fun name v hv => ?_)
    (fun v hv => ?_) fun v hv => ?_
  · rw [Bindings.contains_ofList, hfst] at hname
    obtain ⟨p, hp, rfl⟩ := List.mem_map.mp hname
    rw [OpenScope.whole_introduceAll]
    exact List.mem_map_of_mem (List.mem_append_left _ hp)
  · rw [OpenScope.get?_introduceAll] at hname
    rw [Bindings.contains_ofList, hfst]
    split at hname
    · assumption
    · cases hname
  · exact harguments v (List.of_mem_zip (Bindings.mem_of_get?_ofList hv)).2
  · exact absurd hv (hword fun p hp => (hf.params p hp).1)
  · exact absurd hv (hword fun p hp => (hf.params p hp).2)

/-- After a statement that completes normally, the environment fits the scopes with the names that
the statement declares. -/
theorem Stands.introduceAll {store : Store Value} {classBody : ClassContext} {context : Context}
    {env : Env} (h : Stands W store classBody context env) (hdefined : context.Defined)
    {names : List Token} (hnames : ∀ name ∈ names, name.IsName)
    (hwhole : ∀ scope ∈ context.head?, ∀ name ∈ names, name.lexeme ∈ scope.whole)
    (hpresent : Present store (context.introduceAll names) env) :
    Stands W store classBody (context.introduceAll names) env :=
  ⟨h.shape.introduceAll names, hpresent, (hdefined.introduceAll names).tail,
    h.coherent.introduceAll hnames hwhole⟩

/-- The environment of a call fits the scopes around the body of the function. -/
theorem Closure.At.body {around : Surroundings} {kind : FunctionContext} {context : Context}
    {f : Closure} {W' : Plan} {store store' : Store Value} {env : Env}
    (hf : f.At Q W store around kind context) (hgrows : Grows W store W' store')
    (hentered : Entered (OpenScope.introduceAll f.declaration.params
      (.fresh f.declaration.scopeNames)) f.env W' store' env) :
    Stands W' store' around.classBody (Context.introduceAll f.declaration.params
        (.fresh f.declaration.scopeNames :: context)) env ∧
      Context.Defined (Context.introduceAll f.declaration.params
        (.fresh f.declaration.scopeNames :: context)) := by
  have hcoherent : Context.Coherent around.classBody (Context.introduceAll f.declaration.params
      (.fresh f.declaration.scopeNames :: context)) := by
    refine (hf.stands.coherent.fresh hf.ready.wellFormed.isName_scopeNames).introduceAll
      hf.ready.wellFormed.params ?_
    rintro _ ⟨⟩ name hname
    exact List.mem_map_of_mem (List.mem_append_left _ hname)
  rw [Context.introduceAll_cons] at hcoherent ⊢
  refine ⟨⟨hentered.shape (hf.stands.shape.mono hgrows.plan),
    hentered.present (hf.stands.present.mono hgrows.names), hf.defined, hcoherent⟩,
    hf.defined.cons fun name => ?_⟩
  rw [OpenScope.get?_introduceAll]
  split <;> nofun

/-- The environment of a block fits the scopes around its statements. -/
theorem Stands.block {around : Surroundings} {context : Context} {body : List (Stmt Label)}
    {W' : Plan} {store store' : Store Value} {env inner : Env}
    (hstands : Stands W store around.classBody context env) (hdefined : context.Defined)
    (hbody : Stmt.ReadyAll Q around (.fresh (Stmt.declaresAll body) :: context) body)
    (hgrows : Grows W store W' store')
    (hentered : Entered (.fresh (Stmt.declaresAll body)) env W' store' inner) :
    Stands W' store' around.classBody (.fresh (Stmt.declaresAll body) :: context) inner ∧
      Context.Defined (.fresh (Stmt.declaresAll body) :: context) := by
  refine ⟨⟨hentered.shape (hstands.shape.mono hgrows.plan),
    hentered.present (hstands.present.mono hgrows.names), hdefined,
    hstands.coherent.fresh fun name hname => ?_⟩,
    hdefined.cons fun _ => (Option.some_ne_none false).symm⟩
  obtain ⟨s, hs, hname⟩ := List.mem_flatMap.mp hname
  exact (hbody.wellFormed s hs).isName_of_declares name hname

/-- While its initial value is evaluated a variable is declared, but not defined yet. -/
theorem Stands.pending {classBody : ClassContext} {context : Context} {store : Store Value}
    {env : Env} (h : Stands W store classBody context env) {name : Token} (hname : name.IsName)
    (hwhole : ∀ scope ∈ context.head?, name.lexeme ∈ scope.whole) :
    Stands W store classBody (context.mark name.lexeme false) env :=
  ⟨h.shape.mark _ _, h.present.markFalse _, by rw [Context.tail_mark]; exact h.defined,
    h.coherent.mark hname hwhole _⟩

theorem runs_runAll
    (hexec : ExecutesInStep Q ⟨.byHops table, clock, rounds⟩ ⟨other, clock, rounds⟩ depth)
    {around : Surroundings} {context : Context} {env : Env} {ss : List (Stmt Label)}
    (hss : Stmt.ReadyAll Q around context ss) (hm : m.Sound Q W)
    (hstands : Stands W m.store around.classBody context env) (hdefined : context.Defined) :
    Runs Q W m (runAll (fun s => execute ⟨.byHops table, clock, rounds⟩ depth env s) ss)
      (runAll (fun s => execute ⟨other, clock, rounds⟩ depth env s) ss)
      fun W' store' c => c.Sound Q W' store' [] env := by
  induction ss generalizing W m context with
  | nil => exact runs_pure hm (.nil _ _)
  | cons s ss ih =>
    obtain ⟨hs, hss⟩ := hss.cons
    unfold runAll
    refine (hexec hm hstands hdefined hs).bind fun W' m' c hgrows hm' hc => ?_
    cases c with
    | normal =>
      exact ih hss hm' ((hstands.grow hgrows).introduceAll hdefined
        hs.wellFormed.isName_of_declares hs.declares hc) (hdefined.introduceAll _)
    | returned v => exact runs_pure hm' hc

/-- A call of a method that sets up objects finds the object. -/
theorem runs_resultOf (hm : m.Sound Q W) {f : Closure} (hf : f.Callable Q W m.store)
    {c : Completion} (hc : c.Sound Q W m.store [] f.env) :
    Runs Q W m (resultOf f c) (resultOf f c) fun W' store' v => v.Sound Q W' store' := by
  unfold resultOf
  split
  · rename_i hinitializer
    obtain ⟨around, kind, context, hf⟩ := hf
    obtain ⟨scope, hscope, hthis⟩ := hf.this hinitializer
    have hscope : context[0]? = some scope := by rwa [← List.head?_eq_getElem?]
    obtain ⟨id, hid, _⟩ := hf.stands.shape.getElem? hscope
    refine (runs_getAt hm hid (hf.stands.present 0 scope id hscope hid "this" hthis)).imp ?_
    rintro W' store' v _ ⟨rfl, rfl, hv⟩
    exact hm.values id "this" v hv
  · cases c with
    | normal => exact runs_pure hm trivial
    | returned v => exact runs_pure hm hc

theorem invokesInStep_succ
    (hexec : ExecutesInStep Q ⟨.byHops table, clock, rounds⟩ ⟨other, clock, rounds⟩ depth) :
    InvokesInStep Q ⟨.byHops table, clock, rounds⟩ ⟨other, clock, rounds⟩ (depth + 1) := by
  intro W m f arguments hm hf harguments hlength
  have hcallable := hf
  obtain ⟨around, kind, context, hf⟩ := hf
  have hbody := hf.ready.body
  unfold invoke invokeOuter
  simp only [matchArguments_eq hlength, Action.ofAccess, pure_bind]
  refine (runs_enterParameters hm f.env hf.ready.wellFormed harguments hlength).bind
    fun W₁ m₁ env hgrows hm₁ hentered => ?_
  obtain ⟨hstands, hdefined⟩ := hf.body hgrows hentered
  refine (runs_runAll hexec hbody hm₁ hstands hdefined).bind fun W₂ m₂ c hgrows' hm₂ hc => ?_
  refine runs_resultOf hm₂ (hcallable.grow (hgrows.trans hgrows')) ?_
  cases c with
  | normal => exact .nil _ _
  | returned v => exact hc

theorem callsInStep_succ
    (hinvoke : InvokesInStep Q ⟨.byHops table, clock, rounds⟩ ⟨other, clock, rounds⟩ depth) :
    CallsInStep Q ⟨.byHops table, clock, rounds⟩ ⟨other, clock, rounds⟩ (depth + 1) := by
  intro W m callee arguments hm hcallee harguments hlength
  unfold call callOuter
  cases callee with
  | clock => exact runs_readClock hm _ _ rfl
  | function f => exact hinvoke hm hcallee harguments hlength
  | classOf c =>
    refine (runs_newObject hm hcallee).bind ?_
    rintro W₁ m₁ _ hgrows hm₁ ⟨⟨id, rfl⟩, hobject⟩
    split
    · rename_i method hmethod
      refine (runs_takeMethod hm₁ (ClassValue.Sound.method? hobject hmethod) hobject).bind ?_
      rintro W₂ m₂ g hgrows' hm₂ ⟨hg, hdeclaration⟩
      have harity : arguments.length = g.arity := by
        rw [hlength, Closure.arity, hdeclaration]
        simp [Callee.arity, ClassValue.arity, hmethod, Closure.arity]
      refine (hinvoke hm₂ hg (fun v hv => (harguments v hv).grow (hgrows.trans hgrows'))
        harity).bind fun W₃ m₃ _ hgrows'' hm₃ _ => ?_
      exact runs_pure hm₃ (hobject.grow (hgrows'.trans hgrows''))
    · exact runs_pure hm₁ hobject

/-! ## Statements -/

/-- A variable of the innermost scope is made or gets another value. -/
theorem runs_defineHere (hm : m.Sound Q W) {context : Context} {env : Env}
    (hshape : Shape W context env) {name : Token} (hname : name.IsName)
    (hwhole : ∀ scope ∈ context.head?, name.lexeme ∈ scope.whole) {value : Value}
    (hvalue : ∀ store', Grows W m.store W store' →
      (∀ context', Present m.store context' env → Present store' (context'.introduce name) env) →
      value.Sound Q W store') :
    Runs Q W m (Action.define env name.lexeme value) (Action.define env name.lexeme value)
      fun W' store' _ => W' = W ∧
        ∀ context', Present m.store context' env →
          Present store' (context'.introduce name) env := by
  obtain ⟨id, outer, rfl, hplan⟩ := hshape.exists_cons
  have hlt : id < m.store.nextId := by
    by_cases hid : id = 0
    · exact hid ▸ hm.pos
    · obtain ⟨scope, _, hscope⟩ := hplan hid
      exact hm.lt_of_planned hscope
  have hpresent : ∀ store', Grows W m.store W store' → (store'.scope id).contains name.lexeme →
      ∀ context', Present m.store context' (id :: outer) →
        Present store' (context'.introduce name) (id :: outer) :=
    fun store' hgrows hhas context' h => (h.mono hgrows.names).introduce hhas
  refine ((runs_define hm hlt hname (fun hid => ?_) fun store' hgrows hhas =>
    hvalue store' hgrows (hpresent store' hgrows hhas))).imp ?_
  · obtain ⟨scope, hscope, hW⟩ := hplan hid
    exact ⟨_, hW, hwhole scope hscope⟩
  · rintro W' store' _ hgrows ⟨rfl, hhas⟩
    exact ⟨rfl, hpresent store' hgrows hhas⟩

/-- The methods of a class are made in one environment. -/
theorem runs_makeMethods (hm : m.Sound Q W) (env : Env) (ms : List (Function Label)) :
    Runs Q W m (makeMethods env ms) (makeMethods env ms) fun _ _ methods =>
      ∀ name f, methods.get? name = some f → f.env = env ∧ f.declaration ∈ ms := by
  unfold makeMethods
  refine (runs_mapM (P := fun _ _ (p : String × Closure) => p.2.env = env ∧ p.2.declaration ∈ ms)
    (fun _ h => h) hm fun f hf W' m' _ hm' => ?_).bind ?_
  · exact (runs_freshId hm').bind fun W'' m'' n _ hm'' _ => runs_pure hm'' ⟨rfl, hf⟩
  · rintro W' m' pairs _ hm' ⟨_, hpairs⟩
    exact runs_pure hm' fun name f h => hpairs _ (Bindings.mem_of_get?_ofList h)

/-- The methods of a class are made and the class gets its variable.  The methods stand in an
environment that fits the scopes around them as soon as the variable of the class is there. -/
theorem runs_fillClass (hm : m.Sound Q W) {around : Surroundings} {context inner : Context}
    {env methodEnv : Env} {name : Token} {ms : List (Function Label)} {above : List ClassLevel}
    (hshape : Shape W context env) (hpresent : Present m.store context env) (hname : name.IsName)
    (hwhole : ∀ scope ∈ context.head?, name.lexeme ∈ scope.whole)
    (hinner : Shape W inner methodEnv)
    (hinnerPresent : ∀ {W' store'}, Grows W m.store W' store' →
      Present store' (context.introduce name) env → Present store' inner methodEnv)
    (hdefined : inner.Defined)
    (hcoherent : Context.Coherent around.classBody (.ofWord "this" :: inner))
    (hms : ∀ f ∈ ms, f.Ready Q around f.methodContext (.ofWord "this" :: inner))
    (habove : ∀ level ∈ above, ∀ name f, level.methods.get? name = some f →
      f.Takeable Q W m.store) :
    let fill : Action Unit := do
      let methods ← makeMethods methodEnv ms
      let own : ClassLevel := ⟨← Action.freshId, name.lexeme, methods⟩
      Action.define env name.lexeme (.classOf ⟨own, above⟩)
    Runs Q W m fill fill fun _ store' _ => Present store' (context.introduce name) env := by
  refine (runs_makeMethods hm methodEnv ms).bind fun W₁ m₁ methods hgrows hm₁ hmethods => ?_
  refine (runs_freshId hm₁).bind ?_
  rintro W₂ m₂ n hgrows' hm₂ ⟨rfl, hstore⟩
  have hgrows₂ := hgrows.trans hgrows'
  refine (runs_defineHere hm₂ (hshape.mono hgrows₂.plan) hname hwhole
    fun store' hgrows'' hnew => ?_).imp ?_
  · have hall := hgrows₂.trans hgrows''
    have hhere := hinnerPresent hall (hnew context (hpresent.mono hgrows₂.names))
    refine List.forall_mem_cons.mpr ⟨fun name' f hf => ?_, fun level hlevel name' f hf =>
      (habove level hlevel name' f hf).grow hall⟩
    obtain ⟨henv, hmem⟩ := hmethods name' f hf
    refine ⟨around, f.declaration.methodContext, inner, ?_, ?_, hdefined, hcoherent,
      FunctionOf.methodContext_ne _, hms _ hmem⟩
    · rw [henv]
      exact hinner.mono hall.plan
    · rw [henv]
      exact hhere
  · rintro W' store' _ _ ⟨rfl, hnew⟩
    exact hnew context (hpresent.mono hgrows₂.names)

theorem runs_runWhile {test test' : Action Bool} {body body' : Action Completion}
    {context : Context} {env : Env}
    (htest : ∀ {W m}, m.Sound Q W → Present m.store context env → Shape W context env →
      Runs Q W m test test' fun _ _ _ => True)
    (hbody : ∀ {W m}, m.Sound Q W → Present m.store context env → Shape W context env →
      Runs Q W m body body' fun W' store' c => c.Sound Q W' store' context env)
    (hm : m.Sound Q W) (hpresent : Present m.store context env) (hshape : Shape W context env)
    (rounds : Nat) :
    Runs Q W m (runWhile test body rounds) (runWhile test' body' rounds)
      fun W' store' c => c.Sound Q W' store' context env := by
  induction rounds generalizing W m with
  | zero => exact runs_throw hm (.inr rfl)
  | succ rounds ih =>
    unfold runWhile
    refine (htest hm hpresent hshape).bind fun W₁ m₁ b hgrows hm₁ _ => ?_
    split
    · refine (hbody hm₁ (hpresent.mono hgrows.names) (hshape.mono hgrows.plan)).bind
        fun W₂ m₂ c hgrows' hm₂ hc => ?_
      cases c with
      | normal => exact ih hm₂ hc (hshape.mono (hgrows.trans hgrows').plan)
      | returned v => exact runs_pure hm₂ hc
    · exact runs_pure hm₁ (hpresent.mono hgrows.names)

/-- The name of a superclass is read before the class has its variable, which is not the one that
is read. -/
theorem runs_superclass (hother : Access.Agrees Q table other) (hm : m.Sound Q W)
    {around : Surroundings} {context : Context} {env : Env} {name : Token} {parent : Ref Label}
    (hstands : Stands W m.store around.classBody context env) (hdefined : context.Defined)
    (hname : name.IsName) (hwhole : ∀ scope ∈ context.head?, name.lexeme ∈ scope.whole)
    (hparent : parent.name.IsName) (hne : parent.name.lexeme ≠ name.lexeme)
    (hpending : (context.introduce name).isPending parent.name.lexeme = false)
    (hQ : Q ⟨parent, .read, around, context.introduce name⟩) :
    Runs Q W m (evaluate ⟨.byHops table, clock, rounds⟩ depth env (.nameRef parent))
      (evaluate ⟨other, clock, rounds⟩ depth env (.nameRef parent))
      fun W' store' v => v.Sound Q W' store' := by
  unfold evaluate evaluateOuter
  cases depth with
  | zero => exact runs_tooDeep hm
  | succ depth =>
    have hreach : Reaches W m.store env ⟨parent, .read, around, context.introduce name⟩ := by
      refine ⟨hstands.shape.mark _ _, hstands.coherent.introduce hname hwhole,
        fun _ hops hhops => ?_⟩
      have hhops : (context.introduce name).hops? parent.name.lexeme = some hops := hhops
      rw [Context.introduce, Context.hops?_mark_of_ne hne] at hhops
      exact hstands.exists_of_hops? (Context.not_isPending hdefined _) hhops
    exact runs_read hother hm hreach hQ (.inl ⟨rfl, hparent, hpending⟩)

/-- A variable is declared and gets its value. -/
theorem runs_var
    (heval : EvaluatesInStep Q ⟨.byHops table, clock, rounds⟩ ⟨other, clock, rounds⟩ depth)
    (hm : m.Sound Q W) {around : Surroundings} {context : Context} {env : Env}
    (hstands : Stands W m.store around.classBody context env) {name : Token}
    {initial : Option (Expr Label)} (hs : (Stmt.var name initial).Ready Q around context) :
    Runs Q W m (execute ⟨.byHops table, clock, rounds⟩ (depth + 1) env (.var name initial))
      (execute ⟨other, clock, rounds⟩ (depth + 1) env (.var name initial))
      fun W' store' c => c.Sound Q W' store' (context.introduce name) env := by
  obtain ⟨hname, hinitial⟩ := hs.var
  have hwhole : ∀ scope ∈ context.head?, name.lexeme ∈ scope.whole :=
    fun scope hscope => hs.declares scope hscope name (List.mem_singleton_self name)
  unfold execute executeOuter
  cases initial with
  | none =>
    refine (runs_defineHere hm hstands.shape hname hwhole fun _ _ _ => Value.sound_nil).bind ?_
    rintro W₁ m₁ _ _ hm₁ ⟨_, hnew⟩
    exact runs_pure hm₁ (hnew context hstands.present)
  | some e =>
    -- the initializer stands where the name is declared and has no value yet
    have hpending := hstands.pending hname hwhole
    refine (heval hm hpending (hinitial e rfl)).bind fun W₁ m₁ v hgrows hm₁ hv => ?_
    refine (runs_defineHere hm₁ (hstands.shape.mono hgrows.plan) hname hwhole
      fun store' hgrows' _ => hv.grow hgrows').bind ?_
    rintro W₂ m₂ _ _ hm₂ ⟨_, hnew⟩
    exact runs_pure hm₂ (hnew context (hstands.present.mono hgrows.names))

/-- A function is made where it is declared, with its own name among those around it. -/
theorem runs_function (hm : m.Sound Q W) {around : Surroundings} {context : Context} {env : Env}
    (hstands : Stands W m.store around.classBody context env) (hdefined : context.Defined)
    {f : Function Label} (hs : (Stmt.function f).Ready Q around context) :
    Runs Q W m (execute ⟨.byHops table, clock, rounds⟩ (depth + 1) env (.function f))
      (execute ⟨other, clock, rounds⟩ (depth + 1) env (.function f))
      fun W' store' c => c.Sound Q W' store' (context.introduce f.name) env := by
  obtain ⟨hname, hf⟩ := hs.function
  have hwhole : ∀ scope ∈ context.head?, f.name.lexeme ∈ scope.whole :=
    fun scope hscope => hs.declares scope hscope f.name (List.mem_singleton_self _)
  unfold execute executeOuter
  refine (runs_freshId hm).bind ?_
  rintro W₁ m₁ n hgrows hm₁ ⟨rfl, hstore⟩
  have hpresent := hstands.present.mono hgrows.names
  refine (runs_defineHere hm₁ hstands.shape hname hwhole fun store' hgrows' hnew => ?_).bind ?_
  · refine ⟨around, .function, context.introduce f.name, ⟨?_, hnew context hpresent, ?_, ?_⟩, ?_,
      by simp, hf, by simp⟩
    · exact (hstands.shape.mono hgrows'.plan).mark _ _
    · rw [Context.introduce, Context.tail_mark]
      exact hstands.defined
    · exact hstands.coherent.introduce hname hwhole
    · exact hdefined.tail.introduce hdefined.head _
  · rintro W₂ m₂ _ _ hm₂ ⟨_, hnew⟩
    exact runs_pure hm₂ (hnew context hpresent)

/-- A class is made, with the methods of its superclass if it names one. -/
theorem runs_classOf (hother : Access.Agrees Q table other) (hm : m.Sound Q W)
    {around : Surroundings} {context : Context} {env : Env}
    (hstands : Stands W m.store around.classBody context env) (hdefined : context.Defined)
    {name : Token} {superclass : Option (Ref Label)} {ms : List (Function Label)}
    (hs : (Stmt.classOf name superclass ms).Ready Q around context) :
    Runs Q W m
      (execute ⟨.byHops table, clock, rounds⟩ (depth + 1) env (.classOf name superclass ms))
      (execute ⟨other, clock, rounds⟩ (depth + 1) env (.classOf name superclass ms))
      fun W' store' c => c.Sound Q W' store' (context.introduce name) env := by
  have hwhole : ∀ scope ∈ context.head?, name.lexeme ∈ scope.whole :=
    fun scope hscope => hs.declares scope hscope name (List.mem_singleton_self _)
  have hnamed : (context.introduce name).Defined := hdefined.tail.introduce hdefined.head _
  unfold execute executeOuter
  cases superclass with
  | none =>
    obtain ⟨hname, hms⟩ := hs.classOf
    have hcoherent := (hstands.coherent.introduce hname hwhole).plain
    refine (runs_fillClass hm hstands.shape hstands.present hname hwhole
      (hstands.shape.mark name.lexeme true) (fun _ h => h) hnamed hcoherent hms
      (List.forall_mem_nil _)).bind fun W₁ m₁ _ _ hm₁ hpresent => ?_
    exact runs_pure hm₁ hpresent
  | some parent =>
    obtain ⟨hname, hparent, hne, hpending, hQ, hms⟩ := hs.subclassOf
    refine (runs_superclass hother hm hstands hdefined hname hwhole hparent hne hpending
      hQ).bind fun W₁ m₁ v hgrows hm₁ hv => ?_
    split
    · rename_i c
      -- a superclass has been found, and the methods stand in one more scope, which holds it
      have hsuper : Runs Q W₁ m₁ (Action.enter (Bindings.empty.insert "super" (.classOf c)) env)
          _ _ := runs_enterWord hm₁ env hv (fun h => absurd h (by decide)) fun _ => ⟨c, rfl⟩
      unfold makeClass
      rw [bind_assoc]
      refine hsuper.bind fun W₂ m₂ methodEnv hgrows' hm₂ hentered => ?_
      have hgrows₂ := hgrows.trans hgrows'
      have hcoherent := (hstands.coherent.introduce hname hwhole).derive
      refine (runs_fillClass hm₂ (hstands.shape.mono hgrows₂.plan)
        (hstands.present.mono hgrows₂.names) hname hwhole
        (hentered.shape ((hstands.shape.mono hgrows₂.plan).mark _ _))
        (fun hgrows₃ hpresent => (hentered.grow hgrows₃).present hpresent)
        (hnamed.cons fun other => ?_) hcoherent hms
        (fun level hlevel name' f hf => (hv level hlevel name' f hf).grow hgrows')).bind
        fun W₃ m₃ _ _ hm₃ hpresent => ?_
      · rw [OpenScope.get?_ofWord]
        split <;> simp
      · exact runs_pure hm₃ hpresent
    · exact runs_fail hm₁ _ _

theorem executesInStep_succ (hother : Access.Agrees Q table other)
    (heval : EvaluatesInStep Q ⟨.byHops table, clock, rounds⟩ ⟨other, clock, rounds⟩ depth)
    (hexec : ExecutesInStep Q ⟨.byHops table, clock, rounds⟩ ⟨other, clock, rounds⟩ depth) :
    ExecutesInStep Q ⟨.byHops table, clock, rounds⟩ ⟨other, clock, rounds⟩ (depth + 1) := by
  intro W m around context env s hm hstands hdefined hs
  cases s with
  | var name initial => exact runs_var heval hm hstands hs
  | function f => exact runs_function hm hstands hdefined hs
  | classOf name superclass ms => exact runs_classOf hother hm hstands hdefined hs
  | unknown form => cases hs.wellFormed
  | expression value =>
    unfold execute executeOuter
    refine (heval hm hstands hs.expression).bind fun W₁ m₁ v hgrows hm₁ _ => ?_
    exact runs_pure hm₁ (hstands.present.mono hgrows.names)
  | print value =>
    unfold execute executeOuter
    refine (heval hm hstands hs.print).bind fun W₁ m₁ v hgrows hm₁ _ => ?_
    refine (runs_print hm₁ v).bind fun W₂ m₂ _ hgrows' hm₂ _ => ?_
    exact runs_pure hm₂ (hstands.present.mono (hgrows.trans hgrows').names)
  | returnFrom keyword value =>
    unfold execute executeOuter
    cases value with
    | none => exact runs_pure hm trivial
    | some e =>
      exact (heval hm hstands (hs.returnFrom e rfl)).bind
        fun W₁ m₁ v _ hm₁ hv => runs_pure hm₁ hv
  | block body =>
    unfold execute executeOuter
    have hbody := hs.block
    refine (runs_enterEmpty hm env (Stmt.declaresAll body)).bind
      fun W₁ m₁ inner hgrows hm₁ hentered => ?_
    -- the block adds names to its own scope only, so those outside are there as they were
    obtain ⟨hinner, hdefined⟩ := hstands.block hdefined hbody hgrows hentered
    refine (runs_runAll hexec hbody hm₁ hinner hdefined).imp
      fun W₂ store₂ c hgrows' hc => ?_
    cases c with
    | normal => exact hstands.present.mono (hgrows.trans hgrows').names
    | returned v => exact hc
  | ifThen condition body =>
    unfold execute executeOuter
    obtain ⟨hcondition, hbody, hnone⟩ := hs.ifThen
    refine (heval hm hstands hcondition).bind fun W₁ m₁ v hgrows hm₁ _ => ?_
    split
    · exact hexec hm₁ (hstands.grow hgrows) hdefined hbody
    · refine runs_pure hm₁ ?_
      -- a branch declares nothing, so without it the same names are there
      rw [Stmt.declares, hnone]
      exact hstands.present.mono hgrows.names
  | ifElse condition body other =>
    unfold execute executeOuter
    obtain ⟨hcondition, ⟨hbody, hnone⟩, hother, hnone'⟩ := hs.ifElse
    refine (heval hm hstands hcondition).bind fun W₁ m₁ v hgrows hm₁ _ => ?_
    rw [Stmt.declares, hnone, hnone']
    split
    · have h := hexec hm₁ (hstands.grow hgrows) hdefined hbody
      rwa [hnone] at h
    · have h := hexec hm₁ (hstands.grow hgrows) hdefined hother
      rwa [hnone'] at h
  | whileLoop condition body =>
    unfold execute executeOuter
    obtain ⟨hcondition, hbody, hnone⟩ := hs.whileLoop
    rw [Stmt.declares, hnone]
    -- each turn begins on another machine, where the loop still stands as at first
    refine runs_runWhile (fun hm hpresent hshape => ?_) (fun hm hpresent hshape => ?_) hm
      hstands.present hstands.shape rounds
    · exact (heval hm { hstands with shape := hshape, present := hpresent } hcondition).bind
        fun _ _ _ _ hm _ => runs_pure hm trivial
    · have h := hexec hm { hstands with shape := hshape, present := hpresent } hdefined hbody
      rwa [hnone] at h

/-! ## Whole runs -/

/-- **Runs stay in step.** Two runs that reach variables in ways that agree stay in step through
every expression, call, function and statement, whatever nesting they are allowed. -/
theorem inStep (hother : Access.Agrees Q table other) (depth : Nat) :
    EvaluatesInStep Q ⟨.byHops table, clock, rounds⟩ ⟨other, clock, rounds⟩ depth ∧
      CallsInStep Q ⟨.byHops table, clock, rounds⟩ ⟨other, clock, rounds⟩ depth ∧
      InvokesInStep Q ⟨.byHops table, clock, rounds⟩ ⟨other, clock, rounds⟩ depth ∧
      ExecutesInStep Q ⟨.byHops table, clock, rounds⟩ ⟨other, clock, rounds⟩ depth := by
  induction depth with
  | zero =>
    refine ⟨?_, ?_, ?_, ?_⟩
    · intro W m around context env e hm _ _
      unfold evaluate
      exact runs_tooDeep hm
    · intro W m callee arguments hm _ _ _
      unfold call
      exact runs_tooDeep hm
    · intro W m f arguments hm _ _ _
      unfold invoke
      exact runs_tooDeep hm
    · intro W m around context env s hm _ _ _
      unfold execute
      exact runs_tooDeep hm
  | succ depth ih =>
    obtain ⟨heval, hcall, hinvoke, hexec⟩ := ih
    exact ⟨evaluatesInStep_succ hother heval hcall, callsInStep_succ hinvoke,
      invokesInStep_succ hexec, executesInStep_succ hother heval hexec⟩

/-- A program that is ready runs in step among the global variables. -/
theorem runs_runProgram (hother : Access.Agrees Q table other) (depth : Nat)
    {program : List (Stmt Label)} (hm : m.Sound Q W)
    (hprogram : Stmt.ReadyAll Q ⟨.outside, .outside⟩ [] program) :
    Runs Q W m (runProgram ⟨.byHops table, clock, rounds⟩ depth program)
      (runProgram ⟨other, clock, rounds⟩ depth program) fun _ _ _ => True := by
  induction program generalizing W m with
  | nil => exact runs_pure hm trivial
  | cons s ss ih =>
    obtain ⟨hs, hss⟩ := hprogram.cons
    rw [Context.introduceAll_nil] at hss
    have hexec : Runs Q W m (execute ⟨.byHops table, clock, rounds⟩ depth globalEnv s)
        (execute ⟨other, clock, rounds⟩ depth globalEnv s) fun _ _ _ => True :=
      ((inStep hother depth).2.2.2 hm (.globals W m.store) (List.forall_mem_nil _) hs).imp
        fun _ _ _ _ _ => trivial
    exact (hexec.bind fun _ _ _ _ hm' _ => runs_pure (P := fun _ _ _ => True) hm' trivial).bind
      fun _ _ _ _ hm' _ => ih hm' hss

end

end LoxLang
