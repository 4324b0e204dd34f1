import LoxLang.Proofs.Machine.Follows
import LoxLang.Proofs.Machine.Orderly

/-! # Names that scopes get

Giving a variable a value makes it if its scope lacks it.  Which names the scopes of a machine get
while a part of a program runs is said by `Adds A B`: none but those in `A` if it ends without a
result, none but those in `B` if it has one.  An expression adds nothing but a name that is declared
around it and not defined yet, a call adds nothing to the scopes that were there, and a statement
adds the name it declares, if it declares one, to the scope where it stands (`adds_execute`).  That
no reference makes a variable by accident is what machines in order are for: the scope to which a
reference leads has the name. -/

namespace LoxLang

open Binder (Surroundings)
open LoxLang.Machine LoxLang.Action

variable {α β σ : Type}

/-! ## Names of a store -/

/-- Names, each in a scope. -/
abbrev Places := ScopeId → String → Prop

/-- No names. -/
def Places.none : Places := fun _ _ => False

/-- Names in the innermost scope of an environment. -/
def Places.here (env : Env) (names : String → Prop) : Places :=
  fun id name => env.head? = some id ∧ names name

/-- The scopes of a store have kept their names and got none but those in `A`. -/
structure Store.NamesGrow (A : Places) (store store' : Store α) : Prop where
  le : store.nextId ≤ store'.nextId
  kept : ∀ id name, (store.scope id).contains name → (store'.scope id).contains name
  added : ∀ id < store.nextId, ∀ name, (store'.scope id).contains name →
    (store.scope id).contains name ∨ A id name

namespace Store.NamesGrow

variable {A A' : Places} {store store' store'' : Store α}

theorem refl (A : Places) (store : Store α) : store.NamesGrow A store :=
  ⟨Nat.le_refl _, fun _ _ h => h, fun _ _ _ h => .inl h⟩

theorem imp (h : store.NamesGrow A store') (hA : ∀ id < store.nextId, ∀ name, A id name → A' id name) :
    store.NamesGrow A' store' :=
  ⟨h.le, h.kept, fun id hid name hname => (h.added id hid name hname).imp_right (hA id hid name)⟩

theorem trans (h : store.NamesGrow A store') (h' : store'.NamesGrow A store'') :
    store.NamesGrow A store'' := by
  refine ⟨Nat.le_trans h.le h'.le, fun id name hname => h'.kept id name (h.kept id name hname),
    fun id hid name hname => ?_⟩
  rcases h'.added id (Nat.lt_of_lt_of_le hid h.le) name hname with hname | hname
  · exact h.added id hid name hname
  · exact .inr hname

theorem push (A : Places) (store : Store α) (vars : Bindings α) :
    store.NamesGrow A (store.push vars) := by
  refine ⟨by simp, fun id name hname => ?_, fun id hid name hname => ?_⟩
  · exact (Grows.push [] store [] vars).names id name hname
  · rw [Store.scope_push, if_neg (Nat.ne_of_lt hid)] at hname
    exact .inl hname

theorem set (id : ScopeId) (name : String) (value : α) (store : Store α)
    (h : (store.scope id).contains name ∨ A id name) :
    store.NamesGrow A (store.set id name value) := by
  refine ⟨by simp, (Grows.set [] store id name value).names, fun other _ name' hname => ?_⟩
  rw [Store.scope_set] at hname
  split at hname
  · rename_i hother
    rw [Bindings.contains_insert, Bool.or_eq_true, beq_iff_eq] at hname
    rw [hother.1]
    rcases hname with rfl | hname
    · exact h
    · exact .inl hname
  · exact .inl hname

end Store.NamesGrow

/-! ## Names that actions add -/

/-- An action adds to the scopes of a machine no names but those in `A` if it ends without a result,
and none but those in `B` if it has one. -/
def Adds (A B : Places) (m : Machine) (x : Action α) : Prop :=
  match x m with
  | .ok _ m' => m.store.NamesGrow B m'.store
  | .error _ m' => m.store.NamesGrow A m'.store

section
variable {A A' B B' : Places} {m m' : Machine} {x : Action α} {f : α → Action β}

theorem Adds.imp (h : Adds A B m x) (hA : ∀ id < m.store.nextId, ∀ name, A id name → A' id name)
    (hB : ∀ id < m.store.nextId, ∀ name, B id name → B' id name) : Adds A' B' m x := by
  unfold Adds at h ⊢
  split at h
  · exact h.imp hB
  · exact h.imp hA

theorem Adds.ofNone (h : Adds .none .none m x) : Adds A B m x :=
  h.imp (fun _ _ _ => False.elim) fun _ _ _ => False.elim

theorem Adds.bind {C : Places} (hx : Adds C C m x)
    (hf : ∀ a m', x m = .ok a m' → Adds A B m' (f a)) (hA : ∀ id name, C id name → A id name)
    (hB : ∀ id name, C id name → B id name) : Adds A B m (x >>= f) := by
  unfold Adds at hx ⊢
  rw [EStateM.bind_apply]
  cases hran : x m with
  | error h m' =>
    rw [hran] at hx
    exact hx.imp fun id _ => hA id
  | ok a m' =>
    rw [hran] at hx
    have hrest := hf a m' hran
    unfold Adds at hrest
    dsimp only at hx ⊢
    cases hend : f a m' with
    | error h m'' =>
      rw [hend] at hrest
      exact (hx.imp fun id _ => hA id).trans hrest
    | ok b m'' =>
      rw [hend] at hrest
      exact (hx.imp fun id _ => hB id).trans hrest

/-- An action before one that may add the same names. -/
theorem Adds.bindSame (hx : Adds A A m x) (hf : ∀ a m', x m = .ok a m' → Adds A A m' (f a)) :
    Adds A A m (x >>= f) := hx.bind hf (fun _ _ h => h) fun _ _ h => h

/-- An action that adds nothing before another one. -/
theorem Adds.bindNone (hx : Adds .none .none m x)
    (hf : ∀ a m', x m = .ok a m' → Adds A B m' (f a)) : Adds A B m (x >>= f) :=
  hx.bind hf (fun _ _ => False.elim) fun _ _ => False.elim

theorem Adds.of_ok (h : Adds A B m x) {a : α} (hx : x m = .ok a m') :
    m.store.NamesGrow B m'.store := by
  unfold Adds at h
  rw [hx] at h
  exact h

theorem Adds.of_error (h : Adds A B m x) {e : Halt} (hx : x m = .error e m') :
    m.store.NamesGrow A m'.store := by
  unfold Adds at h
  rw [hx] at h
  exact h

/-- The names that an action adds, however it ends. -/
theorem Adds.machineOf (h : Adds A B m x) (hA : ∀ id name, A id name → B id name) :
    m.store.NamesGrow B (machineOf (x m)).store := by
  cases hx : x m with
  | ok a m' => exact h.of_ok hx
  | error e m' => exact (h.of_error hx).imp fun id _ => hA id

theorem Adds.done (hx : Adds A B m x) (b : β) : Adds A B m (x >>= fun _ => pure b) := by
  unfold Adds at hx ⊢
  rw [EStateM.bind_apply]
  cases hran : x m <;> rw [hran] at hx <;> exact hx

theorem adds_of_store_eq (h : (machineOf (x m)).store = m.store) : Adds A B m x := by
  unfold Adds
  split
  all_goals
    rename_i hran
    rw [hran] at h
    exact h ▸ Store.NamesGrow.refl _ _

theorem adds_pure (a : α) : Adds A B m (pure a : Action α) := adds_of_store_eq rfl

theorem adds_throw (h : Halt) : Adds A B m (throw h : Action α) := adds_of_store_eq rfl

theorem adds_ofExcept (r : Except RuntimeError α) : Adds A B m (ofExcept r) :=
  adds_of_store_eq (by cases r <;> rfl)

/-- What is done in a new scope adds nothing to those that were there. -/
theorem adds_enter_bind {vars : Bindings Value} {env : Env} {f : Env → Action β}
    (h : ∀ inner m', enter vars env m = .ok inner m' → inner = m.store.nextId :: env →
      Adds (fun id name => id = m.store.nextId ∨ A id name)
        (fun id name => id = m.store.nextId ∨ B id name) m' (f inner)) :
    Adds A B m (enter vars env >>= f) := by
  have hrest := h _ _ rfl rfl
  have hpush := Store.NamesGrow.push (fun id name => id = m.store.nextId ∨ A id name) m.store vars
  have hpush' := Store.NamesGrow.push (fun id name => id = m.store.nextId ∨ B id name) m.store vars
  have hold : ∀ {A : Places}, ∀ id < m.store.nextId, ∀ name, id = m.store.nextId ∨ A id name →
      A id name := fun id hid name h => h.resolve_left (Nat.ne_of_lt hid)
  unfold Adds at hrest ⊢
  rw [EStateM.bind_ok (show enter vars env m = .ok _ _ from rfl)]
  split at hrest
  · exact (hpush'.trans hrest).imp hold
  · exact (hpush.trans hrest).imp hold

theorem adds_getAt (env : Env) (hops : Int) (name : String) : Adds A B m (getAt env hops name) := by
  refine adds_of_store_eq ?_
  rw [getAt, EStateM.bind_ok (EStateM.get_apply m)]
  cases m.store.getAt env hops name <;> rfl

theorem adds_define {id : ScopeId} {outer : Env} {name : String} {value : Value}
    (h : (m.store.scope id).contains name ∨ B id name) :
    Adds A B m (define (id :: outer) name value) :=
  Store.NamesGrow.set id name value m.store h

theorem adds_takeMethod (object : Value) (method : Closure) :
    Adds A B m (takeMethod object method) :=
  adds_enter_bind fun _ _ _ _ => (adds_of_store_eq rfl : Adds .none .none _ freshId).bindNone
    fun _ _ _ => adds_pure _

theorem adds_property (id : Nat) (c : ClassValue) (name : Token) :
    Adds A B m (property id c name) := by
  refine (adds_of_store_eq rfl : Adds .none .none m get).bindNone fun _ m' _ => ?_
  split
  · exact adds_pure _
  · split
    · exact (adds_takeMethod _ _ : Adds .none .none m' _).bindNone fun _ _ _ => adds_pure _
    · exact adds_throw _

theorem adds_read (table : BindingTable) (env : Env) (ref : Ref Label) :
    Adds A B m (read table env ref) := by
  unfold Action.read
  split
  · exact adds_getAt _ _ _
  · refine (adds_of_store_eq rfl : Adds .none .none m get).bindNone fun _ _ _ => ?_
    split
    · exact adds_pure _
    · exact adds_throw _

theorem adds_parent (table : BindingTable) (env : Env) (ref : Ref Label) :
    Adds A B m (parent table env ref) := by
  unfold parent
  split
  · exact adds_throw _
  · refine (adds_getAt _ _ _ : Adds .none .none m _).bindNone fun _ m₁ _ => ?_
    exact (adds_getAt _ _ _ : Adds .none .none m₁ _).bindNone fun _ _ _ => adds_pure _

theorem adds_superMethod (table : BindingTable) (env : Env) (ref : Ref Label) (name : Token) :
    Adds A B m (superMethod (.byHops table) env ref name) := by
  refine (adds_parent table env ref : Adds .none .none m _).bindNone fun p m₁ _ => ?_
  split
  · split
    · exact (adds_takeMethod _ _ : Adds .none .none m₁ _).bindNone fun _ _ _ => adds_pure _
    · exact adds_throw _
  · exact adds_throw _

/-- Actions that add nothing for all members of a list add nothing for the list. -/
theorem adds_mapM {f : σ → Action α} (h : ∀ a m, Adds .none .none m (f a)) (l : List σ) :
    Adds A B m (l.mapM f) := by
  suffices hnone : ∀ m, Adds .none .none m (l.mapM f) from (hnone m).ofNone
  induction l with
  | nil => exact fun _ => adds_pure _
  | cons a l ih =>
    intro m
    rw [List.mapM_cons]
    exact (h a m).bindNone fun _ m' _ => (ih m').bindNone fun _ _ _ => adds_pure _

theorem adds_freshId : Adds A B m freshId := adds_of_store_eq rfl

theorem adds_makeMethods (env : Env) (methods : List (Function Label)) :
    Adds A B m (makeMethods env methods) :=
  (adds_mapM (fun _ m => (adds_freshId : Adds .none .none m _).bindNone
    fun _ _ _ => adds_pure _) methods : Adds .none .none m _).bindNone fun _ _ _ => adds_pure _

/-- A class adds its name to the scope where it stands. -/
theorem adds_makeClass {id : ScopeId} {outer : Env} (name : Token) (parent : Option ClassValue)
    (methods : List (Function Label)) :
    Adds .none (.here (id :: outer) (· = name.lexeme)) m
      (makeClass (id :: outer) name parent methods) := by
  have hrest : ∀ m₁ methodEnv above, Adds .none (.here (id :: outer) (· = name.lexeme)) m₁ (do
      let methods ← makeMethods methodEnv methods
      let own : ClassLevel := ⟨← Action.freshId, name.lexeme, methods⟩
      Action.define (id :: outer) name.lexeme (.classOf ⟨own, above⟩)) := by
    intro m₁ methodEnv above
    refine (adds_makeMethods methodEnv methods : Adds .none .none m₁ _).bindNone fun _ m₂ _ => ?_
    refine (adds_freshId : Adds .none .none m₂ _).bindNone fun _ m₃ _ => ?_
    exact adds_define (.inr ⟨rfl, rfl⟩)
  unfold makeClass
  cases parent with
  | none => exact hrest m (id :: outer) []
  | some c =>
    exact adds_enter_bind fun methodEnv m' _ _ => (hrest m' methodEnv c.lineage).imp
      (fun _ _ _ => .inr) fun _ _ _ => .inr

end

/-! ## Names that expressions add -/

/-- The names that are declared in the innermost scope and not defined yet. -/
def Places.pending (context : Context) (env : Env) : Places :=
  .here env fun name => context.isPending name

/-- Where all names are defined, none is pending. -/
theorem Places.none_of_pending {context : Context} (h : context.Defined) {env : Env} {id : ScopeId}
    {name : String} (hname : pending context env id name) : Places.none id name := by
  rw [pending, here, Context.not_isPending h] at hname
  exact absurd hname.2 Bool.false_ne_true

/-- The only name that may be pending is that of the variable whose initial value is evaluated. -/
theorem Context.eq_of_isPending_mark {context : Context} (h : context.Defined) {name other : String}
    (hother : Context.isPending other (context.mark name false)) :
    context ≠ [] ∧ other = name := by
  cases context with
  | nil => cases hother
  | cons scope outer =>
    refine ⟨List.cons_ne_nil _ _, ?_⟩
    simp only [Context.isPending, Context.mark_cons, List.head?_cons, Option.any_some,
      OpenScope.mark, Bindings.get?_insert, beq_iff_eq] at hother
    split at hother
    · assumption
    · exact absurd hother (h scope List.mem_cons_self other)

/-- A pending name is one of the innermost scope. -/
theorem Context.hops?_of_isPending {context : Context} {name : String}
    (h : context.isPending name) : context.hops? name = some 0 := by
  cases context with
  | nil => cases h
  | cons scope outer =>
    simp only [Context.isPending, List.head?_cons, Option.any_some, beq_iff_eq] at h
    rw [Context.hops?_cons, OpenScope.has, Bindings.contains, h]
    rfl

section
variable {Q : Demand Label} {W : Plan} {m : Machine} {table : BindingTable}
  (htable : ∀ u, Q u → table.hops? u.ref.label = u.hops?)
include htable

/-- An assignment makes no variable but one that is declared around it and not defined yet. -/
theorem adds_assign {around : Surroundings} {context : Context} {env : Env}
    (hstands : Stands W m.store around.classBody context env) {ref : Ref Label}
    (hu : Q ⟨ref, .assign, around, context⟩) (value : Value) :
    Adds (.pending context env) (.pending context env) m (assign table env ref value) := by
  have hhere : table.hops? ref.label = context.hops? ref.name.lexeme := htable _ hu
  unfold assign
  rw [hhere]
  cases hhops : context.hops? ref.name.lexeme with
  | some hops =>
    show Adds _ _ m ((ofAccess (env.leave hops) : Action Env) >>= _)
    by_cases hpending : context.isPending ref.name.lexeme
    · obtain rfl : 0 = hops := by simpa [Context.hops?_of_isPending hpending] using hhops
      obtain ⟨scope, hscope, _⟩ := Context.exists_of_hops? hhops
      obtain ⟨id, hid, _⟩ := hstands.shape.getElem? hscope
      rw [Env.leave_of_getElem? hid]
      refine adds_define (.inr ⟨?_, hpending⟩)
      rwa [List.head?_eq_getElem?]
    · obtain ⟨id, hid, hname⟩ := hstands.exists_of_hops? (eq_false_of_ne_true hpending) hhops
      rw [Env.leave_of_getElem? hid]
      exact adds_define (.inl hname)
  | none =>
    refine (adds_of_store_eq rfl : Adds .none .none m get).bindNone fun _ m' hget => ?_
    cases hget
    split
    · rename_i id hhome
      have hname : (m.store.scope id).contains ref.name.lexeme :=
        List.find?_some (p := fun id => (m.store.scope id).contains ref.name.lexeme) hhome
      exact adds_define (.inl hname)
    · exact adds_throw _

end

/-! ## The parts of the evaluator -/

/-- Evaluation with `depth` levels left adds none but pending names. -/
def EvaluatesAdding (Q : Demand Label) (S : Setting) (depth : Nat) : Prop :=
  ∀ {W : Plan} {m : Machine} {around : Surroundings} {context : Context} {env : Env}
    {e : Expr Label}, m.Sound Q W → Stands W m.store around.classBody context env →
    e.Ready Q around context →
    Adds (.pending context env) (.pending context env) m (evaluate S depth env e)

/-- Calls with `depth` levels left add nothing to the scopes that are there. -/
def CallsAdding (Q : Demand Label) (S : Setting) (depth : Nat) : Prop :=
  ∀ {W : Plan} {m : Machine} {callee : Callee} {arguments : List Value}, m.Sound Q W →
    callee.Sound Q W m.store → (∀ v ∈ arguments, v.Sound Q W m.store) →
    arguments.length = callee.arity → Adds .none .none m (call S depth callee arguments)

/-- Executions of functions with `depth` levels left add nothing to the scopes that are there. -/
def InvokesAdding (Q : Demand Label) (S : Setting) (depth : Nat) : Prop :=
  ∀ {W : Plan} {m : Machine} {f : Closure} {arguments : List Value}, m.Sound Q W →
    f.Callable Q W m.store → (∀ v ∈ arguments, v.Sound Q W m.store) →
    arguments.length = f.arity → Adds .none .none m (invoke S depth f arguments)

/-- The names that a statement declares, in the scope where it stands. -/
def Places.declared (env : Env) (s : Stmt Label) : Places :=
  .here env fun name => name ∈ s.declares.map Token.lexeme

theorem Places.none_of_declared {s : Stmt Label} (h : s.declares = []) {env : Env} {id : ScopeId}
    {name : String} (hname : declared env s id name) : Places.none id name := by
  rw [declared, here, h] at hname
  exact absurd hname.2 List.not_mem_nil

/-- Executions of statements with `depth` levels left add the names that the statements declare. A
statement that does not complete outside all local scopes adds nothing. -/
def ExecutesAdding (Q : Demand Label) (S : Setting) (depth : Nat) : Prop :=
  ∀ {W : Plan} {m : Machine} {around : Surroundings} {context : Context} {env : Env}
    {s : Stmt Label}, m.Sound Q W → Stands W m.store around.classBody context env →
    context.Defined → s.Ready Q around context →
    Adds (fun id name => context ≠ [] ∧ Places.declared env s id name) (.declared env s) m
      (execute S depth env s)

theorem ExecutesAdding.none {Q : Demand Label} {S : Setting} {depth : Nat}
    (h : ExecutesAdding Q S depth) {W : Plan} {m : Machine} {around : Surroundings}
    {context : Context} {env : Env} {s : Stmt Label} (hm : m.Sound Q W)
    (hstands : Stands W m.store around.classBody context env) (hdefined : context.Defined)
    (hs : s.Ready Q around context) (hnone : s.declares = []) :
    Adds .none .none m (execute S depth env s) :=
  (h hm hstands hdefined hs).imp (fun _ _ _ h => Places.none_of_declared hnone h.2)
    fun _ _ _ => Places.none_of_declared hnone

section
variable {Q : Demand Label} {table : BindingTable} {clock : Nat → Float} {rounds depth : Nat}
  (htable : ∀ u, Q u → table.hops? u.ref.label = u.hops?)
include htable

omit htable in
/-- Reading a name adds nothing. -/
theorem adds_nameRef {A B : Places} {m : Machine} (env : Env) (ref : Ref Label) :
    Adds A B m (evaluate ⟨.byHops table, clock, rounds⟩ depth env (.nameRef ref)) := by
  cases depth with
  | zero =>
    unfold evaluate
    exact adds_throw _
  | succ depth =>
    unfold evaluate evaluateOuter
    exact adds_read _ _ _

/-- An operand adds pending names, and so may what follows it. -/
theorem EvaluatesAdding.operand (heval : EvaluatesAdding Q ⟨.byHops table, clock, rounds⟩ depth)
    {W : Plan} {m : Machine} {around : Surroundings} {context : Context} {env : Env}
    {part : Expr Label} {β : Type} {f : Value → Action β} (hm : m.Sound Q W)
    (hstands : Stands W m.store around.classBody context env) (hpart : part.Ready Q around context)
    (hf : ∀ v m₁ W₁, m₁.Sound Q W₁ → Stands W₁ m₁.store around.classBody context env →
      v.Sound Q W₁ m₁.store → Adds (.pending context env) (.pending context env) m₁ (f v)) :
    Adds (.pending context env) (.pending context env) m
      (evaluate ⟨.byHops table, clock, rounds⟩ depth env part >>= f) := by
  refine (heval hm hstands hpart).bindSame fun v m₁ hv => ?_
  obtain ⟨W₁, hgrows, hm₁, hsound⟩ := evaluated_inOrder htable hm hstands hpart hv
  exact hf v m₁ W₁ hm₁ (hstands.grow hgrows) hsound

omit htable in
/-- Where all names are defined an expression adds none. -/
theorem EvaluatesAdding.none (heval : EvaluatesAdding Q ⟨.byHops table, clock, rounds⟩ depth)
    {W : Plan} {m : Machine} {around : Surroundings} {context : Context} {env : Env}
    {e : Expr Label} (hm : m.Sound Q W) (hstands : Stands W m.store around.classBody context env)
    (hdefined : context.Defined) (he : e.Ready Q around context) :
    Adds .none .none m (evaluate ⟨.byHops table, clock, rounds⟩ depth env e) :=
  (heval hm hstands he).imp (fun _ _ _ => Places.none_of_pending hdefined)
    fun _ _ _ => Places.none_of_pending hdefined

/-- An expression of a statement adds nothing where all names are defined, so the statement adds
what is added behind it. -/
theorem EvaluatesAdding.andThen (heval : EvaluatesAdding Q ⟨.byHops table, clock, rounds⟩ depth)
    {W : Plan} {m : Machine} {around : Surroundings} {context : Context} {env : Env}
    {e : Expr Label} {β : Type} {f : Value → Action β} {A B : Places} (hm : m.Sound Q W)
    (hstands : Stands W m.store around.classBody context env) (hdefined : context.Defined)
    (he : e.Ready Q around context)
    (hf : ∀ v m₁ W₁, m₁.Sound Q W₁ → Stands W₁ m₁.store around.classBody context env →
      Adds A B m₁ (f v)) :
    Adds A B m (evaluate ⟨.byHops table, clock, rounds⟩ depth env e >>= f) := by
  refine (heval.none hm hstands hdefined he).bindNone fun v m₁ hv => ?_
  obtain ⟨W₁, hgrows, hm₁, _⟩ := evaluated_inOrder htable hm hstands he hv
  exact hf v m₁ W₁ hm₁ (hstands.grow hgrows)

theorem adds_operands (heval : EvaluatesAdding Q ⟨.byHops table, clock, rounds⟩ depth) {W : Plan}
    {m : Machine} {around : Surroundings} {context : Context} {env : Env} {es : List (Expr Label)}
    (hm : m.Sound Q W) (hstands : Stands W m.store around.classBody context env)
    (hes : ∀ e ∈ es, e.Ready Q around context) :
    Adds (.pending context env) (.pending context env) m
      (es.mapM fun e => evaluate ⟨.byHops table, clock, rounds⟩ depth env e) := by
  induction es generalizing W m with
  | nil => exact adds_pure _
  | cons e es ih =>
    obtain ⟨he, hes⟩ := List.forall_mem_cons.mp hes
    rw [List.mapM_cons]
    refine (heval hm hstands he).bindSame fun v m₁ hv => ?_
    obtain ⟨W₁, hgrows, hm₁, _⟩ := evaluated_inOrder htable hm hstands he hv
    exact (ih hm₁ (hstands.grow hgrows) hes).bindSame fun _ _ _ => adds_pure _

theorem evaluatesAdding_succ (heval : EvaluatesAdding Q ⟨.byHops table, clock, rounds⟩ depth)
    (hcall : CallsAdding Q ⟨.byHops table, clock, rounds⟩ depth) :
    EvaluatesAdding Q ⟨.byHops table, clock, rounds⟩ (depth + 1) := by
  intro W m around context env e hm hstands he
  unfold evaluate evaluateOuter
  cases e with
  | literal value => exact adds_pure _
  | nameRef ref | thisRef ref => exact adds_read _ _ _
  | assign ref value =>
    obtain ⟨_, hvalue, hQ⟩ := he.assign
    refine heval.operand htable hm hstands hvalue fun v m₁ W₁ hm₁ hstands₁ _ => ?_
    exact (adds_assign htable hstands₁ hQ v).bindSame fun _ _ _ => adds_pure _
  | unary op operand =>
    exact heval.operand htable hm hstands he.unary fun _ _ _ _ _ _ => adds_ofExcept _
  | binary left op right =>
    obtain ⟨hleft, hright⟩ := he.binary
    exact heval.operand htable hm hstands hleft fun _ m₁ W₁ hm₁ hstands₁ _ =>
      heval.operand htable hm₁ hstands₁ hright fun _ _ _ _ _ _ => adds_ofExcept _
  | logical left op right =>
    obtain ⟨hleft, hright⟩ := he.logical
    refine heval.operand htable hm hstands hleft fun _ m₁ W₁ hm₁ hstands₁ _ => ?_
    split
    · exact adds_pure _
    · exact heval hm₁ hstands₁ hright
  | group inner => exact heval hm hstands he.group
  | call callee paren arguments =>
    obtain ⟨hcallee, harguments⟩ := he.call
    refine heval.operand htable hm hstands hcallee fun v m₁ W₁ hm₁ hstands₁ hv => ?_
    refine (adds_operands htable heval hm₁ hstands₁ harguments).bindSame fun vs m₂ hvs => ?_
    obtain ⟨W₂, hgrows, hm₂, _, hvs⟩ := operands_inOrder htable hm₁ hstands₁ harguments hvs
    split
    · exact adds_throw _
    · rename_i c hc
      split
      · rename_i harity
        -- the body of what is called stands in a scope of its own
        exact (hcall hm₂ ((hv.grow hgrows).callee? hc) hvs harity).ofNone
      · exact adds_throw _
  | get object name =>
    refine heval.operand htable hm hstands he.get fun v m₁ W₁ hm₁ hstands₁ _ => ?_
    split
    · exact adds_property _ _ _
    · exact adds_throw _
  | set object name value =>
    obtain ⟨hobject, hvalue⟩ := he.set
    refine heval.operand htable hm hstands hobject fun v m₁ W₁ hm₁ hstands₁ _ => ?_
    split
    · refine heval.operand htable hm₁ hstands₁ hvalue fun w m₂ W₂ _ _ _ => ?_
      exact (adds_of_store_eq rfl : Adds .none .none m₂ (setField _ _ _)).bindNone
        fun _ _ _ => adds_pure _
    · exact adds_throw _
  | superRef ref method => exact adds_superMethod _ _ _ _
  | unknown form => exact adds_throw _

theorem callsAdding_succ (hinvoke : InvokesAdding Q ⟨.byHops table, clock, rounds⟩ depth) :
    CallsAdding Q ⟨.byHops table, clock, rounds⟩ (depth + 1) := by
  intro W m callee arguments hm hcallee harguments hlength
  unfold call callOuter
  cases callee with
  | clock => exact adds_of_store_eq rfl
  | function f => exact hinvoke hm hcallee harguments hlength
  | classOf c =>
    refine (adds_of_store_eq rfl : Adds .none .none m (newObject c)).bindNone fun object m₁ hnew => ?_
    split
    · rename_i method hmethod
      refine (adds_takeMethod object method : Adds .none .none m₁ _).bindNone fun f m₂ htake => ?_
      have hstarts : Starts ⟨.byHops table, clock, rounds⟩
          (.call (depth + 1) (.classOf c) arguments, m) (.invoke depth f arguments, m₂) :=
        .initializer hnew hmethod htake
      obtain ⟨W₂, _, hm₂, hf, hvs, hlength⟩ :=
        hstarts.inOrder htable hm ⟨hcallee, harguments, hlength⟩
      exact (hinvoke hm₂ hf hvs hlength).bindNone fun _ _ _ => adds_pure _
    · exact adds_pure _

/-- What is done in a new scope, statement by statement, adds names to no other scope. -/
theorem adds_runAll (hexec : ExecutesAdding Q ⟨.byHops table, clock, rounds⟩ depth) {W : Plan}
    {m : Machine} {around : Surroundings} {context : Context} {env : Env} {ss : List (Stmt Label)}
    (hm : m.Sound Q W) (hstands : Stands W m.store around.classBody context env)
    (hdefined : context.Defined) (hss : Stmt.ReadyAll Q around context ss) :
    Adds (.here env fun _ => True) (.here env fun _ => True) m
      (runAll (fun s => execute ⟨.byHops table, clock, rounds⟩ depth env s) ss) := by
  induction ss generalizing W m context with
  | nil => exact adds_pure _
  | cons s ss ih =>
    obtain ⟨hs, hss⟩ := hss.cons
    have hfirst : Adds (.here env fun _ => True) (.here env fun _ => True) m
        (execute ⟨.byHops table, clock, rounds⟩ depth env s) :=
      (hexec hm hstands hdefined hs).imp (fun _ _ _ h => ⟨h.2.1, trivial⟩)
        fun _ _ _ h => ⟨h.1, trivial⟩
    refine hfirst.bindSame fun c m₁ hc => ?_
    obtain ⟨W₁, hgrows, hm₁, hsound⟩ := executed_inOrder htable hm hstands hdefined hs hc
    cases c with
    | returned v => exact adds_pure _
    | normal =>
      exact ih hm₁ ((hstands.grow hgrows).introduceAll hdefined
        hs.wellFormed.isName_of_declares hs.declares hsound) (hdefined.introduceAll _) hss

/-- What is done in a scope that has just been made adds nothing to those that were there. -/
theorem adds_runAll_entered (hexec : ExecutesAdding Q ⟨.byHops table, clock, rounds⟩ depth)
    {W : Plan} {m : Machine} {around : Surroundings} {context : Context} {env : Env} {id : ScopeId}
    {ss : List (Stmt Label)} {A B : Places} (hm : m.Sound Q W)
    (hstands : Stands W m.store around.classBody context (id :: env))
    (hdefined : context.Defined) (hss : Stmt.ReadyAll Q around context ss) :
    Adds (fun other name => other = id ∨ A other name) (fun other name => other = id ∨ B other name)
      m (runAll (fun s => execute ⟨.byHops table, clock, rounds⟩ depth (id :: env) s) ss) :=
  (adds_runAll htable hexec hm hstands hdefined hss).imp
    (fun _ _ _ h => .inl (Option.some.inj h.1).symm) fun _ _ _ h => .inl (Option.some.inj h.1).symm

theorem invokesAdding_succ (hexec : ExecutesAdding Q ⟨.byHops table, clock, rounds⟩ depth) :
    InvokesAdding Q ⟨.byHops table, clock, rounds⟩ (depth + 1) := by
  intro W m f arguments hm hf harguments hlength
  obtain ⟨around, kind, context, hf⟩ := hf
  unfold invoke invokeOuter
  simp only [matchArguments_eq hlength, Action.ofAccess, pure_bind]
  refine adds_enter_bind fun env m₁ henter henv => ?_
  obtain ⟨W₁, hgrows, hm₁, hentered⟩ :=
    (runs_enterParameters hm f.env hf.ready.wellFormed harguments hlength).of_ok henter
  obtain ⟨hstands, hdefined⟩ := hf.body hgrows hentered
  subst henv
  have hfits : Stands W₁ m₁.store (⟨kind, around.classBody⟩ : Surroundings).classBody _ _ := hstands
  refine (adds_runAll_entered htable hexec hm₁ hfits hdefined hf.ready.body).bindSame
    fun c m₂ _ => ?_
  unfold resultOf
  split
  · exact adds_getAt _ _ _
  · split <;> exact adds_pure _

/-- A loop adds nothing if its condition and its body add nothing. -/
theorem adds_runWhile {W : Plan} {m : Machine} {around : Surroundings} {context : Context}
    {env : Env} {condition : Expr Label} {body : Stmt Label}
    (heval : EvaluatesAdding Q ⟨.byHops table, clock, rounds⟩ depth)
    (hexec : ExecutesAdding Q ⟨.byHops table, clock, rounds⟩ depth) (hm : m.Sound Q W)
    (hstands : Stands W m.store around.classBody context env) (hdefined : context.Defined)
    (hloop : (Stmt.whileLoop condition body).Ready Q around context) (n : Nat) :
    Adds .none .none m (runWhile
      (return (← evaluate ⟨.byHops table, clock, rounds⟩ depth env condition).isTruthy)
      (execute ⟨.byHops table, clock, rounds⟩ depth env body) n) := by
  obtain ⟨hcondition, hbody, hnone⟩ := hloop.whileLoop
  induction n generalizing W m with
  | zero => exact adds_throw _
  | succ n ih =>
    unfold runWhile
    rw [bind_assoc]
    refine heval.andThen htable hm hstands hdefined hcondition fun v m₁ W₁ hm₁ hstands₁ => ?_
    rw [pure_bind]
    split
    · refine (hexec.none hm₁ hstands₁ hdefined hbody hnone).bindNone fun c m₂ hc => ?_
      obtain ⟨W₂, hgrows₂, hm₂, _⟩ := executed_inOrder htable hm₁ hstands₁ hdefined hbody hc
      cases c with
      | normal => exact ih hm₂ (hstands₁.grow hgrows₂)
      | returned v => exact adds_pure _
    · exact adds_pure _

omit htable in
/-- A variable is added when it gets its value, or already by its initializer, in which its name is
declared and not defined yet. -/
theorem adds_var (heval : EvaluatesAdding Q ⟨.byHops table, clock, rounds⟩ depth) {W : Plan}
    {m : Machine} {around : Surroundings} {context : Context} {env : Env} {name : Token}
    {initial : Option (Expr Label)} (hm : m.Sound Q W)
    (hstands : Stands W m.store around.classBody context env) (hdefined : context.Defined)
    (hs : (Stmt.var name initial).Ready Q around context) :
    Adds (fun id name' => context ≠ [] ∧ Places.declared env (.var name initial) id name')
      (.declared env (.var name initial)) m
      (execute ⟨.byHops table, clock, rounds⟩ (depth + 1) env (.var name initial)) := by
  obtain ⟨id, outer, rfl, _⟩ := hstands.shape.exists_cons
  have hdefine : ∀ (A : Places) (v : Value) (m : Machine),
      Adds A (.declared (id :: outer) (.var name initial)) m
        (define (id :: outer) name.lexeme v) :=
    fun _ _ _ => adds_define (.inr ⟨rfl, List.mem_singleton_self _⟩)
  unfold execute executeOuter
  cases initial with
  | none => exact (hdefine _ .nil m).done _
  | some e =>
    obtain ⟨hname, hinitial⟩ := hs.var
    have hinner := hstands.pending hname fun scope hscope =>
      hs.declares scope hscope name (List.mem_singleton_self name)
    have hpending : ∀ other name', Places.pending (context.mark name.lexeme false) (id :: outer)
        other name' → context ≠ [] ∧
          Places.declared (id :: outer) (.var name (some e)) other name' := by
      rintro other name' ⟨hhere, hother⟩
      obtain ⟨hne, rfl⟩ := Context.eq_of_isPending_mark hdefined hother
      exact ⟨hne, hhere, List.mem_singleton_self _⟩
    exact (heval hm hinner (hinitial e rfl)).bind (fun v m₁ _ => (hdefine _ v m₁).done _) hpending
      fun other name' h => (hpending other name' h).2

theorem executesAdding_succ (heval : EvaluatesAdding Q ⟨.byHops table, clock, rounds⟩ depth)
    (hexec : ExecutesAdding Q ⟨.byHops table, clock, rounds⟩ depth) :
    ExecutesAdding Q ⟨.byHops table, clock, rounds⟩ (depth + 1) := by
  intro W m around context env s hm hstands hdefined hs
  obtain ⟨id, outer, rfl, _⟩ := hstands.shape.exists_cons
  unfold execute executeOuter
  cases s with
  | expression value =>
    exact heval.andThen htable hm hstands hdefined hs.expression fun _ _ _ _ _ => adds_pure _
  | print value =>
    refine heval.andThen htable hm hstands hdefined hs.print fun v m₁ _ _ _ => ?_
    exact (adds_of_store_eq rfl : Adds _ _ m₁ (Action.print v)).done _
  | var name initial => exact adds_var heval hm hstands hdefined hs
  | block body =>
    -- what the block declares goes to its own scope, which was not there
    refine adds_enter_bind fun inner m₁ henter hinner => ?_
    obtain ⟨W₁, hgrows, hm₁, hentered⟩ := (runs_enterEmpty hm _ _).of_ok henter
    obtain ⟨hstands, hdefined⟩ := hstands.block hdefined hs.block hgrows hentered
    subst hinner
    exact adds_runAll_entered htable hexec hm₁ hstands hdefined hs.block
  | ifThen condition body =>
    obtain ⟨hcondition, hbody, _⟩ := hs.ifThen
    refine heval.andThen htable hm hstands hdefined hcondition fun _ m₁ W₁ hm₁ hstands₁ => ?_
    split
    · exact hexec hm₁ hstands₁ hdefined hbody
    · exact adds_pure _
  | ifElse condition body other =>
    obtain ⟨hcondition, ⟨hbody, hnone⟩, hother, hnone'⟩ := hs.ifElse
    refine heval.andThen htable hm hstands hdefined hcondition fun _ m₁ W₁ hm₁ hstands₁ => ?_
    split
    · exact (hexec.none hm₁ hstands₁ hdefined hbody hnone).ofNone
    · exact (hexec.none hm₁ hstands₁ hdefined hother hnone').ofNone
  | whileLoop condition body =>
    exact (adds_runWhile htable heval hexec hm hstands hdefined hs rounds).ofNone
  | function declaration =>
    refine (adds_freshId : Adds .none .none m _).bindNone fun n m₁ _ => ?_
    exact (adds_define (.inr ⟨rfl, List.mem_singleton_self _⟩) : Adds _ _ m₁ _).done _
  | returnFrom keyword value =>
    cases value with
    | none => exact adds_pure _
    | some e =>
      exact heval.andThen htable hm hstands hdefined (hs.returnFrom e rfl)
        fun _ _ _ _ _ => adds_pure _
  | classOf name superclass methods =>
    -- a class statement makes the variable of the class last, and scopes of its own before
    have hmake : ∀ (A : Places) (parent : Option ClassValue) (m : Machine),
        Adds A (.declared (id :: outer) (.classOf name superclass methods)) m
          (makeClass (id :: outer) name parent methods) :=
      fun A parent m => (adds_makeClass name parent methods).imp (fun _ _ _ => False.elim)
        fun _ _ _ h => ⟨h.1, by rw [h.2]; exact List.mem_singleton_self _⟩
    cases superclass with
    | none => exact (hmake _ none m).done _
    | some parent =>
      refine (adds_nameRef (id :: outer) parent : Adds .none .none m _).bindNone fun v m₁ _ => ?_
      split
      · exact (hmake _ _ m₁).done _
      · exact adds_throw _
  | unknown form => exact adds_throw _

/-- **No part of a program adds names but those it declares.**  Whatever nesting is allowed, an
expression adds none but a name that is declared around it and not defined yet, a call adds none,
and a statement adds the name that it declares, if it does, to the scope where it stands; all this
also if it ends in an error or is cut off. -/
theorem adding (depth : Nat) :
    EvaluatesAdding Q ⟨.byHops table, clock, rounds⟩ depth ∧
      CallsAdding Q ⟨.byHops table, clock, rounds⟩ depth ∧
      InvokesAdding Q ⟨.byHops table, clock, rounds⟩ depth ∧
      ExecutesAdding Q ⟨.byHops table, clock, rounds⟩ depth := by
  induction depth with
  | zero =>
    refine ⟨?_, ?_, ?_, ?_⟩
    · intro W m around context env e _ _ _
      unfold evaluate
      exact adds_throw _
    · intro W m callee arguments _ _ _ _
      unfold call
      exact adds_throw _
    · intro W m f arguments _ _ _ _
      unfold invoke
      exact adds_throw _
    · intro W m around context env s _ _ _ _
      unfold execute
      exact adds_throw _
  | succ depth ih =>
    obtain ⟨heval, hcall, hinvoke, hexec⟩ := ih
    exact ⟨evaluatesAdding_succ htable heval hcall, callsAdding_succ htable hinvoke,
      invokesAdding_succ htable hexec, executesAdding_succ htable heval hexec⟩

end

/-! ## Names that are there in the end -/

theorem contains_of_define {m m' : Machine} {id : ScopeId} {outer : Env} {name : String}
    {value : Value} (hid : id < m.store.nextId)
    (h : define (id :: outer) name value m = .ok () m') : (m'.store.scope id).contains name := by
  cases h
  simp [Store.define, Store.scope_set, hid, Bindings.contains_insert]

theorem contains_of_makeClass {m m' : Machine} {id : ScopeId} {outer : Env} {name : Token}
    {parent : Option ClassValue} {methods : List (Function Label)} (hid : id < m.store.nextId)
    (h : makeClass (id :: outer) name parent methods m = .ok () m') :
    (m'.store.scope id).contains name.lexeme := by
  have hrest : ∀ {m₁ : Machine} {methodEnv : Env} {above : List ClassLevel},
      id < m₁.store.nextId → (do
        let methods ← makeMethods methodEnv methods
        let own : ClassLevel := ⟨← Action.freshId, name.lexeme, methods⟩
        Action.define (id :: outer) name.lexeme (.classOf ⟨own, above⟩) : Action Unit) m₁ =
          .ok () m' → (m'.store.scope id).contains name.lexeme := by
    intro m₁ methodEnv above hid hran
    obtain ⟨ms, m₂, hms, hran⟩ := EStateM.bind_eq_ok.mp hran
    have hle := ((adds_makeMethods methodEnv methods : Adds .none .none m₁ _).of_ok hms).le
    obtain ⟨n, m₃, hn, hran⟩ := EStateM.bind_eq_ok.mp hran
    have hle' := ((adds_freshId : Adds .none .none m₂ _).of_ok hn).le
    exact contains_of_define (Nat.lt_of_lt_of_le (Nat.lt_of_lt_of_le hid hle) hle') hran
  unfold makeClass at h
  cases parent with
  | none => exact hrest hid h
  | some c =>
    obtain ⟨methodEnv, m₁, henter, h⟩ := EStateM.bind_eq_ok.mp h
    cases henter
    exact hrest (Nat.lt_of_lt_of_le hid (Store.NamesGrow.push .none m.store _).le) h

section
variable {Q : Demand Label} {table : BindingTable} {clock : Nat → Float} {rounds depth : Nat}
  (htable : ∀ u, Q u → table.hops? u.ref.label = u.hops?)

theorem Stands.head_lt {W : Plan} {m : Machine} {around : Surroundings} {context : Context}
    {id : ScopeId} {outer : Env} (hm : m.Sound Q W)
    (h : Stands W m.store around.classBody context (id :: outer)) : id < m.store.nextId := by
  obtain ⟨id', outer', henv, hplan⟩ := h.shape.exists_cons
  cases henv
  by_cases hid : id = 0
  · exact hid ▸ hm.pos
  · obtain ⟨scope, _, hscope⟩ := hplan hid
    exact hm.lt_of_planned hscope

include htable in
/-- When a statement has completed, the name that it declares is there. -/
theorem contains_of_executed {W : Plan} {m m' : Machine} {around : Surroundings}
    {context : Context} {env : Env} {s : Stmt Label} {c : Completion} (hm : m.Sound Q W)
    (hstands : Stands W m.store around.classBody context env) (hs : s.Ready Q around context)
    (hc : execute ⟨.byHops table, clock, rounds⟩ depth env s m = .ok c m') :
    ∀ id name, Places.declared env s id name → (m'.store.scope id).contains name := by
  rintro id name ⟨hhere, hname⟩
  obtain ⟨id', outer, rfl, _⟩ := hstands.shape.exists_cons
  obtain rfl : id' = id := Option.some.inj hhere
  have hid := hstands.head_lt hm
  obtain ⟨t, ht, rfl⟩ := List.mem_map.mp hname
  -- only a statement that declares has something to show, and it ends with a definition
  cases depth with
  | zero =>
    unfold execute at hc
    cases hc
  | succ depth =>
    unfold execute executeOuter at hc
    cases s with
    | var name initial =>
      obtain rfl : t = name := List.mem_singleton.mp ht
      cases initial with
      | none =>
        obtain ⟨_, m₁, hdefine, hc⟩ := EStateM.bind_eq_ok.mp hc
        cases hc
        exact contains_of_define hid hdefine
      | some e =>
        obtain ⟨v, m₁, hv, hc⟩ := EStateM.bind_eq_ok.mp hc
        obtain ⟨_, m₂, hdefine, hc⟩ := EStateM.bind_eq_ok.mp hc
        cases hc
        obtain ⟨hname, hinitial⟩ := hs.var
        have hinner := hstands.pending hname fun scope hscope =>
          hs.declares scope hscope t (List.mem_singleton_self t)
        obtain ⟨W₁, hgrows, hm₁, _⟩ :=
          evaluated_inOrder htable hm hinner (hinitial e rfl) hv
        exact contains_of_define ((hstands.grow hgrows).head_lt hm₁) hdefine
    | function declaration =>
      obtain rfl : t = declaration.name := List.mem_singleton.mp ht
      obtain ⟨n, m₁, hn, hc⟩ := EStateM.bind_eq_ok.mp hc
      have hle := ((adds_freshId : Adds .none .none m _).of_ok hn).le
      obtain ⟨_, m₂, hdefine, hc⟩ := EStateM.bind_eq_ok.mp hc
      cases hc
      exact contains_of_define (Nat.lt_of_lt_of_le hid hle) hdefine
    | classOf name superclass methods =>
      obtain rfl : t = name := List.mem_singleton.mp ht
      cases superclass with
      | none =>
        obtain ⟨_, m₁, hmake, hc⟩ := EStateM.bind_eq_ok.mp hc
        cases hc
        exact contains_of_makeClass hid hmake
      | some parent =>
        obtain ⟨v, m₁, hv, hc⟩ := EStateM.bind_eq_ok.mp hc
        have hle := ((adds_nameRef (id' :: outer) parent : Adds .none .none m _).of_ok hv).le
        cases v with
        | classOf c =>
          obtain ⟨_, m₂, hmake, hc⟩ := EStateM.bind_eq_ok.mp hc
          cases hc
          exact contains_of_makeClass (Nat.lt_of_lt_of_le hid hle) hmake
        | _ => cases hc
    | ifThen condition body =>
      rw [Stmt.declares, hs.ifThen.2.2] at ht
      cases ht
    | ifElse condition body other =>
      obtain ⟨_, ⟨_, hnone⟩, _, hnone'⟩ := hs.ifElse
      rw [Stmt.declares, hnone, hnone'] at ht
      cases ht
    | whileLoop condition body =>
      rw [Stmt.declares, hs.whileLoop.2.2] at ht
      cases ht
    | _ => cases ht

/-! ## Names of global variables -/

include htable in
/-- A program that has been executed to its end has made the global variables that it declares, and
no others. -/
theorem contains_globals_of_ran {W : Plan} {m m' : Machine} {program : List (Stmt Label)}
    (hm : m.Sound Q W) (hprogram : Stmt.ReadyAll Q ⟨.outside, .outside⟩ [] program)
    (hran : runProgram ⟨.byHops table, clock, rounds⟩ depth program m = .ok () m') (name : String) :
    m'.globals.contains name ↔
      m.globals.contains name ∨ name ∈ (Stmt.declaresAll program).map Token.lexeme := by
  induction program generalizing W m with
  | nil =>
    cases hran
    simp [Stmt.declaresAll]
  | cons s ss ih =>
    obtain ⟨hs, hss⟩ := hprogram.cons
    rw [Context.introduceAll_nil] at hss
    obtain ⟨_, m₁, hfirst, hrest⟩ := EStateM.bind_eq_ok.mp hran
    obtain ⟨c, m₁', hc, hfirst⟩ := EStateM.bind_eq_ok.mp hfirst
    cases hfirst
    have hstands : Stands W m.store (⟨.outside, .outside⟩ : Surroundings).classBody [] globalEnv :=
      .globals W m.store
    obtain ⟨W₁, _, hm₁, _⟩ := executed_inOrder htable hm hstands (List.forall_mem_nil _) hs hc
    have hnames := ((adding htable depth).2.2.2 hm hstands (List.forall_mem_nil _) hs).of_ok hc
    have hdeclared := contains_of_executed htable hm hstands hs hc 0 name
    rw [ih hm₁ hss hrest, Stmt.declaresAll, Stmt.declaresAll, List.flatMap_cons, List.map_append,
      List.mem_append, ← or_assoc]
    refine or_congr_left ⟨fun h => ?_, fun h => ?_⟩
    · exact (hnames.added 0 hm.pos name h).imp_right fun h => h.2
    · exact h.elim (hnames.kept 0 name) fun h => hdeclared ⟨rfl, h⟩

include htable in
/-- A statement outside all local scopes that does not complete makes no global variable. -/
theorem contains_globals_of_halted {W : Plan} {m m' : Machine} {s : Stmt Label} {h : Halt}
    (hm : m.Sound Q W) (hs : s.Ready Q ⟨.outside, .outside⟩ [])
    (hran : execute ⟨.byHops table, clock, rounds⟩ depth globalEnv s m = .error h m')
    (name : String) : m'.globals.contains name ↔ m.globals.contains name := by
  have hnames := ((adding htable depth).2.2.2 hm (.globals W m.store) (List.forall_mem_nil _)
    hs).of_error hran
  refine ⟨fun h => ?_, hnames.kept 0 name⟩
  exact (hnames.added 0 hm.pos name h).resolve_right fun h => h.1 rfl

end

end LoxLang
