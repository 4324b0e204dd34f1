import LoxLang.Proofs.Machine.Orderly

/-! # Environments that reflect scopes

The evaluator goes down a program on the same ways as the binding pass: what it evaluates or executes
is at a spot of the program (`BeginsAt`).  Its environment then reflects the scopes that are open at
the spot (`Begins.reflects`).  It leads to the globals through one scope for each of them; no scope
has a name that its counterpart does not declare anywhere, and each has the names that are defined in
its counterpart.  Only where the name of a superclass is evaluated one name may be missing: the pass
has defined that of the class already, while the evaluator makes its variable when there is a class. -/

namespace LoxLang

open Binder (Surroundings FunctionContext ClassContext)
open Machine

/-- An environment reflects open scopes, up to names of the innermost one that are missing. -/
structure Reflects (store : Store Value) (missing : String → Prop) (context : Context) (env : Env) :
    Prop where
  chain : ∃ ids, env = ids ++ globalEnv ∧ ids.length = context.length ∧ 0 ∉ ids
  among : ∀ (i : Nat) (scope : OpenScope) (id : ScopeId), context[i]? = some scope →
    env[i]? = some id → ∀ name, (store.scope id).contains name → name ∈ scope.whole
  defined : ∀ (i : Nat) (scope : OpenScope) (id : ScopeId), context[i]? = some scope →
    env[i]? = some id → ∀ name, scope.declared.get? name = some true →
      (store.scope id).contains name ∨ i = 0 ∧ missing name

theorem Shape.chain {W : Plan} {context : Context} {env : Env} (h : Shape W context env) :
    ∃ ids, env = ids ++ globalEnv ∧ ids.length = context.length ∧ 0 ∉ ids := by
  induction h with
  | globals => exact ⟨[], rfl, rfl, List.not_mem_nil⟩
  | @scope _ _ id _ hne _ _ ih =>
    obtain ⟨ids, rfl, hlength, hids⟩ := ih
    exact ⟨id :: ids, rfl, congrArg (· + 1) hlength,
      fun h => (List.mem_cons.mp h).elim (fun h => hne h.symm) hids⟩

/-- A name that is defined before its variable is made is missing. -/
theorem Reflects.introduce {store : Store Value} {missing : String → Prop} {context : Context}
    {env : Env} (h : Reflects store missing context env) {name : Token}
    (hmissing : missing name.lexeme) : Reflects store missing (context.introduce name) env := by
  cases context with
  | nil => exact h
  | cons first outer =>
    refine ⟨h.chain, fun i scope id hscope hid => ?_, fun i scope id hscope hid => ?_⟩
    · cases i with
      | zero =>
        obtain rfl := Option.some.inj hscope
        exact h.among 0 first id rfl hid
      | succ i => exact h.among (i + 1) scope id hscope hid
    · cases i with
      | zero =>
        obtain rfl := Option.some.inj hscope
        intro other hother
        simp only [OpenScope.mark, Bindings.get?_insert] at hother
        split at hother
        · rename_i heq
          exact .inr ⟨rfl, heq ▸ hmissing⟩
        · exact h.defined 0 first id rfl hid other hother
      | succ i => exact h.defined (i + 1) scope id hscope hid

variable {Q : Demand Label} {W : Plan} {m m' : Machine}

/-- An environment that fits open scopes reflects them. -/
theorem Stands.reflects {classBody : ClassContext} {context : Context} {env : Env}
    (h : Stands W m.store classBody context env) (hm : m.Sound Q W) (missing : String → Prop) :
    Reflects m.store missing context env where
  chain := h.shape.chain
  among i scope id hscope hid name hname := by
    obtain ⟨id', hid', hne, hplan⟩ := h.shape.getElem? hscope
    obtain rfl : id' = id := Option.some.inj (hid'.symm.trans hid)
    obtain ⟨names, hnames, hmem⟩ := hm.planned id' hne name hname
    obtain rfl : names = scope.whole := Option.some.inj (hnames.symm.trans hplan)
    exact hmem
  defined i scope id hscope hid name hname := .inl (h.present i scope id hscope hid name hname)

/-! ## Tasks at their spots -/

/-- The task of evaluating or executing code in an environment. -/
def Code.task (depth : Nat) (env : Env) : Code Label → Task
  | .expression e => .evaluate depth env e
  | .statement s => .execute depth env s

/-- The spot is that of the name of a superclass, in the class statement of that name at another. -/
def Spot.NamesSuperclass (q p : Spot Label) (name : String) : Prop :=
  ∃ cls parent methods, p.code = .statement (.classOf cls (some parent) methods) ∧
    cls.lexeme = name ∧ q = ⟨.expression (.nameRef parent), p.around, p.context.introduce cls⟩

/-- While a program runs, the code of a spot is begun there in an environment and on a machine.  The
statements of the program are at spots of it, those of a function that is called are at spots of the
function, and from each spot it goes on to the next ones. -/
inductive BeginsAt (S : Setting) (depth : Nat) (program : List (Stmt Label)) (start : Machine) :
    Nat → Env → Machine → Spot Label → Prop
  | statement {earlier later : List (Stmt Label)} {s : Stmt Label} {m : Machine}
      (hprogram : program = earlier ++ s :: later)
      (hran : runProgram S depth earlier start = .ok () m) :
      BeginsAt S depth program start depth globalEnv m ⟨.statement s, ⟨.outside, .outside⟩, []⟩
  | body {d d' : Nat} {env : Env} {f : Closure} {values : List Value} {m m' : Machine}
      {around : Surroundings} {kind : FunctionContext} {context : Context} {p : Spot Label}
      (hcalled : Begins S depth program start (.invoke d f values) m)
      (hstarts : Starts S (.invoke d f values, m) (p.code.task d' env, m'))
      (hspot : p ∈ f.declaration.spots around kind context) :
      BeginsAt S depth program start d' env m' p
  | next {d d' : Nat} {env env' : Env} {m m' : Machine} {p q : Spot Label}
      (hbegins : BeginsAt S depth program start d env m p)
      (hstarts : Starts S (p.code.task d env, m) (q.code.task d' env', m')) (hspot : q ∈ p.next) :
      BeginsAt S depth program start d' env' m' q

/-- A task is one of evaluating or executing code, or it is a call. -/
theorem Task.cases_code (t : Task) :
    (∃ code depth env, t = Code.task depth env code) ∨
      (∃ depth callee values, t = .call depth callee values) ∨
      ∃ depth f values, t = .invoke depth f values := by
  cases t with
  | evaluate depth env e => exact .inl ⟨.expression e, depth, env, rfl⟩
  | execute depth env s => exact .inl ⟨.statement s, depth, env, rfl⟩
  | call depth callee values => exact .inr (.inl ⟨depth, callee, values, rfl⟩)
  | invoke depth f values => exact .inr (.inr ⟨depth, f, values, rfl⟩)

section
variable {code : Code Label} {d : Nat} {env : Env} {p : Spot Label}

theorem Task.StandsAt.code_eq (h : (code.task d env).StandsAt Q W m p) : p.code = code := by
  cases code with
  | expression e => exact h.1
  | statement s => exact h.1

theorem Task.StandsAt.spot (h : (code.task d env).StandsAt Q W m p) : Q.spot p := by
  obtain ⟨code', around, context⟩ := p
  cases code with
  | expression e => obtain ⟨rfl, _, he⟩ := h; exact he.covers.here
  | statement s => obtain ⟨rfl, _, _, hs⟩ := h; exact hs.covers.here

theorem Task.StandsAt.stands (h : (code.task d env).StandsAt Q W m p) :
    Stands W m.store p.around.classBody p.context env := by
  cases code with
  | expression e => exact h.2.1
  | statement s => exact h.2.1

end

section
variable {table : BindingTable} {clock : Nat → Float} {rounds : Nat}
  (htable : ∀ u, Q u → table.hops? u.ref.label = u.hops?)
include htable

/-- From code at a spot a task goes on to code at a spot next to it, or to the name of the superclass of
the class that is made. -/
theorem Starts.code {code code' : Code Label} {d d' : Nat} {env env' : Env} {p : Spot Label}
    (h : Starts ⟨.byHops table, clock, rounds⟩ (code.task d env, m) (code'.task d' env', m'))
    (hm : m.Sound Q W) (hp : (code.task d env).StandsAt Q W m p) :
    ∃ W', m'.Sound Q W' ∧ ((∃ q ∈ p.next, (code'.task d' env').StandsAt Q W' m' q) ∨
      ∃ cls parent methods, code = .statement (.classOf cls (some parent) methods) ∧
        code' = .expression (.nameRef parent) ∧ d = d' + 1 ∧ env = env' ∧ m = m') := by
  obtain ⟨W', _, hm', hnext | ⟨_, _, _, hcall, _⟩ | ⟨_, _, cls, parent, methods, htask, hparent,
    rfl⟩⟩ := h.next htable hm hp
  · exact ⟨W', hm', .inl hnext⟩
  · cases code' <;> cases hcall
  · cases code <;> cases htask
    cases code' <;> cases hparent
    exact ⟨W', hm', .inr ⟨cls, parent, methods, rfl, rfl, rfl, rfl, rfl⟩⟩

/-- Code that is begun in a run is ready at a spot, in an environment that fits, or it is the name of
the superclass in a class statement of which this is true. -/
theorem Begins.standsAt {depth : Nat} {program : List (Stmt Label)} {code : Code Label} {d : Nat}
    {env : Env}
    (h : Begins ⟨.byHops table, clock, rounds⟩ depth program m (code.task d env) m')
    (hm : m.Sound Q W) (hprogram : Stmt.ReadyAll Q ⟨.outside, .outside⟩ [] program) :
    ∃ W' p, m'.Sound Q W' ∧
      (BeginsAt ⟨.byHops table, clock, rounds⟩ depth program m d env m' p ∧
          (code.task d env).StandsAt Q W' m' p ∨
        BeginsAt ⟨.byHops table, clock, rounds⟩ depth program m (d + 1) env m' p ∧
          ∃ cls parent methods, code = .expression (.nameRef parent) ∧
            (Task.execute (d + 1) env (.classOf cls (some parent) methods)).StandsAt Q W' m' p) := by
  obtain ⟨earlier, s, later, m₁, hsplit, hran, hstarts⟩ := h
  generalize hlast : (code.task d env, m') = last at hstarts
  induction hstarts generalizing code d env m' with
  | refl =>
    have hready := hprogram
    rw [hsplit] at hready
    obtain ⟨hearlier, hrest⟩ := hready.append
    obtain ⟨W', _, hm'⟩ := ran_inOrder htable hm hearlier hran
    cases code with
    | expression e => cases hlast
    | statement s =>
      cases hlast
      exact ⟨W', _, hm', .inl ⟨.statement hsplit hran, rfl, .globals W' _, List.forall_mem_nil _,
        hrest.cons.1⟩⟩
  | @tail mid last hbefore hstart ih =>
    subst hlast
    obtain ⟨t, n⟩ := mid
    rcases t.cases_code with ⟨code', d', env', rfl⟩ | ⟨_, _, _, rfl⟩ | ⟨_, f, _, rfl⟩
    · obtain ⟨W₁, p, hn, ⟨hat, hp⟩ | ⟨_, _, _, _, rfl, _⟩⟩ := ih rfl
      · obtain ⟨W', hm', ⟨q, hq, ht⟩ | ⟨cls, parent, methods, rfl, rfl, rfl, rfl, rfl⟩⟩ :=
          hstart.code htable hn hp
        · obtain rfl := hp.code_eq
          obtain rfl := ht.code_eq
          exact ⟨W', q, hm', .inl ⟨.next hat hstart hq, ht⟩⟩
        · exact ⟨W₁, p, hn, .inr ⟨hat, cls, parent, methods, rfl, hp⟩⟩
      -- nothing is begun from a name
      · cases code with
        | expression e => cases hstart with
          | operand hparts => simp [Expr.operands] at hparts
        | statement s => cases hstart
    · cases code <;> cases hstart
    · have hcalled : Begins ⟨.byHops table, clock, rounds⟩ depth program m (.invoke _ f _) n :=
        ⟨earlier, s, later, m₁, hsplit, hran, hbefore⟩
      obtain ⟨W₁, _, hn, ht⟩ := hcalled.inOrder htable hm hprogram
      obtain ⟨W', _, hm', around, kind, context, q, hq, hstands⟩ := hstart.inside htable hn ht
      obtain rfl := hstands.code_eq
      exact ⟨W', q, hm', .inl ⟨.body hcalled hstart hq, hstands⟩⟩

/-- **The code that is begun in a run is at a spot**, and its environment reflects the scopes that
are open there. -/
theorem Begins.reflects {depth : Nat} {program : List (Stmt Label)} {code : Code Label} {d : Nat}
    {env : Env}
    (h : Begins ⟨.byHops table, clock, rounds⟩ depth program m (code.task d env) m')
    (hm : m.Sound Q W) (hprogram : Stmt.ReadyAll Q ⟨.outside, .outside⟩ [] program) :
    ∃ q : Spot Label, q.code = code ∧ Q.spot q ∧
      BeginsAt ⟨.byHops table, clock, rounds⟩ depth program m d env m' q ∧
      Reflects m'.store (fun name => ∃ p,
        BeginsAt ⟨.byHops table, clock, rounds⟩ depth program m (d + 1) env m' p ∧
          q.NamesSuperclass p name) q.context env := by
  obtain ⟨W', p, hm', ⟨hat, hp⟩ | ⟨hat, cls, parent, methods, rfl, hp⟩⟩ :=
    h.standsAt htable hm hprogram
  · exact ⟨p, hp.code_eq, hp.spot, hat, hp.stands.reflects hm' _⟩
  · obtain ⟨code, around, context⟩ := p
    obtain ⟨rfl, hstands, _, hs⟩ := hp
    have hq : ⟨.expression (.nameRef parent), around, context.introduce cls⟩ ∈
        Spot.next ⟨.statement (.classOf cls (some parent) methods), around, context⟩ :=
      List.mem_cons_self
    exact ⟨_, rfl, hs.superclass.covers.here, .next hat (.first rfl) hq,
      (hstands.reflects hm' _).introduce ⟨_, hat, cls, parent, methods, rfl, rfl, rfl⟩⟩

end

end LoxLang
