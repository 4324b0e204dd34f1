import LoxLang.Proofs.Machine.Lockstep
import LoxLang.Proofs.Machine.Moments

/-! # Tasks in order

A task is in order on a machine if its code is ready to run in its environment and the values it was
given are in order.  The tasks that it begins are then in order on the machines on which it begins
them (`Starts.inOrder`), and so are all tasks of a run (`Begins.inOrder`). -/

namespace LoxLang

open Binder (Surroundings FunctionContext ClassContext)
open Machine

variable {α β : Type} {Q : Demand Label} {W : Plan} {m m' : Machine}

/-- What is known of the result of an action that has one. -/
theorem Runs.of_ok {x y : Action α} {P : Plan → Store Value → α → Prop} (h : Runs Q W m x y P)
    {a : α} (hx : x m = .ok a m') :
    ∃ W', Grows W m.store W' m'.store ∧ m'.Sound Q W' ∧ P W' m'.store a := by
  have hends := h.2
  rw [hx] at hends
  exact hends

/-- A task is in order on a machine.  Where the name of a superclass is read, its environment does
not fit the scopes around it yet. -/
def Task.InOrder (Q : Demand Label) (W : Plan) (m : Machine) : Task → Prop
  | .evaluate _ env e =>
    (∃ around context, Stands W m.store around.classBody context env ∧
      e.Ready Q around context) ∨ ∃ ref, e = .nameRef ref
  | .call _ callee values =>
    callee.Sound Q W m.store ∧ (∀ v ∈ values, v.Sound Q W m.store) ∧ values.length = callee.arity
  | .invoke _ f values =>
    f.Callable Q W m.store ∧ (∀ v ∈ values, v.Sound Q W m.store) ∧ values.length = f.arity
  | .execute _ env s =>
    ∃ around context, Stands W m.store around.classBody context env ∧ context.Defined ∧
      s.Ready Q around context

/-- The code of a task is ready to run at a spot, and its environment fits the scopes there. -/
def Task.StandsAt (Q : Demand Label) (W : Plan) (m : Machine) (p : Spot Label) : Task → Prop
  | .evaluate _ env e =>
    p.code = .expression e ∧ Stands W m.store p.around.classBody p.context env ∧
      e.Ready Q p.around p.context
  | .execute _ env s =>
    p.code = .statement s ∧ Stands W m.store p.around.classBody p.context env ∧
      p.context.Defined ∧ s.Ready Q p.around p.context
  | .call _ _ _ | .invoke _ _ _ => False

theorem Task.StandsAt.inOrder {t : Task} {p : Spot Label} (h : t.StandsAt Q W m p) :
    t.InOrder Q W m := by
  cases t with
  | evaluate => exact .inl ⟨p.around, p.context, h.2⟩
  | execute => exact ⟨p.around, p.context, h.2⟩
  | call | invoke => exact h.elim

/-! ## Parts of code that is ready -/

section
variable {around : Surroundings} {context : Context}

/-- What is evaluated in an expression is bound in it, if in another order. -/
theorem Expr.mem_parts_of_mem_operands {e part : Expr Label} (hpart : part ∈ e.operands) :
    part ∈ e.parts := by
  cases e with
  | set object name value => simpa [parts, operands, or_comm] using hpart
  | _ => exact hpart

theorem Expr.Ready.operand {e : Expr Label} (he : e.Ready Q around context) :
    ∀ part ∈ e.operands, part.Ready Q around context := by
  cases e with
  | assign ref value => exact List.forall_mem_singleton.mpr he.assign.2.1
  | unary op operand => exact List.forall_mem_singleton.mpr he.unary
  | binary left op right => simpa [Expr.operands] using he.binary
  | logical left op right => simpa [Expr.operands] using he.logical
  | group inner => exact List.forall_mem_singleton.mpr he.group
  | call callee paren arguments => exact List.forall_mem_cons.mpr he.call
  | get object name => exact List.forall_mem_singleton.mpr he.get
  | set object name value => simpa [Expr.operands] using he.set
  | _ => exact List.forall_mem_nil _

/-- The branches of an `if` are ready where it stands, and at spots next to it. -/
theorem Stmt.Ready.branch {s taken : Stmt Label} (hs : s.Ready Q around context) {truth : Bool}
    (hbranch : s.branch? truth = some taken) :
    ⟨.statement taken, around, context⟩ ∈ s.spots around context ∧
      taken.Ready Q around context := by
  cases s with
  | ifThen condition body =>
    cases truth <;> cases hbranch
    exact ⟨by simp [spots], hs.ifThen.2.1⟩
  | ifElse condition body other =>
    obtain ⟨_, ⟨hbody, hnone⟩, hother, _⟩ := hs.ifElse
    cases truth <;> cases hbranch
    · exact ⟨by simp [spots, hnone, Context.introduceAll], hother⟩
    · exact ⟨by simp [spots], hbody⟩
  | _ => cases hbranch

/-- The parts of a program are ready if the program is. -/
theorem Stmt.ReadyAll.append {program more : List (Stmt Label)}
    (h : Stmt.ReadyAll Q ⟨.outside, .outside⟩ [] (program ++ more)) :
    Stmt.ReadyAll Q ⟨.outside, .outside⟩ [] program ∧
      Stmt.ReadyAll Q ⟨.outside, .outside⟩ [] more := by
  obtain ⟨hwf, hmore⟩ := List.forall_mem_append.mp h.wellFormed
  have hgood : ∀ f ∈ visitProgram (program ++ more), f.Good Q := h.good
  rw [visitProgram_append, List.forall_mem_append] at hgood
  have hcovers := h.covers
  rw [Stmt.spotsAll_append, Context.introduceAll_nil, List.forall_mem_append] at hcovers
  exact ⟨⟨hwf, hgood.1, nofun, hcovers.1⟩, ⟨hmore, hgood.2, nofun, hcovers.2⟩⟩

/-- The first expression of a statement is ready in an environment in which the statement is, unless it
is the name of a superclass. -/
theorem Stmt.Ready.first {s : Stmt Label} {e : Expr Label} {env : Env}
    (hs : s.Ready Q around context) (hstands : Stands W m.store around.classBody context env)
    (hfirst : s.first? = some e) :
    (∃ p ∈ s.spots around context, ∀ depth, (Task.evaluate depth env e).StandsAt Q W m p) ∨
      ∃ cls parent methods, s = .classOf cls (some parent) methods ∧ e = .nameRef parent := by
  cases s with
  | expression value =>
    cases hfirst
    exact .inl ⟨_, List.mem_cons_self, fun _ => ⟨rfl, hstands, hs.expression⟩⟩
  | print value =>
    cases hfirst
    exact .inl ⟨_, List.mem_cons_self, fun _ => ⟨rfl, hstands, hs.print⟩⟩
  | var name initial =>
    cases initial with
    | none => cases hfirst
    | some initial =>
      cases hfirst
      obtain ⟨hname, hinitial⟩ := hs.var
      have hpending := hstands.pending hname fun scope hscope =>
        hs.declares scope hscope name (List.mem_singleton_self name)
      exact .inl ⟨_, List.mem_cons_self, fun _ => ⟨rfl, hpending, hinitial _ rfl⟩⟩
  | ifThen condition body =>
    cases hfirst
    exact .inl ⟨_, List.mem_cons_self, fun _ => ⟨rfl, hstands, hs.ifThen.1⟩⟩
  | ifElse condition body other =>
    cases hfirst
    exact .inl ⟨_, List.mem_cons_self, fun _ => ⟨rfl, hstands, hs.ifElse.1⟩⟩
  | returnFrom keyword value =>
    cases value with
    | none => cases hfirst
    | some value =>
      cases hfirst
      exact .inl ⟨_, List.mem_cons_self, fun _ => ⟨rfl, hstands, hs.returnFrom _ rfl⟩⟩
  | classOf name superclass methods =>
    cases superclass with
    | none => cases hfirst
    | some parent => cases hfirst; exact .inr ⟨name, parent, methods, rfl, rfl⟩
  | _ => cases hfirst

/-- The condition of an `if` is ready where it stands. -/
theorem Stmt.Ready.condition {s taken : Stmt Label} {e : Expr Label} {truth : Bool}
    (hs : s.Ready Q around context) (hbranch : s.branch? truth = some taken)
    (hfirst : s.first? = some e) : e.Ready Q around context := by
  cases s with
  | ifThen condition body => cases hfirst; exact hs.ifThen.1
  | ifElse condition body other => cases hfirst; exact hs.ifElse.1
  | _ => cases hbranch

end

section
variable {table : BindingTable} {clock : Nat → Float} {rounds : Nat}
  (htable : ∀ u, Q u → table.hops? u.ref.label = u.hops?)
include htable

/-! ## What has been done before -/

theorem evaluated_inOrder {around : Surroundings} {context : Context} {env : Env} {depth : Nat}
    {e : Expr Label} {v : Value} (hm : m.Sound Q W)
    (hstands : Stands W m.store around.classBody context env) (he : e.Ready Q around context)
    (hv : evaluate ⟨.byHops table, clock, rounds⟩ depth env e m = .ok v m') :
    ∃ W', Grows W m.store W' m'.store ∧ m'.Sound Q W' ∧ v.Sound Q W' m'.store :=
  ((inStep (Access.agrees_byHops htable htable) depth).1 hm hstands he).of_ok hv

theorem executed_inOrder {around : Surroundings} {context : Context} {env : Env} {depth : Nat}
    {s : Stmt Label} {c : Completion} (hm : m.Sound Q W)
    (hstands : Stands W m.store around.classBody context env) (hdefined : context.Defined)
    (hs : s.Ready Q around context)
    (hc : execute ⟨.byHops table, clock, rounds⟩ depth env s m = .ok c m') :
    ∃ W', Grows W m.store W' m'.store ∧ m'.Sound Q W' ∧
      c.Sound Q W' m'.store (context.introduceAll s.declares) env :=
  ((inStep (Access.agrees_byHops htable htable) depth).2.2.2 hm hstands hdefined hs).of_ok hc

theorem operands_inOrder {around : Surroundings} {context : Context} {env : Env} {depth : Nat}
    {es : List (Expr Label)} {vs : List Value} (hm : m.Sound Q W)
    (hstands : Stands W m.store around.classBody context env)
    (hes : ∀ e ∈ es, e.Ready Q around context)
    (hvs : es.mapM (evaluate ⟨.byHops table, clock, rounds⟩ depth env) m = .ok vs m') :
    ∃ W', Grows W m.store W' m'.store ∧ m'.Sound Q W' ∧ vs.length = es.length ∧
      ∀ v ∈ vs, v.Sound Q W' m'.store := by
  have heval : EvaluatesInStep Q ⟨.byHops table, clock, rounds⟩ ⟨.byHops table, clock, rounds⟩
      depth := (inStep (Access.agrees_byHops htable htable) depth).1
  exact (runs_mapM (P := fun W store v => v.Sound Q W store) (fun hgrows hv => hv.grow hgrows) hm
    fun e he W' m' hgrows hm' => heval hm' (hstands.grow hgrows) (hes e he)).of_ok hvs

theorem ran_inOrder {depth : Nat} {program : List (Stmt Label)} (hm : m.Sound Q W)
    (hprogram : Stmt.ReadyAll Q ⟨.outside, .outside⟩ [] program)
    (hran : runProgram ⟨.byHops table, clock, rounds⟩ depth program m = .ok () m') :
    ∃ W', Grows W m.store W' m'.store ∧ m'.Sound Q W' := by
  have hruns : Runs Q W m (runProgram ⟨.byHops table, clock, rounds⟩ depth program)
      (runProgram ⟨.byHops table, clock, rounds⟩ depth program) fun _ _ _ => True :=
    runs_runProgram (Access.agrees_byHops htable htable) depth hm hprogram
  obtain ⟨W', hgrows, hm', _⟩ := hruns.of_ok hran
  exact ⟨W', hgrows, hm'⟩

/-- After statements that completed normally the next one is ready. -/
theorem next_inOrder {around : Surroundings} {context : Context} {env : Env} {depth : Nat}
    {earlier later : List (Stmt Label)} {s : Stmt Label} (hm : m.Sound Q W)
    (hstands : Stands W m.store around.classBody context env) (hdefined : context.Defined)
    (hss : Stmt.ReadyAll Q around context (earlier ++ s :: later))
    (hran : runAll (execute ⟨.byHops table, clock, rounds⟩ depth env) earlier m =
      .ok .normal m') (depth' : Nat) :
    ∃ W', Grows W m.store W' m'.store ∧ m'.Sound Q W' ∧
      ∃ p ∈ Stmt.spotsAll around context (earlier ++ s :: later),
        (Task.execute depth' env s).StandsAt Q W' m' p := by
  induction earlier generalizing W m context with
  | nil =>
    cases hran
    exact ⟨W, .refl _ _, hm, _, List.mem_cons_self, rfl, hstands, hdefined, hss.cons.1⟩
  | cons first earlier ih =>
    obtain ⟨hfirst, hrest⟩ := hss.cons
    obtain ⟨c, m₁, hc, hran⟩ := EStateM.bind_eq_ok.mp hran
    obtain ⟨W₁, hgrows, hm₁, hsound⟩ := executed_inOrder htable hm hstands hdefined hfirst hc
    cases c with
    | returned v => cases hran
    | normal =>
      obtain ⟨W', hgrows', hm', p, hp, hs⟩ := ih hm₁ ((hstands.grow hgrows).introduceAll hdefined
        hfirst.wellFormed.isName_of_declares hfirst.declares hsound) (hdefined.introduceAll _)
        hrest hran
      exact ⟨W', hgrows.trans hgrows', hm', p, List.mem_cons_of_mem _ hp, hs⟩

/-- However often a loop has gone round, its environment fits as it did before. -/
theorem turns_inOrder {around : Surroundings} {context : Context} {env : Env} {depth : Nat}
    {condition : Expr Label} {body : Stmt Label} {start last : Nat × Machine}
    (hm : start.2.Sound Q W) (hstands : Stands W start.2.store around.classBody context env)
    (hdefined : context.Defined) (hloop : (Stmt.whileLoop condition body).Ready Q around context)
    (hturns : Relation.ReflTransGen
      (Turn ⟨.byHops table, clock, rounds⟩ depth env condition body) start last) :
    ∃ W', Grows W start.2.store W' last.2.store ∧ last.2.Sound Q W' := by
  obtain ⟨hcondition, hbody, _⟩ := hloop.whileLoop
  induction hturns with
  | refl => exact ⟨W, .refl _ _, hm⟩
  | tail _ hturn ih =>
    obtain ⟨v, m₂, _, hv, _, hc⟩ := hturn
    obtain ⟨W₁, hgrows, hm₁⟩ := ih
    have hstands₁ := hstands.grow hgrows
    obtain ⟨W₂, hgrows₂, hm₂, _⟩ := evaluated_inOrder htable hm₁ hstands₁ hcondition hv
    obtain ⟨W₃, hgrows₃, hm₃, _⟩ := executed_inOrder htable hm₂ (hstands₁.grow hgrows₂) hdefined
      hbody hc
    exact ⟨W₃, (hgrows.trans hgrows₂).trans hgrows₃, hm₃⟩

/-! ## What a task begins -/

/-- **From code at a spot a task goes on to code at spots next to it**, or it makes a call.  The name
of a superclass is read in an environment that does not fit yet. -/
theorem Starts.next {t t' : Task} {p : Spot Label}
    (h : Starts ⟨.byHops table, clock, rounds⟩ (t, m) (t', m')) (hm : m.Sound Q W)
    (ht : t.StandsAt Q W m p) :
    ∃ W', Grows W m.store W' m'.store ∧ m'.Sound Q W' ∧
      ((∃ q ∈ p.next, t'.StandsAt Q W' m' q) ∨
        (∃ depth callee values, t' = .call depth callee values ∧ t'.InOrder Q W' m') ∨
        ∃ depth env cls parent methods,
          t = .execute (depth + 1) env (.classOf cls (some parent) methods) ∧
          t' = .evaluate depth env (.nameRef parent) ∧ m = m') := by
  obtain ⟨code, around, context⟩ := p
  cases h with
  | operand hparts hvalues hgoes =>
    obtain ⟨rfl, hstands, he⟩ := ht
    have hready := he.operand
    have hpart := Expr.mem_parts_of_mem_operands
      (hparts ▸ List.mem_append_right _ List.mem_cons_self)
    rw [hparts, List.forall_mem_append] at hready
    obtain ⟨hearlier, hrest⟩ := hready
    obtain ⟨W', hgrows, hm', _⟩ := operands_inOrder htable hm hstands hearlier hvalues
    exact ⟨W', hgrows, hm', .inl ⟨_, List.mem_map_of_mem hpart, rfl, hstands.grow hgrows,
      (List.forall_mem_cons.mp hrest).1⟩⟩
  | call hcallee hvalues hcalled hlength =>
    obtain ⟨rfl, hstands, he⟩ := ht
    obtain ⟨he, hes⟩ := he.call
    obtain ⟨W₁, hgrows, hm₁, hv⟩ := evaluated_inOrder htable hm hstands he hcallee
    obtain ⟨W', hgrows', hm', _, hvs⟩ :=
      operands_inOrder htable hm₁ (hstands.grow hgrows) hes hvalues
    exact ⟨W', hgrows.trans hgrows', hm', .inr (.inl ⟨_, _, _, rfl,
      (hv.grow hgrows').callee? hcalled, hvs, hlength⟩)⟩
  | function | initializer | body => exact ht.elim
  | first hfirst =>
    obtain ⟨rfl, hstands, _, hs⟩ := ht
    refine ⟨W, .refl _ _, hm, ?_⟩
    -- the first expression stands beside the statement, or it is the name of a superclass
    rcases hs.first hstands hfirst with ⟨q, hq, he⟩ | ⟨cls, parent, methods, rfl, rfl⟩
    · exact .inl ⟨q, hq, he _⟩
    · exact .inr (.inr ⟨_, _, cls, parent, methods, rfl, rfl, rfl⟩)
  | branch hfirst hcondition hbranch =>
    obtain ⟨rfl, hstands, hdefined, hs⟩ := ht
    obtain ⟨W', hgrows, hm', _⟩ :=
      evaluated_inOrder htable hm hstands (hs.condition hbranch hfirst) hcondition
    obtain ⟨hq, htaken⟩ := hs.branch hbranch
    exact ⟨W', hgrows, hm', .inl ⟨_, hq, rfl, hstands.grow hgrows, hdefined, htaken⟩⟩
  | block henter hearlier =>
    obtain ⟨rfl, hstands, hdefined, hs⟩ := ht
    obtain ⟨W₁, hgrows, hm₁, hentered⟩ := (runs_enterEmpty hm _ _).of_ok henter
    obtain ⟨hstands, hdefined⟩ := hstands.block hdefined hs.block hgrows hentered
    obtain ⟨W', hgrows', hm', q, hq, hs⟩ :=
      next_inOrder htable hm₁ hstands hdefined hs.block hearlier _
    exact ⟨W', hgrows.trans hgrows', hm', .inl ⟨q, hq, hs⟩⟩
  | condition hturns =>
    obtain ⟨rfl, hstands, hdefined, hs⟩ := ht
    obtain ⟨W', hgrows, hm'⟩ := turns_inOrder htable hm hstands hdefined hs hturns
    exact ⟨W', hgrows, hm', .inl ⟨_, List.mem_cons_self, rfl, hstands.grow hgrows,
      hs.whileLoop.1⟩⟩
  | turn hturns hcondition htrue =>
    obtain ⟨rfl, hstands, hdefined, hs⟩ := ht
    obtain ⟨W₁, hgrows, hm₁⟩ := turns_inOrder htable hm hstands hdefined hs hturns
    have hstands₁ := hstands.grow hgrows
    obtain ⟨W', hgrows', hm', _⟩ :=
      evaluated_inOrder htable hm₁ hstands₁ hs.whileLoop.1 hcondition
    exact ⟨W', hgrows.trans hgrows', hm', .inl ⟨_, List.mem_cons_of_mem _ List.mem_cons_self, rfl,
      hstands₁.grow hgrows', hdefined, hs.whileLoop.2.1⟩⟩

/-- **A call goes on to code at the spots of its function.** -/
theorem Starts.inside {depth : Nat} {f : Closure} {values : List Value} {t : Task}
    (h : Starts ⟨.byHops table, clock, rounds⟩ (.invoke depth f values, m) (t, m'))
    (hm : m.Sound Q W) (ht : (Task.invoke depth f values).InOrder Q W m) :
    ∃ W', Grows W m.store W' m'.store ∧ m'.Sound Q W' ∧
      ∃ around kind context, ∃ p ∈ f.declaration.spots around kind context,
        t.StandsAt Q W' m' p := by
  cases h with
  | body hvars henter hbody hearlier =>
    obtain ⟨⟨around, kind, context, hf⟩, hvalues, hlength⟩ := ht
    rw [matchArguments_eq hlength] at hvars
    cases hvars
    obtain ⟨W₁, hgrows, hm₁, hentered⟩ :=
      (runs_enterParameters hm _ hf.ready.wellFormed hvalues hlength).of_ok henter
    obtain ⟨hstands, hdefined⟩ := hf.body hgrows hentered
    have hready := hf.ready.body
    rw [hbody] at hready
    have hfits : Stands W₁ _ (⟨kind, around.classBody⟩ : Surroundings).classBody _ _ := hstands
    obtain ⟨W', hgrows', hm', p, hp, hs⟩ :=
      next_inOrder htable hm₁ hfits hdefined hready hearlier _
    refine ⟨W', hgrows.trans hgrows', hm', around, kind, context, p, ?_, hs⟩
    rw [FunctionOf.spots, hbody]
    exact hp

/-- **A task in order begins tasks in order**, on machines in order. -/
theorem Starts.inOrder {t t' : Task}
    (h : Starts ⟨.byHops table, clock, rounds⟩ (t, m) (t', m')) (hm : m.Sound Q W)
    (ht : t.InOrder Q W m) :
    ∃ W', Grows W m.store W' m'.store ∧ m'.Sound Q W' ∧ t'.InOrder Q W' m' := by
  have hcode : ∀ p, t.StandsAt Q W m p →
      ∃ W', Grows W m.store W' m'.store ∧ m'.Sound Q W' ∧ t'.InOrder Q W' m' := by
    intro p hp
    obtain ⟨W', hgrows, hm', ⟨q, _, hq⟩ | ⟨_, _, _, _, hcall⟩ | ⟨_, _, _, parent, _, _, rfl, _⟩⟩ :=
      h.next htable hm hp
    · exact ⟨W', hgrows, hm', hq.inOrder⟩
    · exact ⟨W', hgrows, hm', hcall⟩
    · exact ⟨W', hgrows, hm', .inr ⟨parent, rfl⟩⟩
  cases t with
  | evaluate depth env e =>
    rcases ht with ⟨around, context, hstands, he⟩ | ⟨ref, rfl⟩
    · exact hcode ⟨.expression e, around, context⟩ ⟨rfl, hstands, he⟩
    · cases h with
      | operand hparts => simp [Expr.operands] at hparts
  | execute depth env s =>
    obtain ⟨around, context, hs⟩ := ht
    exact hcode ⟨.statement s, around, context⟩ ⟨rfl, hs⟩
  | invoke depth f values =>
    obtain ⟨W', hgrows, hm', _, _, _, p, _, hp⟩ := h.inside htable hm ht
    exact ⟨W', hgrows, hm', hp.inOrder⟩
  | call depth callee values =>
    cases h with
    | function => exact ⟨W, .refl _ _, hm, ht⟩
    | initializer hobject hmethod htake =>
      obtain ⟨hcallee, hvalues, hlength⟩ := ht
      obtain ⟨W₁, hgrows, hm₁, ⟨id, rfl⟩, hc⟩ := (runs_newObject hm hcallee).of_ok hobject
      obtain ⟨W', hgrows', hm', hf, hdeclaration⟩ :=
        (runs_takeMethod hm₁ (ClassValue.Sound.method? hc hmethod) hc).of_ok htake
      have hgrows := hgrows.trans hgrows'
      refine ⟨W', hgrows, hm', hf, fun v hv => (hvalues v hv).grow hgrows, ?_⟩
      rw [hlength, Closure.arity, hdeclaration]
      simp [Callee.arity, ClassValue.arity, hmethod, Closure.arity]

/-- **The tasks of a run are in order**, each on the machine on which it is begun. -/
theorem Begins.inOrder {depth : Nat} {program : List (Stmt Label)} {t : Task}
    (h : Begins ⟨.byHops table, clock, rounds⟩ depth program m t m') (hm : m.Sound Q W)
    (hprogram : Stmt.ReadyAll Q ⟨.outside, .outside⟩ [] program) :
    ∃ W', Grows W m.store W' m'.store ∧ m'.Sound Q W' ∧ t.InOrder Q W' m' := by
  obtain ⟨earlier, s, later, m₁, rfl, hran, hstarts⟩ := h
  obtain ⟨hearlier, hrest⟩ := hprogram.append
  obtain ⟨W₁, hgrows, hm₁⟩ := ran_inOrder htable hm hearlier hran
  -- by induction on the tasks between the statement of the program and this one
  generalize hlast : (t, m') = last at hstarts
  induction hstarts generalizing t m' with
  | refl =>
    cases hlast
    exact ⟨W₁, hgrows, hm₁, ⟨.outside, .outside⟩, [], .globals W₁ _, List.forall_mem_nil _,
      hrest.cons.1⟩
  | @tail mid _ _ hstart ih =>
    subst hlast
    obtain ⟨W₂, hgrows₂, hm₂, hmid⟩ := ih rfl
    obtain ⟨W', hgrows', hm', ht⟩ := hstart.inOrder htable hm₂ hmid
    exact ⟨W', hgrows₂.trans hgrows', hm', ht⟩

end

end LoxLang
