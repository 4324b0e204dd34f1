import LoxLang.Proofs.Machine.Interposed
import LoxLang.Proofs.Machine.Turning

/-! # Running the program that loops unfold to

The evaluator that knows turns runs a program with turns, by the hops in a table, and the machine
runs the program it unfolds to, by the hops in another one.  If both tables have the hops that the
places of the references ask for, both runs take the same steps, on machines that are alike up to
empty scopes (`unfolding`).  All four parts of the evaluators are proved together, by induction on
the levels of nesting that are left (`parallel`).  Where the first one executes a turn, the machine
makes an empty scope and goes on in it; all else is the same for both. -/

namespace LoxLang

open Binder (Surroundings FunctionContext ClassContext)
open Machine

/-- Two evaluators take the same steps with code that goes together. -/
structure Machine.Evaluator.Parallel (Q Q' : Demand Label) (E E' : Evaluator) : Prop where
  evaluate : ∀ {places : Counterparts} {around : Surroundings} {top : Bool}
    {context context' : Context} {env env' : Env} {e : Expr Label},
    Sides places around.classBody top context context' env env' →
    e.Ready Q around context → e.Ready Q' around context' →
    Agree (unfolding Q Q') places (Value.Alike (unfolding Q Q')) (E.evaluate env e)
      (E'.evaluate env' e)
  call : ∀ {places : Counterparts} {callee callee' : Callee} {as as' : List Value},
    callee.Alike (unfolding Q Q') places callee' →
    List.Forall₂ (Value.Alike (unfolding Q Q') places) as as' →
    Agree (unfolding Q Q') places (Value.Alike (unfolding Q Q')) (E.call callee as)
      (E'.call callee' as')
  invoke : ∀ {places : Counterparts} {f f' : Closure} {as as' : List Value},
    f.Unfolds Q Q' [] places f' → List.Forall₂ (Value.Alike (unfolding Q Q') places) as as' →
    Agree (unfolding Q Q') places (Value.Alike (unfolding Q Q')) (E.invoke f as) (E'.invoke f' as')
  execute : ∀ {places : Counterparts} {around : Surroundings} {top : Bool}
    {context context' : Context} {env env' : Env} {s s' : Stmt Label},
    Sides places around.classBody top context context' env env' →
    s.Ready Q around context → s'.Ready Q' around context' → s.declares = [] ∨ top = true →
    s.Unfolds s' →
    Agree (unfolding Q Q') places (Completion.Alike (unfolding Q Q')) (E.execute env s)
      (E'.execute env' s')

namespace Machine.Evaluator

/-- No level is left: both stop there. -/
theorem parallel_exhausted (Q Q' : Demand Label) : Parallel Q Q' exhausted exhausted where
  evaluate _ _ _ := agree_fault .tooDeep
  call _ _ := agree_fault .tooDeep
  invoke _ _ := agree_fault .tooDeep
  execute _ _ _ _ _ := agree_fault .tooDeep

namespace Parallel

section
variable {Q Q' : Demand Label} {E E' : Evaluator} (h : Parallel Q Q' E E')
  {places : Counterparts} {top : Bool} {context context' : Context} {env env' : Env}
  {ss ss' : List (Stmt Label)}

include h

/-- Statements that follow each other are executed alike, one by one. -/
theorem executeEach (around : Surroundings) (hss : List.Forall₂ Stmt.Unfolds ss ss')
    (henv : Sides places around.classBody top context context' env env')
    (hready : Stmt.ReadyAll Q around context ss) (hready' : Stmt.ReadyAll Q' around context' ss')
    (htop : Stmt.declaresAll ss = [] ∨ top = true) :
    List.Forall₂ (fun s s' => Agree (unfolding Q Q') places (Completion.Alike (unfolding Q Q'))
      (E.execute env s) (E'.execute env' s')) ss ss' := by
  induction hss generalizing context context' with
  | nil => exact .nil
  | @cons s s' ss ss' hs _ ih =>
    obtain ⟨hsready, hready⟩ := hready.cons
    obtain ⟨hsready', hready'⟩ := hready'.cons
    rw [Stmt.declaresAll, List.flatMap_cons, List.append_eq_nil_iff] at htop
    have hstop := htop.imp_left And.left
    rw [hs.declares_eq] at hready'
    exact .cons (h.execute henv hsready hsready' hstop hs)
      (ih (henv.introduceAll hsready.wellFormed.isName_of_declares hstop) hready hready'
        (htop.imp_left And.right))

theorem executeAll (around : Surroundings) (hss : List.Forall₂ Stmt.Unfolds ss ss')
    (henv : Sides places around.classBody top context context' env env')
    (hready : Stmt.ReadyAll Q around context ss) (hready' : Stmt.ReadyAll Q' around context' ss')
    (htop : Stmt.declaresAll ss = [] ∨ top = true) :
    Agree (unfolding Q Q') places (Completion.Alike (unfolding Q Q'))
      (runAll (fun s => E.execute env s) ss) (runAll (fun s => E'.execute env' s) ss') :=
  agree_runAll (h.executeEach around hss henv hready hready' htop)

/-- **A turn and its block are executed alike.**  The block makes a scope of its own, in which
neither the body nor the step declares anything. -/
theorem turn {around : Surroundings} {body body' : Stmt Label} {step : Expr Label}
    (henv : Sides places around.classBody top context context' env env')
    (hready : (Stmt.turn body step).Ready Q around context)
    (hready' : (Stmt.block [body', .expression step]).Ready Q' around context')
    (hbody : body.Unfolds body') (hnone : body.declares = []) :
    Agree (unfolding Q Q') places (Completion.Alike (unfolding Q Q'))
      (runAll (fun s => E.execute env s) [body, .expression step])
      (do
        let scope ← Action.enter Bindings.empty env'
        runAll (fun s => E'.execute scope s) [body', .expression step]) := by
  obtain ⟨_, ⟨hbodyready, _⟩, hstep, _⟩ := hready.ifElse
  -- in the loop's own scope body and step follow each other just as they do in the block
  have hparts : Stmt.ReadyAll Q around context [body, .expression step] := by
    refine ⟨?_, ?_, ?_, ?_⟩
    · exact List.forall_mem_cons.mpr ⟨hbodyready.wellFormed,
        List.forall_mem_singleton.mpr hstep.wellFormed⟩
    · simp only [Stmt.visitAll, hnone, List.append_nil]
      exact List.forall_mem_append.mpr ⟨hbodyready.good, hstep.good⟩
    · simp [Stmt.declaresAll, Stmt.declares, hnone]
    · rw [Stmt.spotsAll, hnone]
      exact List.forall_mem_cons.mpr ⟨hbodyready.covers,
        List.forall_mem_singleton.mpr hstep.covers⟩
  have hparts' := hready'.block
  have hnone' : Stmt.declaresAll [body', .expression step] = [] := by
    simp [Stmt.declaresAll, Stmt.declares, hbody.declares_eq, hnone]
  rw [hnone'] at hparts'
  refine agree_enterExtra env' fun id' => ?_
  refine h.executeAll around (.cons hbody (.cons (.expression step) .nil)) (henv.extra id') hparts
    hparts' (.inl ?_)
  simp [Stmt.declaresAll, Stmt.declares, hnone]

end

section
variable {Q Q' : Demand Label} {E E' : Evaluator} (h : Parallel Q Q' E E')
  {table table' : BindingTable} (hQ : ∀ u, Q u → table.hops? u.ref.label = u.hops?)
  (hQ' : ∀ u, Q' u → table'.hops? u.ref.label = u.hops?) (clock : Nat → Float) (rounds : Nat)
  {places : Counterparts} {around : Surroundings} {top : Bool} {context context' : Context}
  {env env' : Env}

include h hQ hQ' in
theorem evaluateOuter {e : Expr Label}
    (henv : Sides places around.classBody top context context' env env')
    (he : e.Ready Q around context) (he' : e.Ready Q' around context') :
    Agree (unfolding Q Q') places (Value.Alike (unfolding Q Q'))
      ((Evaluator.next ⟨.byHops table, clock, rounds⟩ E).evaluate env e)
      ((Evaluator.next ⟨.byHops table', clock, rounds⟩ E').evaluate env' e) := by
  cases e with
  | literal value => exact agree_value (.datum value)
  | nameRef ref =>
    exact agree_readAlong henv.along (hQ _ he.nameRef.2.2) (hQ' _ he'.nameRef.2.2)
  | thisRef ref => exact agree_readAlong henv.along (hQ _ he.thisRef.2) (hQ' _ he'.thisRef.2)
  | assign ref value =>
    obtain ⟨_, hvalue, hassign⟩ := he.assign
    obtain ⟨_, hvalue', hassign'⟩ := he'.assign
    refine (h.evaluate henv hvalue hvalue').bind fun places₁ v v' hplaces hv => ?_
    refine (agree_assignAlong (henv.along.mono hplaces) (hQ _ hassign) (hQ' _ hassign') hv).bind
      fun places₂ _ _ hplaces' _ => ?_
    exact agree_value (hv.mono hplaces')
  | unary op operand => exact agree_unary (h.evaluate henv he.unary he'.unary) op
  | binary left op right =>
    exact agree_binary (h.evaluate henv he.binary.1 he'.binary.1)
      (h.evaluate henv he.binary.2 he'.binary.2) op
  | logical left op right =>
    exact agree_logical (h.evaluate henv he.logical.1 he'.logical.1)
      (h.evaluate henv he.logical.2 he'.logical.2) _
  | group inner => exact h.evaluate henv he.group he'.group
  | call callee paren arguments =>
    obtain ⟨hcallee, harguments⟩ := he.call
    obtain ⟨hcallee', harguments'⟩ := he'.call
    refine agree_call (h.evaluate henv hcallee hcallee') (agree_mapM ?_ Value.Alike.mono)
      (fun places₁ c c' as as' _ hc has => h.call hc has) paren
    exact List.forall₂_same.mpr fun a ha => h.evaluate henv (harguments a ha) (harguments' a ha)
  | get object name =>
    exact agree_getProperty (takes_unfolding Q Q') (h.evaluate henv he.get he'.get) name
  | set object name value =>
    exact agree_setProperty (h.evaluate henv he.set.1 he'.set.1)
      (h.evaluate henv he.set.2 he'.set.2) name
  | superRef ref method =>
    obtain ⟨hsuper, hderived, hparent⟩ := he.superRef
    obtain ⟨_, _, hparent'⟩ := he'.superRef
    refine agree_superMethod (takes_unfolding Q Q')
      (agree_parentAlong henv hderived ((hQ _ hparent).trans ?_) ((hQ' _ hparent').trans ?_)) method
    · rw [Use.hops?, hsuper]
    · rw [Use.hops?, hsuper]
  | unknown form => exact agree_fault _

include h in
theorem callOuter {callee callee' : Callee} {as as' : List Value}
    (hcallee : callee.Alike (unfolding Q Q') places callee')
    (has : List.Forall₂ (Value.Alike (unfolding Q Q') places) as as') :
    Agree (unfolding Q Q') places (Value.Alike (unfolding Q Q'))
      ((Evaluator.next ⟨.byHops table, clock, rounds⟩ E).call callee as)
      ((Evaluator.next ⟨.byHops table', clock, rounds⟩ E').call callee' as') := by
  cases hcallee with
  | clock => exact (unfoldingOfCode Q Q').agree_readClock rfl
  | function hf => exact h.invoke hf has
  | classOf hc =>
    exact agree_makeObject (takes_unfolding Q Q')
      (fun places' f f' hplaces hf => h.invoke hf (has.imp fun _ _ h => h.mono hplaces)) hc

include h in
theorem invokeOuter {f f' : Closure} {as as' : List Value} (hf : f.Unfolds Q Q' [] places f')
    (has : List.Forall₂ (Value.Alike (unfolding Q Q') places) as as') :
    Agree (unfolding Q Q') places (Value.Alike (unfolding Q Q')) (invokeOuter E.execute f as)
      (invokeOuter E'.execute f' as') := by
  obtain ⟨around, kind, context, context', hat⟩ := id hf
  have hunfolds := hat.unfolds
  have hready : f.declaration.Ready Q around kind context := hat.ready
  have hready' : f'.declaration.Ready Q' around kind context' := hat.ready'
  unfold Machine.invokeOuter
  generalize f.declaration = g, f'.declaration = g' at hunfolds hready hready' ⊢
  cases hunfolds with
  | @intro name params body body' hbody =>
    have hparams : List.Forall₂ (fun p p' : Token => p'.lexeme = p.lexeme) params params :=
      List.forall₂_same.mpr fun _ _ => rfl
    refine (agree_matchArguments (fun name => name) hparams has).bind
      fun places₁ vars vars' hplaces hvars => ?_
    refine (agree_enterShared (.ofList Function.injective_id hvars) (hat.along.mono hplaces)).bind
      fun places₂ inner inner' hplaces' hinner => ?_
    -- both bodies stand in one more scope, which is for the same names
    have hnames : FunctionOf.scopeNames (⟨name, params, body'⟩ : Function Label) =
        FunctionOf.scopeNames (⟨name, params, body⟩ : Function Label) :=
      congrArg (params ++ ·) (Stmt.Unfolds.declaresAll_eq hbody)
    have hbodyready' := hready'.body
    rw [hnames] at hbodyready'
    have hscope : Sides places₂ around.classBody true
        (.fresh (FunctionOf.scopeNames (⟨name, params, body⟩ : Function Label)) :: context)
        (.fresh (FunctionOf.scopeNames (⟨name, params, body⟩ : Function Label)) :: context')
        inner inner' := ⟨hinner _, hat.derives.fresh _, hat.derives'.fresh _⟩
    refine Agree.bind (P := Completion.Alike (unfolding Q Q'))
      (h.executeAll ⟨kind, around.classBody⟩ hbody
        (hscope.introduceAll hready.wellFormed.params (.inr rfl)) hready.body hbodyready'
        (.inr rfl)) fun places₃ c c' hplaces'' hc => ?_
    exact agree_resultOf hat.isInitializer
      (agree_thisAlong (((hf.mono hplaces).mono hplaces').mono hplaces'')) hc

include h in
theorem executeOuter {s s' : Stmt Label}
    (henv : Sides places around.classBody top context context' env env')
    (hs : s.Ready Q around context) (hs' : s'.Ready Q' around context')
    (htop : s.declares = [] ∨ top = true) (hunfolds : s.Unfolds s') :
    Agree (unfolding Q Q') places (Completion.Alike (unfolding Q Q'))
      (Evaluator.executeTurns ⟨.byHops table, clock, rounds⟩ E env s)
      ((Evaluator.next ⟨.byHops table', clock, rounds⟩ E').execute env' s') := by
  cases hunfolds with
  | expression value => exact (h.evaluate henv hs.expression hs'.expression).done
  | print value => exact agree_printed (h.evaluate henv hs.print hs'.print)
  | var name initial =>
    -- a statement that declares stands in no scope that was put in between
    obtain rfl := htop.resolve_left (List.cons_ne_nil _ _)
    obtain ⟨hname, hinitial⟩ := hs.var
    obtain ⟨_, hinitial'⟩ := hs'.var
    cases initial with
    | none => exact (agree_defineAlong henv.along name.lexeme Value.alike_nil).done
    | some e =>
      refine (h.evaluate (henv.mark hname false) (hinitial e rfl) (hinitial' e rfl)).bind
        fun places₁ v v' hplaces hv => ?_
      exact (agree_defineAlong (henv.along.mono hplaces) name.lexeme hv).done
  | @block body body' hbody =>
    have hbodyready' := hs'.block
    rw [Stmt.Unfolds.declaresAll_eq hbody] at hbodyready'
    refine (agree_enterShared (Bindings.matches_empty _ _) henv.along).bind
      fun places₁ inner inner' hplaces hinner => ?_
    exact h.executeAll around hbody ⟨hinner _, henv.derives.fresh _, henv.derives'.fresh _⟩ hs.block
      hbodyready' (.inr rfl)
  | ifThen condition hbody =>
    obtain ⟨hcondition, hbodyready, hnone⟩ := hs.ifThen
    obtain ⟨hcondition', hbodyready', _⟩ := hs'.ifThen
    exact agree_branch (h.evaluate henv hcondition hcondition')
      (h.execute henv hbodyready hbodyready' (.inl hnone) hbody) (agree_pure fun _ _ => .normal)
  | ifElse hcondition hbody hother =>
    obtain ⟨hconditionready, ⟨hbodyready, hnone⟩, hotherready, hothernone⟩ := hs.ifElse
    obtain ⟨hconditionready', ⟨hbodyready', _⟩, hotherready', _⟩ := hs'.ifElse
    -- no condition that is read marks a turn
    rw [executeTurns_ifElse _ _ _ hcondition]
    exact agree_branch (h.evaluate henv hconditionready hconditionready')
      (h.execute henv hbodyready hbodyready' (.inl hnone) hbody)
      (h.execute henv hotherready hotherready' (.inl hothernone) hother)
  | whileLoop condition hbody =>
    obtain ⟨hcondition, hbodyready, hnone⟩ := hs.whileLoop
    obtain ⟨hcondition', hbodyready', _⟩ := hs'.whileLoop
    exact agree_runWhile (agree_test (h.evaluate henv hcondition hcondition'))
      (h.execute henv hbodyready hbodyready' (.inl hnone) hbody) rounds
  | turn step hbody hnone => exact h.turn henv hs hs' hbody hnone
  | @function f f' hf =>
    obtain rfl := htop.resolve_left (List.cons_ne_nil _ _)
    obtain ⟨hname, hready⟩ := hs.function
    obtain ⟨hname', hready'⟩ := hs'.function
    rw [hf.name_eq] at hready'
    refine agree_freshId.bind ?_
    rintro places₁ _ id hplaces rfl
    -- the function stands among the names declared so far, its own included
    have hinner := (henv.mono hplaces).mark hname true
    have hfunction : Value.Alike (unfolding Q Q') places₁ (.function ⟨id, f, env, false⟩)
        (.function ⟨id, f', env', false⟩) :=
      .function ⟨around, .function, _, _, rfl, rfl, nofun, hinner.along, hinner.derives,
        hinner.derives', hf, hready, hready'⟩
    rw [hf.name_eq]
    exact (agree_defineAlong (henv.along.mono hplaces) f.name.lexeme hfunction).done
  | returnFrom keyword value =>
    cases value with
    | none => exact agree_pure fun _ _ => .returned Value.alike_nil
    | some e => exact agree_returned (h.evaluate henv (hs.returnFrom e rfl) (hs'.returnFrom e rfl))
  | classOf name superclass hmethods =>
    obtain rfl := htop.resolve_left (List.cons_ne_nil _ _)
    cases superclass with
    | none => exact (agree_plainClass henv.along hs hs' hmethods).done
    | some parent =>
      refine (h.evaluate (henv.mark hs.subclassOf.1 true) hs.superclass hs'.superclass).bind
        fun places₁ v v' hplaces hv => ?_
      cases hv with
      | classOf hc =>
        exact (agree_derivedClass (henv.along.mono hplaces) hs hs' hmethods hc).done
      | _ => exact agree_fail _ rfl
  | unknown form => exact agree_fault _

include h hQ hQ' in
/-- What holds of the evaluators for the parts holds of those for the whole. -/
theorem next : Parallel Q Q'
    { Evaluator.next ⟨.byHops table, clock, rounds⟩ E with
      execute := executeTurns ⟨.byHops table, clock, rounds⟩ E }
    (Evaluator.next ⟨.byHops table', clock, rounds⟩ E') where
  evaluate henv he he' := h.evaluateOuter hQ hQ' clock rounds henv he he'
  call hcallee has := h.callOuter clock rounds hcallee has
  invoke hf has := h.invokeOuter hf has
  execute henv hs hs' htop hunfolds := h.executeOuter clock rounds henv hs hs' htop hunfolds

end

end Parallel

section
variable {Q Q' : Demand Label} {table table' : BindingTable}
  (hQ : ∀ u, Q u → table.hops? u.ref.label = u.hops?)
  (hQ' : ∀ u, Q' u → table'.hops? u.ref.label = u.hops?) (clock : Nat → Float) (rounds depth : Nat)

include hQ hQ'

/-- **The two evaluators take the same steps**, however many levels are left. -/
theorem parallel :
    Parallel Q Q' (turning ⟨.byHops table, clock, rounds⟩ depth)
      (machine ⟨.byHops table', clock, rounds⟩ depth) := by
  induction depth with
  | zero =>
    rw [machine_zero]
    exact parallel_exhausted Q Q'
  | succ depth ih =>
    rw [machine_succ]
    exact ih.next hQ hQ' clock rounds

end

end Machine.Evaluator

/-- **A program with turns runs like the program it unfolds to.**  From machines that are alike up
to empty scopes both runs end in the same way, on machines that are alike again. -/
theorem abreast_runTurning {Q Q' : Demand Label} {table table' : BindingTable}
    (hQ : ∀ u, Q u → table.hops? u.ref.label = u.hops?)
    (hQ' : ∀ u, Q' u → table'.hops? u.ref.label = u.hops?) (clock : Nat → Float)
    (rounds depth : Nat) {places : Counterparts} {m m' : Machine}
    (hm : m.Alike (unfolding Q Q') places m') {program program' : List (Stmt Label)}
    (hunfolds : List.Forall₂ Stmt.Unfolds program program')
    (hready : Stmt.ReadyAll Q ⟨.outside, .outside⟩ [] program)
    (hready' : Stmt.ReadyAll Q' ⟨.outside, .outside⟩ [] program') :
    Abreast (unfolding Q Q') places (fun _ _ _ => True)
      (runTurning ⟨.byHops table, clock, rounds⟩ depth program m)
      (runProgram ⟨.byHops table', clock, rounds⟩ depth program' m') := by
  have hstore : Store.Interposed (Value.Alike (unfolding Q Q')) places m.store m'.store := hm.store
  refine agree_forM ?_ places m m' List.prefix_rfl hm
  exact ((Evaluator.parallel hQ hQ' clock rounds depth).executeEach ⟨.outside, .outside⟩ hunfolds
    (.globals hstore.globals) hready hready' (.inr rfl)).imp fun _ _ hs =>
      hs.bind fun _ _ _ _ _ => agree_pure fun _ _ => trivial

end LoxLang
