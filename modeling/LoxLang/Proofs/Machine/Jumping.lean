import LoxLang.Machine.Evaluate
import LoxLang.Proofs.Machine.Plan

/-! # Returns that jump

The evaluator of `Machine.execute` hands a `return` from each statement to the one around it, up to
the call.  Here is the evaluator to which it is compared: in `Jumping` a `return` is an exception.
It leaves all statements around it at once, whatever they are, and is caught where a function is
called (`Jumping.landing`) and nowhere else; outside all calls nobody catches it.  The two
evaluators do the same (`jumping_eq`), and outside functions a program that breaks no rule about
jumps never returns (`completes_normal`). -/

namespace LoxLang

open Binder (Surroundings)
open Machine

variable {α β σ : Type}

/-- What ends an action early: that it has no result, or a `return`, which goes on until it is
caught. -/
inductive Signal
  | halt (h : Halt)
  | returned (value : Value)

/-- A part of the execution of a program that a `return` can leave. -/
abbrev Jumping := EStateM Signal Machine

namespace Jumping

/-! ## The evaluator -/

/-- An action in which there is no `return`. -/
def lift (x : Action α) : Jumping α := fun m =>
  match x m with
  | .ok a m => .ok a m
  | .error h m => .error (.halt h) m

/-- Catches a `return`. The value is the one that the `return` brings along, or nil if there is
none. -/
def landing (body : Jumping Unit) : Jumping Value := fun m =>
  match body m with
  | .ok _ m => .ok .nil m
  | .error (.returned value) m => .ok value m
  | .error (.halt h) m => .error (.halt h) m

/-- Executes `body` as long as `test` yields true, at most `rounds` times. -/
def loop (test : Jumping Bool) (body : Jumping Unit) : Nat → Jumping Unit
  | 0 => throw (.halt (.fault .outOfRounds))
  | rounds + 1 => do
    if ← test then
      body
      loop test body rounds

variable (setting : Setting)

mutual

/-- The value of an expression in an environment. -/
def evaluate : Nat → Env → Expr Label → Jumping Value
  | 0, _, _ => throw (.halt (.fault .tooDeep))
  | depth + 1, env, e => match e with
    | .literal value => pure (.datum value)
    | .nameRef ref | .thisRef ref => lift (setting.access.read env ref)
    | .assign ref value => do
      let value ← evaluate depth env value
      lift (setting.access.assign env ref value)
      return value
    | .unary op operand => do
      lift (Action.ofExcept ((← evaluate depth env operand).unary op))
    | .binary left op right => do
      let left ← evaluate depth env left
      let right ← evaluate depth env right
      lift (Action.ofExcept (left.binary op right))
    | .logical left op right => do
      let left ← evaluate depth env left
      if left.isTruthy == (op.kind == .orWord) then return left
      else evaluate depth env right
    | .group inner => evaluate depth env inner
    | .call callee paren arguments => do
      let callee ← evaluate depth env callee
      let arguments ← arguments.mapM (fun a => evaluate depth env a)
      match callee.callee? with
      | none => lift (Action.fail .notCallable paren)
      | some callee =>
        if arguments.length = callee.arity then call depth callee arguments
        else lift (Action.fail (.wrongArgumentCount callee.arity arguments.length) paren)
    | .get object name => do
      match ← evaluate depth env object with
      | .object id c => lift (Action.property id c name)
      | _ => lift (Action.fail .propertyOfNoObject name)
    | .set object name value => do
      match ← evaluate depth env object with
      | .object id _ =>
        let value ← evaluate depth env value
        lift (Action.setField id name.lexeme value)
        return value
      | _ => lift (Action.fail .fieldOfNoObject name)
    | .superRef ref method => lift (Action.superMethod setting.access env ref method)
    | .unknown form => throw (.halt (.fault (.unknownExpression form)))

/-- The value of a call with the right number of arguments. -/
def call : Nat → Callee → List Value → Jumping Value
  | 0, _, _ => throw (.halt (.fault .tooDeep))
  | depth + 1, callee, arguments => match callee with
    | .clock => lift (Action.readClock setting)
    | .function f => invoke depth f arguments
    | .classOf c => do
      let object ← lift (Action.newObject c)
      match c.initializer? with
      | some method =>
        let _ ← invoke depth (← lift (Action.takeMethod object method)) arguments
        return object
      | none => return object

/-- Executes the body of a function and catches a `return` in it. A method that sets up objects
yields the object all the same. -/
def invoke : Nat → Closure → List Value → Jumping Value
  | 0, _, _ => throw (.halt (.fault .tooDeep))
  | depth + 1, f, arguments => do
    let vars ← lift (Action.ofAccess (matchArguments f.declaration.params arguments))
    let env ← lift (Action.enter (Bindings.ofList vars) f.env)
    let value ← landing (f.declaration.body.forM fun s => execute depth env s)
    if f.isInitializer then lift (Action.getAt f.env 0 "this") else return value

/-- Executes a statement in an environment. -/
def execute : Nat → Env → Stmt Label → Jumping Unit
  | 0, _, _ => throw (.halt (.fault .tooDeep))
  | depth + 1, env, s => match s with
    | .expression value => do
      let _ ← evaluate depth env value
    | .print value => do
      lift (Action.print (← evaluate depth env value))
    | .var name none => lift (Action.define env name.lexeme .nil)
    | .var name (some initial) => do
      lift (Action.define env name.lexeme (← evaluate depth env initial))
    | .block body => do
      let inner ← lift (Action.enter Bindings.empty env)
      body.forM fun s => execute depth inner s
    | .ifThen condition body => do
      if (← evaluate depth env condition).isTruthy then execute depth env body
    | .ifElse condition body other => do
      if (← evaluate depth env condition).isTruthy then execute depth env body
      else execute depth env other
    | .whileLoop condition body =>
      loop (return (← evaluate depth env condition).isTruthy) (execute depth env body)
        setting.rounds
    | .function declaration => do
      let f : Closure := ⟨← lift Action.freshId, declaration, env, false⟩
      lift (Action.define env declaration.name.lexeme (.function f))
    | .returnFrom _ none => throw (.returned .nil)
    | .returnFrom _ (some value) => do
      throw (.returned (← evaluate depth env value))
    | .classOf name none methods => lift (makeClass env name none methods)
    | .classOf name (some parent) methods => do
      match ← evaluate depth env (.nameRef parent) with
      | .classOf c => lift (makeClass env name (some c) methods)
      | _ => lift (Action.fail .superclassNotClass parent.name)
    | .unknown form => throw (.halt (.fault (.unknownStatement form)))

end

/-- Executes a program among the global variables. -/
def runProgram (depth : Nat) (program : List (Stmt Label)) : Jumping Unit :=
  program.forM fun s => execute setting depth globalEnv s

/-! ## Actions without returns -/

@[simp] theorem lift_pure (a : α) : lift (pure a) = pure a := rfl

@[simp] theorem lift_throw (h : Halt) : lift (throw h : Action α) = throw (.halt h) := rfl

theorem lift_bind (x : Action α) (f : α → Action β) :
    lift (x >>= f) = lift x >>= fun a => lift (f a) := by
  funext m
  show (match (x >>= f) m with | .ok b m => _ | .error h m => _) = (lift x >>= _) m
  rw [EStateM.bind_apply, EStateM.bind_apply, lift]
  cases x m <;> rfl

theorem lift_mapM (f : σ → Action α) (l : List σ) :
    lift (l.mapM f) = l.mapM fun a => lift (f a) := by
  induction l with
  | nil => rfl
  | cons a l ih => simp only [List.mapM_cons, lift_bind, ih, lift_pure]

/-! ## Completions as jumps -/

/-- An action that jumps where it would complete with a `return`. -/
def raise (x : Action Completion) : Jumping Unit := do
  match ← lift x with
  | .normal => pure ()
  | .returned value => throw (.returned value)

@[simp] theorem raise_normal : raise (pure .normal) = pure () := rfl

@[simp] theorem raise_returned (value : Value) :
    raise (pure (.returned value)) = throw (.returned value) := rfl

@[simp] theorem raise_throw (h : Halt) : raise (throw h) = throw (.halt h) := rfl

theorem raise_bind (x : Action α) (f : α → Action Completion) :
    raise (x >>= f) = lift x >>= fun a => raise (f a) := by
  simp only [raise, lift_bind, bind_assoc]

theorem bind_done (x : Jumping Unit) : (x >>= fun _ => pure ()) = x := bind_pure x

/-- Where a statement returns, those after it are not executed. -/
theorem raise_runAll (run : σ → Action Completion) (ss : List σ) :
    raise (runAll run ss) = ss.forM fun s => raise (run s) := by
  induction ss with
  | nil => rfl
  | cons s ss ih =>
    show _ = raise (run s) >>= fun _ => ss.forM fun s => raise (run s)
    rw [runAll, raise_bind, ← ih, raise.eq_1 (run s), bind_assoc]
    refine congrArg (lift (run s) >>= ·) (funext fun c => ?_)
    cases c <;> rfl

/-- Where the body of a loop returns, the condition is not looked at again. -/
theorem raise_runWhile (test : Action Bool) (body : Action Completion) (rounds : Nat) :
    raise (runWhile test body rounds) = loop (lift test) (raise body) rounds := by
  induction rounds with
  | zero => rfl
  | succ rounds ih =>
    rw [runWhile, loop, raise_bind, ← ih]
    refine congrArg (lift test >>= ·) (funext fun b => ?_)
    cases b with
    | false => rfl
    | true =>
      simp only [if_true, raise_bind]
      rw [raise.eq_1 body, bind_assoc]
      refine congrArg (lift body >>= ·) (funext fun c => ?_)
      cases c <;> rfl

/-- A call yields what a `return` brings along, or the object that it sets up. -/
theorem lift_resultOf (f : Closure) (body : Action Completion) :
    lift (body >>= resultOf f) = (do
      let value ← landing (raise body)
      if f.isInitializer then lift (Action.getAt f.env 0 "this") else return value) := by
  funext m
  rw [lift_bind, EStateM.bind_apply, EStateM.bind_apply, landing, raise, EStateM.bind_apply]
  unfold lift resultOf
  cases body m with
  | error h m => rfl
  | ok c m => cases c <;> cases f.isInitializer <;> rfl

/-! ## The two evaluators do the same -/

/-- The two evaluators do the same with `depth` levels left. -/
structure Same (setting : Setting) (depth : Nat) : Prop where
  evaluate : ∀ env e, evaluate setting depth env e = lift (Machine.evaluate setting depth env e)
  call : ∀ callee arguments,
    call setting depth callee arguments = lift (Machine.call setting depth callee arguments)
  invoke : ∀ f arguments,
    invoke setting depth f arguments = lift (Machine.invoke setting depth f arguments)
  execute : ∀ env s, execute setting depth env s = raise (Machine.execute setting depth env s)

section
variable {setting : Setting} {depth : Nat} (h : Same setting depth)
include h

theorem evaluate_succ (env : Env) (e : Expr Label) :
    evaluate setting (depth + 1) env e = lift (Machine.evaluate setting (depth + 1) env e) := by
  unfold evaluate Machine.evaluate evaluateOuter
  cases e with
  | literal value => rfl
  | nameRef ref | thisRef ref | superRef ref method => rfl
  | assign ref value => simp only [h.evaluate, lift_bind, lift_pure]
  | unary op operand | binary left op right => simp only [h.evaluate, lift_bind]
  | logical left op right =>
    simp only [h.evaluate, lift_bind]
    refine congrArg _ (funext fun v => ?_)
    split <;> rfl
  | group inner => exact h.evaluate env inner
  | call callee paren arguments =>
    simp only [h.evaluate, lift_bind, lift_mapM]
    refine congrArg _ (funext fun v => congrArg _ (funext fun vs => ?_))
    cases v.callee? with
    | none => rfl
    | some callee =>
      dsimp only
      split
      · exact h.call callee vs
      · rfl
  | get object name =>
    simp only [h.evaluate, lift_bind]
    refine congrArg _ (funext fun v => ?_)
    cases v <;> rfl
  | set object name value =>
    simp only [h.evaluate, lift_bind]
    refine congrArg _ (funext fun v => ?_)
    cases v <;> simp only [lift_bind, lift_pure]
  | unknown form => rfl

theorem call_succ (callee : Callee) (arguments : List Value) :
    call setting (depth + 1) callee arguments =
      lift (Machine.call setting (depth + 1) callee arguments) := by
  unfold call Machine.call callOuter
  cases callee with
  | clock => rfl
  | function f => exact h.invoke f arguments
  | classOf c =>
    simp only [lift_bind]
    refine congrArg _ (funext fun object => ?_)
    cases c.initializer? with
    | none => rfl
    | some method => simp only [h.invoke, lift_bind, lift_pure]

theorem invoke_succ (f : Closure) (arguments : List Value) :
    invoke setting (depth + 1) f arguments =
      lift (Machine.invoke setting (depth + 1) f arguments) := by
  unfold invoke Machine.invoke invokeOuter
  simp only [h.execute, ← raise_runAll, lift_bind (Action.ofAccess _), lift_bind (Action.enter _ _),
    lift_resultOf]

theorem execute_succ (env : Env) (s : Stmt Label) :
    execute setting (depth + 1) env s = raise (Machine.execute setting (depth + 1) env s) := by
  unfold execute Machine.execute executeOuter
  cases s with
  | expression value | print value =>
    simp only [h.evaluate, raise_bind, raise_normal, bind_done]
  | var name initial =>
    cases initial <;> simp only [h.evaluate, raise_bind, raise_normal, bind_done]
  | block body => simp only [h.execute, raise_bind, raise_runAll]
  | ifThen condition body | ifElse condition body other =>
    simp only [h.evaluate, h.execute, raise_bind]
    refine congrArg _ (funext fun v => ?_)
    cases v.isTruthy <;> rfl
  | whileLoop condition body =>
    simp only [h.evaluate, h.execute, raise_runWhile, lift_bind, lift_pure]
  | function declaration => simp only [raise_bind, raise_normal, bind_done]
  | returnFrom keyword value =>
    cases value <;> simp only [h.evaluate, raise_bind, raise_returned]
  | classOf name superclass methods =>
    cases superclass with
    | none => simp only [raise_bind, raise_normal, bind_done]
    | some parent =>
      simp only [h.evaluate, raise_bind]
      refine congrArg _ (funext fun v => ?_)
      cases v with
      | classOf c => simp only [raise_bind, raise_normal, bind_done]
      | _ => rfl
  | unknown form => rfl

end

/-- **The evaluator in which a `return` jumps does the same as the one that hands it on**, whatever
nesting it is allowed, in every environment and on every machine. -/
theorem same (setting : Setting) (depth : Nat) : Same setting depth := by
  induction depth with
  | zero =>
    exact ⟨fun _ _ => by rw [evaluate, Machine.evaluate]; rfl,
      fun _ _ => by rw [call, Machine.call]; rfl, fun _ _ => by rw [invoke, Machine.invoke]; rfl,
      fun _ _ => by rw [execute, Machine.execute]; rfl⟩
  | succ depth ih => exact ⟨evaluate_succ ih, call_succ ih, invoke_succ ih, execute_succ ih⟩

end Jumping

/-! ## Outside functions nothing returns -/

/-- A `return` that breaks no rule stands in a function. -/
theorem Stmt.Ready.inside {Q : Demand Label} {around : Surroundings} {context : Context}
    {keyword : Token} {value : Option (Expr Label)}
    (h : (Stmt.returnFrom keyword value).Ready Q around context) : around.function ≠ .outside := by
  intro houtside
  have hgood := h.good
  rw [Stmt.visit, List.forall_mem_append] at hgood
  exact hgood.1 (.error ⟨.returnOutsideFunction, keyword⟩) (by simp [returnErrors, houtside])

/-- An action does not return; if it completes, then normally. -/
def Action.Normal (x : Action Completion) : Prop := ∀ m c m', x m = .ok c m' → c = .normal

namespace Action.Normal

theorem pure : Action.Normal (pure .normal) := by
  rintro m c m' ⟨⟩
  rfl

theorem throw (h : Halt) : Action.Normal (throw h) := by
  rintro m c m' ⟨⟩

theorem bind {x : Action α} {f : α → Action Completion} (hf : ∀ a, (f a).Normal) :
    Action.Normal (x >>= f) := by
  intro m c m' hran
  obtain ⟨a, m₁, _, hrest⟩ := EStateM.bind_eq_ok.mp hran
  exact hf a m₁ c m' hrest

theorem runAll {run : σ → Action Completion} {ss : List σ} (h : ∀ s ∈ ss, (run s).Normal) :
    (Machine.runAll run ss).Normal := by
  induction ss with
  | nil => exact .pure
  | cons s ss ih =>
    obtain ⟨hs, hss⟩ := List.forall_mem_cons.mp h
    intro m c m' hran
    obtain ⟨c₁, m₁, hrun, hrest⟩ := EStateM.bind_eq_ok.mp hran
    cases hs m c₁ m₁ hrun
    exact ih hss m₁ c m' hrest

theorem runWhile {test : Action Bool} {body : Action Completion} (h : body.Normal)
    (rounds : Nat) : (Machine.runWhile test body rounds).Normal := by
  induction rounds with
  | zero => exact .throw _
  | succ rounds ih =>
    refine .bind fun b => ?_
    cases b with
    | false => exact .pure
    | true =>
      intro m c m' hran
      obtain ⟨c₁, m₁, hrun, hrest⟩ := EStateM.bind_eq_ok.mp hran
      cases h m c₁ m₁ hrun
      exact ih m₁ c m' hrest

end Action.Normal

/-- Statements outside functions do not return, with `depth` levels left. -/
def ExecutesNormally (S : Setting) (Q : Demand Label) (depth : Nat) : Prop :=
  ∀ {around : Surroundings} {context : Context} {s : Stmt Label}, around.function = .outside →
    s.Ready Q around context → ∀ env, (execute S depth env s).Normal

section
variable {S : Setting} {Q : Demand Label} {depth : Nat}

theorem ExecutesNormally.all (h : ExecutesNormally S Q depth) {around : Surroundings}
    {context : Context} {ss : List (Stmt Label)} (houtside : around.function = .outside)
    (hss : Stmt.ReadyAll Q around context ss) (env : Env) :
    ∀ s ∈ ss, (execute S depth env s).Normal := by
  induction ss generalizing context with
  | nil => exact List.forall_mem_nil _
  | cons s ss ih =>
    obtain ⟨hs, hss⟩ := hss.cons
    exact List.forall_mem_cons.mpr ⟨h houtside hs env, ih hss⟩

theorem executesNormally_succ (h : ExecutesNormally S Q depth) :
    ExecutesNormally S Q (depth + 1) := by
  intro around context s houtside hs env
  unfold execute executeOuter
  cases s with
  | expression value => exact .bind fun _ => .pure
  | print value => exact .bind fun _ => .bind fun _ => .pure
  | var name initial =>
    cases initial with
    | none => exact .bind fun _ => .pure
    | some e => exact .bind fun _ => .bind fun _ => .pure
  | block body => exact .bind fun inner => .runAll (h.all houtside hs.block inner)
  | ifThen condition body =>
    refine .bind fun v => ?_
    split
    · exact h houtside hs.ifThen.2.1 env
    · exact .pure
  | ifElse condition body other =>
    obtain ⟨_, ⟨hbody, _⟩, hother, _⟩ := hs.ifElse
    refine .bind fun v => ?_
    split
    · exact h houtside hbody env
    · exact h houtside hother env
  | whileLoop condition body => exact .runWhile (h houtside hs.whileLoop.2.1 env) S.rounds
  | function declaration => exact .bind fun _ => .bind fun _ => .pure
  | returnFrom keyword value => exact absurd houtside hs.inside
  | classOf name superclass methods =>
    cases superclass with
    | none => exact .bind fun _ => .pure
    | some parent =>
      refine .bind fun v => ?_
      cases v with
      | classOf c => exact .bind fun _ => .pure
      | _ => exact .throw _
  | unknown form => exact .throw _

/-- **Outside functions nothing returns**: a statement that breaks no rule completes normally there,
if it completes. -/
theorem executesNormally (S : Setting) (Q : Demand Label) (depth : Nat) :
    ExecutesNormally S Q depth := by
  induction depth with
  | zero =>
    intro around context s _ _ env
    unfold execute
    exact .throw _
  | succ depth ih => exact executesNormally_succ ih

end

/-! ## Whole programs -/

namespace Jumping

/-- Where nothing returns, nothing jumps. -/
theorem raise_of_normal {x : Action Completion} (h : x.Normal) :
    raise x = lift (do let _ ← x) := by
  rw [lift_bind, raise]
  funext m
  rw [EStateM.bind_apply, EStateM.bind_apply, lift]
  cases hx : x m with
  | error e m' => rfl
  | ok c m' =>
    cases h m c m' hx
    rfl

/-- **A program runs in the same way if its returns jump**, and none of them is left uncaught. -/
theorem runProgram_eq {Q : Demand Label} {program : List (Stmt Label)}
    (hprogram : Stmt.ReadyAll Q ⟨.outside, .outside⟩ [] program) (S : Setting) (depth : Nat) :
    runProgram S depth program = lift (Machine.runProgram S depth program) := by
  have hexec : ExecutesNormally S Q depth := executesNormally S Q depth
  have hnormal := hexec.all rfl hprogram globalEnv
  unfold runProgram Machine.runProgram
  clear hprogram
  induction program with
  | nil => rfl
  | cons s ss ih =>
    obtain ⟨hs, hss⟩ := List.forall_mem_cons.mp hnormal
    show (execute S depth globalEnv s >>= fun _ => ss.forM _) = lift (_ >>= fun _ => ss.forM _)
    rw [lift_bind, ← ih hss, (same S depth).execute, raise_of_normal hs]

end Jumping
end LoxLang
