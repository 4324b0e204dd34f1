import LoxLang.Machine.State

/-! # Execution

How expressions are evaluated and statements executed. Each form asks for the values and effects of
its parts (`evaluateOuter`, `callOuter`, `invokeOuter`, `executeOuter`); the evaluator supplies these
by calling itself with one level of nesting less, and a program that needs more levels than are left
stops with a fault. A level is one node of the tree or one call. A host that runs programs by
recursion spends its stack in frames instead, and how many of them a node or a call takes differs
from form to form: the limit says that there is one, not at which program it is reached. A `return`
is a way for a statement to complete, which the statements around it pass on up to the call. -/

namespace LoxLang
namespace Machine

/-- How a statement completes. -/
inductive Completion
  | normal
  | returned (value : Value)

/-- Executes statements in their order, up to the first that returns. -/
def runAll {σ : Type} (run : σ → Action Completion) : List σ → Action Completion
  | [] => pure .normal
  | s :: rest => do
    match ← run s with
    | .normal => runAll run rest
    | .returned value => return .returned value

/-- Executes `body` as long as `test` yields true, at most `rounds` times, or until it returns. -/
def runWhile (test : Action Bool) (body : Action Completion) : Nat → Action Completion
  | 0 => throw (.fault .outOfRounds)
  | rounds + 1 => do
    if ← test then
      match ← body with
      | .normal => runWhile test body rounds
      | .returned value => return .returned value
    else
      return .normal

/-- The value of a call. A call of a method that sets up objects yields the object, whatever it
returns; it is the one variable of the innermost scope around the method. -/
def resultOf (f : Closure) (completion : Completion) : Action Value :=
  if f.isInitializer then Action.getAt f.env 0 "this"
  else
    match completion with
    | .normal => pure .nil
    | .returned value => pure value

/-- The parameters of a function by name, each with its argument; there has to be one. -/
def matchArguments : List Token → List Value → Except Fault (List (String × Value))
  | [], _ => .ok []
  | p :: _, [] => .error (.missingName p.lexeme)
  | p :: params, a :: arguments => do
    return (p.lexeme, a) :: (← matchArguments params arguments)

/-- The functions of methods, all in one environment. A later method replaces an earlier one of
the same name. -/
def makeMethods (env : Env) : List (Function Label) → Action (Bindings Closure)
  | ms => do
    let pairs ← ms.mapM fun m => do
      let method : Closure := ⟨← Action.freshId, m, env, m.isInitializer⟩
      return (m.name.lexeme, method)
    return Bindings.ofList pairs

/-- Makes a class and the variable that holds it. Its methods stand in the environment of the
class statement, or, if it has a superclass, in a scope in it where `super` is the superclass. -/
def makeClass (env : Env) (name : Token) (parent : Option ClassValue)
    (methods : List (Function Label)) : Action Unit := do
  let methodEnv ← match parent with
    | some c => Action.enter (Bindings.empty.insert "super" (.classOf c)) env
    | none => pure env
  let methods ← makeMethods methodEnv methods
  let own : ClassLevel := ⟨← Action.freshId, name.lexeme, methods⟩
  let above := match parent with
    | some c => c.lineage
    | none => []
  Action.define env name.lexeme (.classOf ⟨own, above⟩)

variable (setting : Setting)

/-! ## One level

What each form of an expression or a statement asks for, and each call, with the evaluation and
execution of their parts left open. -/

section
variable (evaluate : Env → Expr Label → Action Value) (call : Callee → List Value → Action Value)
  (invoke : Closure → List Value → Action Value) (execute : Env → Stmt Label → Action Completion)

/-- The value of an expression in an environment. -/
def evaluateOuter (env : Env) : Expr Label → Action Value
  | .literal value => pure (.datum value)
  | .nameRef ref | .thisRef ref => setting.access.read env ref
  | .assign ref value => do
    let value ← evaluate env value
    setting.access.assign env ref value
    return value
  | .unary op operand => do
    Action.ofExcept ((← evaluate env operand).unary op)
  | .binary left op right => do
    let left ← evaluate env left
    let right ← evaluate env right
    Action.ofExcept (left.binary op right)
  | .logical left op right => do
    let left ← evaluate env left
    if left.isTruthy == (op.kind == .orWord) then return left
    else evaluate env right
  | .group inner => evaluate env inner
  | .call callee paren arguments => do
    let callee ← evaluate env callee
    let arguments ← arguments.mapM (fun a => evaluate env a)
    match callee.callee? with
    | none => Action.fail .notCallable paren
    | some callee =>
      if arguments.length = callee.arity then call callee arguments
      else Action.fail (.wrongArgumentCount callee.arity arguments.length) paren
  | .get object name => do
    match ← evaluate env object with
    | .object id c => Action.property id c name
    | _ => Action.fail .propertyOfNoObject name
  | .set object name value => do
    match ← evaluate env object with
    | .object id _ =>
      let value ← evaluate env value
      Action.setField id name.lexeme value
      return value
    | _ => Action.fail .fieldOfNoObject name
  | .superRef ref method => Action.superMethod setting.access env ref method
  | .unknown form => throw (.fault (.unknownExpression form))

/-- The value of a call with the right number of arguments. Calling a class makes an object and
sets it up. -/
def callOuter (callee : Callee) (arguments : List Value) : Action Value :=
  match callee with
  | .clock => Action.readClock setting
  | .function f => invoke f arguments
  | .classOf c => do
    let object ← Action.newObject c
    match c.initializer? with
    | some method =>
      let _ ← invoke (← Action.takeMethod object method) arguments
      return object
    | none => return object

/-- Executes the body of a function, in a new scope for its parameters inside the environment in
which it was made. -/
def invokeOuter (f : Closure) (arguments : List Value) : Action Value := do
  let vars ← Action.ofAccess (matchArguments f.declaration.params arguments)
  let env ← Action.enter (Bindings.ofList vars) f.env
  resultOf f (← runAll (fun s => execute env s) f.declaration.body)

/-- Executes a statement in an environment. -/
def executeOuter (env : Env) : Stmt Label → Action Completion
  | .expression value => do
    let _ ← evaluate env value
    return .normal
  | .print value => do
    Action.print (← evaluate env value)
    return .normal
  | .var name none => do
    Action.define env name.lexeme .nil
    return .normal
  | .var name (some initial) => do
    Action.define env name.lexeme (← evaluate env initial)
    return .normal
  | .block body => do
    let inner ← Action.enter Bindings.empty env
    runAll (fun s => execute inner s) body
  | .ifThen condition body => do
    if (← evaluate env condition).isTruthy then execute env body
    else return .normal
  | .ifElse condition body other => do
    if (← evaluate env condition).isTruthy then execute env body
    else execute env other
  | .whileLoop condition body =>
    runWhile (return (← evaluate env condition).isTruthy) (execute env body) setting.rounds
  | .function declaration => do
    let f : Closure := ⟨← Action.freshId, declaration, env, false⟩
    Action.define env declaration.name.lexeme (.function f)
    return .normal
  | .returnFrom _ none => return .returned .nil
  | .returnFrom _ (some value) => do
    return .returned (← evaluate env value)
  | .classOf name none methods => do
    makeClass env name none methods
    return .normal
  | .classOf name (some parent) methods => do
    match ← evaluate env (.nameRef parent) with
    | .classOf c =>
      makeClass env name (some c) methods
      return .normal
    | _ => Action.fail .superclassNotClass parent.name
  | .unknown form => throw (.fault (.unknownStatement form))

end

/-! ## All levels -/

mutual

/-- The value of an expression in an environment, with a number of levels of nesting left. -/
def evaluate : Nat → Env → Expr Label → Action Value
  | 0, _, _ => throw (.fault .tooDeep)
  | depth + 1, env, e => evaluateOuter setting (evaluate depth) (call depth) env e

/-- The value of a call with the right number of arguments. -/
def call : Nat → Callee → List Value → Action Value
  | 0, _, _ => throw (.fault .tooDeep)
  | depth + 1, callee, arguments => callOuter setting (invoke depth) callee arguments

/-- Executes the body of a function. -/
def invoke : Nat → Closure → List Value → Action Value
  | 0, _, _ => throw (.fault .tooDeep)
  | depth + 1, f, arguments => invokeOuter (execute depth) f arguments

/-- Executes a statement in an environment. -/
def execute : Nat → Env → Stmt Label → Action Completion
  | 0, _, _ => throw (.fault .tooDeep)
  | depth + 1, env, s => executeOuter setting (evaluate depth) (execute depth) env s

end

/-- Executes a program among the global variables. A statement that returns there ends only
itself. -/
def runProgram (depth : Nat) (program : List (Stmt Label)) : Action Unit :=
  program.forM fun s => do
    let _ ← execute setting depth globalEnv s

end Machine
end LoxLang
