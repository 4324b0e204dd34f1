import LoxLang.Proofs.Computation
import LoxLang.Proofs.Machine.Evaluator
import LoxLang.Proofs.Syntax.Turn

/-! # Executing loops as they are meant

The evaluator to which that of the machine is compared, `turning`, takes the same step from one level
to the next, with one clause more: a turn of a loop (`Stmt.turn`) is executed, the body and then the
step, both in the environment of the loop.  So it executes a `for` statement as the loop that is
meant (`execute_turn`, `execute_loop`, `execute_primitiveFor`). -/

namespace LoxLang
namespace Machine

namespace Evaluator

section
variable (setting : Setting) (inner : Evaluator)

/-- Executes a statement, and the body and then the step of a turn, both where the turn stands. -/
def executeTurns (env : Env) : Stmt Label → Action Completion
  | .turn body step => runAll (fun s => inner.execute env s) [body, .expression step]
  | s => (next setting inner).execute env s

/-- A conditional is executed as one if it is no turn. -/
theorem executeTurns_ifElse (env : Env) {condition : Expr Label}
    (h : condition.isTurnMark = false) (body other : Stmt Label) :
    executeTurns setting inner env (.ifElse condition body other) =
      (next setting inner).execute env (.ifElse condition body other) := by
  unfold executeTurns
  split
  · rename_i heq
    cases heq
    cases h
  · rfl

/-- The evaluator that knows turns, with a number of levels of nesting left. -/
def turning : Nat → Evaluator
  | 0 => exhausted
  | depth + 1 => { next setting (turning depth) with
      execute := executeTurns setting (turning depth) }

end

/-! ## Loops -/

section
variable (setting : Setting) (depth : Nat)

/-- A turn executes the body and, unless that returns, evaluates the step, in one environment. -/
theorem execute_turn (env : Env) (body : Stmt Label) (step : Expr Label) :
    (turning setting (depth + 2)).execute env (.turn body step) = (do
      match ← (turning setting (depth + 1)).execute env body with
      | .normal =>
        let _ ← (turning setting depth).evaluate env step
        return .normal
      | .returned value => return .returned value) := by
  show runAll (fun s => (turning setting (depth + 1)).execute env s) [body, .expression step] = _
  simp only [runAll]
  refine congrArg _ (funext fun c => ?_)
  cases c with
  | normal =>
    show ((turning setting depth).evaluate env step >>= _) >>= _ = _
    rw [bind_assoc]
    rfl
  | returned value => rfl

/-- A loop without an initializer evaluates the condition, which is true if there is none, where it
stands, and there it executes the turn: that of the body and the step, or the body alone. -/
theorem execute_loop (env : Env) (condition : Option (Expr Label)) (step : Option (Expr Label))
    (body : Stmt Label) :
    (turning setting (depth + 1)).execute env (.primitiveFor none condition step body) =
      runWhile
        (return (← (turning setting depth).evaluate env
          (condition.getD (.literal (.bool true)))).isTruthy)
        ((turning setting depth).execute env (step.elim body fun step => .turn body step))
        setting.rounds := by
  cases step <;> rfl

/-- A loop with an initializer opens one scope, executes the initializer in it, and then the loop
without it. -/
theorem execute_primitiveFor (env : Env) (initial : Stmt Label) (condition : Option (Expr Label))
    (step : Option (Expr Label)) (body : Stmt Label) :
    (turning setting (depth + 1)).execute env (.primitiveFor (some initial) condition step body) =
      (do
        let scope ← Action.enter Bindings.empty env
        runAll (fun s => (turning setting depth).execute scope s)
          [initial, .primitiveFor none condition step body]) := rfl

end

end Evaluator

/-- Executes a program among the global variables, with each turn of a loop as it is meant. -/
def runTurning (setting : Setting) (depth : Nat) (program : List (Stmt Label)) : Action Unit :=
  program.forM fun s => do
    let _ ← (Evaluator.turning setting depth).execute globalEnv s

end Machine
end LoxLang
