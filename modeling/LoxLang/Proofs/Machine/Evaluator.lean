import LoxLang.Machine.Evaluate

/-! # The step from one level to the next

The evaluator calls itself for the parts of a program, with one level of nesting less.
`Evaluator.next` is the step it takes from one level to the next, with the evaluator for the parts
left open (`machine_succ`).  What the step keeps, the evaluator keeps however many levels are left. -/

namespace LoxLang
namespace Machine

/-- How the parts of a program are executed. -/
structure Evaluator where
  evaluate : Env → Expr Label → Action Value
  call : Callee → List Value → Action Value
  invoke : Closure → List Value → Action Value
  execute : Env → Stmt Label → Action Completion

namespace Evaluator

/-- No level of nesting is left. -/
def exhausted : Evaluator where
  evaluate _ _ := throw (.fault .tooDeep)
  call _ _ := throw (.fault .tooDeep)
  invoke _ _ := throw (.fault .tooDeep)
  execute _ _ := throw (.fault .tooDeep)

section
variable (setting : Setting)

/-- The evaluator with one more level of nesting than `inner`, which is for the parts. -/
def next (inner : Evaluator) : Evaluator where
  evaluate := evaluateOuter setting inner.evaluate inner.call
  call := callOuter setting inner.invoke
  invoke := invokeOuter inner.execute
  execute := executeOuter setting inner.evaluate inner.execute

/-- The evaluator of the machine, with a number of levels of nesting left. -/
def machine (depth : Nat) : Evaluator where
  evaluate := Machine.evaluate setting depth
  call := Machine.call setting depth
  invoke := Machine.invoke setting depth
  execute := Machine.execute setting depth

theorem machine_zero : machine setting 0 = exhausted := rfl

/-- The machine takes the step from each level to the next. -/
theorem machine_succ (depth : Nat) :
    machine setting (depth + 1) = next setting (machine setting depth) := rfl

end

end Evaluator

end Machine
end LoxLang
