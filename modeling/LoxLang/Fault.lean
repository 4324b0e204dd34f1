/-! # Faults

A fault stops a stage without being an error of the program: the program is nested too deep for
the machine, or a stage was handed something that the stage before it never makes. Faults are kept
apart from diagnostics, so that a statement about a run can say that none arises. -/

namespace LoxLang

/-- What can stop a stage. -/
inductive Fault
  /-- The program, or its calls, nest deeper than the limit. -/
  | tooDeep
  /-- A loop went round more often than the limit. -/
  | outOfRounds
  /-- The tokens ended without an end token. -/
  | outOfTokens
  /-- An expression of a form that is not known, with the name of the form. -/
  | unknownExpression (form : String)
  /-- A statement of a form that is not known, with the name of the form. -/
  | unknownStatement (form : String)
  /-- A binding counts more scopes than there are. -/
  | pastGlobalScope
  /-- A name has no value where one is due: a binding leads to a scope that lacks the name, or a
  parameter has no argument. -/
  | missingName (name : String)
  /-- A use of `super` was never bound. -/
  | unboundSuper
  /-- What `super` is bound to is no class, or what `this` is bound to is no object. -/
  | misplacedSuper
  deriving DecidableEq, Repr

/-- What is to be said about a fault besides its kind. -/
def Fault.message : Fault → String
  | unknownExpression form => "unknown expression " ++ form
  | unknownStatement form => "unknown statement " ++ form
  | pastGlobalScope => "resolved distance past global scope"
  | _ => ""

end LoxLang
