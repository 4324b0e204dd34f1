import LoxLang.Diagnostic

/-! # Syntax errors

The places of the grammar where a token list can fail to be a program, and the three rules that
are not about what comes next. -/

namespace LoxLang

/-- The two things that are declared by a name, parameters and a body. -/
inductive CallableKind
  | function
  | method
  deriving DecidableEq, Repr

namespace CallableKind

/-- The name of the kind. -/
def name : CallableKind → String
  | function => "function"
  | method => "method"

end CallableKind

/-- What the grammar wants where it finds something else. -/
inductive Expectation
  | className
  | superclassName
  | classBodyStart
  | classBodyEnd
  | callableName (kind : CallableKind)
  | parametersStart (kind : CallableKind)
  | parameterName
  | parametersEnd
  | bodyStart (kind : CallableKind)
  | variableName
  | variableEnd
  | forClausesStart
  | loopConditionEnd
  | forClausesEnd
  | ifConditionStart
  | ifConditionEnd
  | printEnd
  | returnEnd
  | whileConditionStart
  | whileConditionEnd
  | blockEnd
  | expressionEnd
  | propertyName
  | argumentsEnd
  | superDot
  | superMethodName
  | groupEnd
  | expression
  deriving DecidableEq, Repr

namespace Expectation

/-- The description of what is wanted. -/
def describe : Expectation → String
  | className => "class name"
  | superclassName => "superclass name"
  | classBodyStart => "'\x7b' before class body"
  | classBodyEnd => "'\x7d' after class body"
  | callableName kind => kind.name ++ " name"
  | parametersStart kind => "'(' after " ++ kind.name ++ " name"
  | parameterName => "parameter name"
  | parametersEnd => "')' after parameters"
  | bodyStart kind => "'\x7b' before " ++ kind.name ++ " body"
  | variableName => "variable name"
  | variableEnd => "';' after variable declaration"
  | forClausesStart => "'(' after 'for'"
  | loopConditionEnd => "';' after loop condition"
  | forClausesEnd => "')' after for clauses"
  | ifConditionStart => "'(' after 'if'"
  | ifConditionEnd => "')' after if condition"
  | printEnd => "';' after value"
  | returnEnd => "';' after return value"
  | whileConditionStart => "'(' after 'while'"
  | whileConditionEnd => "')' after condition"
  | blockEnd => "'\x7d' after block"
  | expressionEnd => "';' after expression"
  | propertyName => "property name after '.'"
  | argumentsEnd => "')' after arguments"
  | superDot => "'.' after 'super'"
  | superMethodName => "superclass method name"
  | groupEnd => "')' after expression"
  | expression => "expression"

end Expectation

/-- A rule of the grammar that a token list breaks. -/
inductive SyntaxFault
  | expected (what : Expectation)
  | tooManyParameters
  | tooManyArguments
  /-- The left side of an assignment is neither a name nor a property. -/
  | invalidTarget
  deriving DecidableEq, Repr

/-- The report of a broken rule. -/
def SyntaxFault.message : SyntaxFault → String
  | expected what => "Expect " ++ what.describe ++ "."
  | tooManyParameters => "Can't have more than 255 parameters."
  | tooManyArguments => "Can't have more than 255 arguments."
  | invalidTarget => "Invalid assignment target."

/-- A broken rule and the token at which it is noticed. -/
structure SyntaxError where
  fault : SyntaxFault
  place : Token

/-- A syntax error as it is reported. -/
def SyntaxError.diagnostic (e : SyntaxError) : Diagnostic := .syntactic e.fault.message e.place

end LoxLang
