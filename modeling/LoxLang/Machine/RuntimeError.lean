import LoxLang.Diagnostic

/-! # Runtime errors

What a running program can get wrong. -/

namespace LoxLang

/-- Why a running program fails. -/
inductive RuntimeFault
  | undefinedVariable (name : String)
  | undefinedProperty (name : String)
  | operandNotNumber
  | operandsNotNumbers
  | operandsNotAddable
  | divisionByZero
  | unknownOperator (lexeme : String)
  | notCallable
  | wrongArgumentCount (wanted given : Nat)
  | propertyOfNoObject
  | fieldOfNoObject
  | superclassNotClass
  deriving DecidableEq, Repr

/-- The report of a failure. -/
def RuntimeFault.message : RuntimeFault → String
  | undefinedVariable name => "Undefined variable '" ++ name ++ "'."
  | undefinedProperty name => "Undefined property '" ++ name ++ "'."
  | operandNotNumber => "Operand must be a number."
  | operandsNotNumbers => "Operands must be numbers."
  | operandsNotAddable => "Operands must be two numbers or two strings."
  | divisionByZero => "Division by zero."
  | unknownOperator lexeme => "Unknown operator '" ++ lexeme ++ "'."
  | notCallable => "Can only call functions and classes."
  | wrongArgumentCount wanted given =>
    "Expected " ++ toString wanted ++ " arguments but got " ++ toString given ++ "."
  | propertyOfNoObject => "Only instances have properties."
  | fieldOfNoObject => "Only instances have fields."
  | superclassNotClass => "Superclass must be a class."

/-- Why a running program fails, and the token at which it does. -/
structure RuntimeError where
  fault : RuntimeFault
  place : Token

/-- A runtime error as it is reported. -/
def RuntimeError.diagnostic (e : RuntimeError) : Diagnostic := .runtime e.fault.message e.place

end LoxLang
