import LoxLang.Diagnostic

/-! # Scope errors

What a well-formed program can still get wrong about its names and its jumps. -/

namespace LoxLang

/-- A rule about names and jumps that a program breaks. -/
inductive ScopeFault
  | alreadyDeclared
  | readInOwnInitializer
  | returnOutsideFunction
  | valueFromInitializer
  | thisOutsideClass
  | superOutsideClass
  | superWithoutSuperclass
  | inheritsFromItself
  deriving DecidableEq, Repr

/-- The report of a broken rule. -/
def ScopeFault.message : ScopeFault → String
  | alreadyDeclared => "Already a variable with this name in this scope."
  | readInOwnInitializer => "Can't read local variable in its own initializer."
  | returnOutsideFunction => "Can't return from top-level code."
  | valueFromInitializer => "Can't return a value from an initializer."
  | thisOutsideClass => "Can't use 'this' outside of a class."
  | superOutsideClass => "Can't use 'super' outside of a class."
  | superWithoutSuperclass => "Can't use 'super' in a class with no superclass."
  | inheritsFromItself => "A class can't inherit from itself."

/-- A broken rule and the token that breaks it. -/
structure ScopeError where
  fault : ScopeFault
  place : Token

/-- A scope error as it is reported. -/
def ScopeError.diagnostic (e : ScopeError) : Diagnostic := .scoping e.fault.message e.place

end LoxLang
