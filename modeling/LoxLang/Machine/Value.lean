import LoxLang.Machine.Environment
import LoxLang.Syntax.Label

/-! # Values

What a program computes with: plain data, functions, classes and objects. Functions and classes
never change, so a value holds them whole, each with a number that tells it from all others;
what changes, the fields of objects, lies outside the values. -/

namespace LoxLang

/-- A function together with the environment in which it was made. -/
structure Closure where
  /-- Tells the function from all others. -/
  id : Nat
  declaration : Function Label
  env : Env
  /-- Whether a call yields the object that the function was taken from. -/
  isInitializer : Bool

/-- What one class statement contributes to a class. -/
structure ClassLevel where
  /-- Tells the class from all others. -/
  id : Nat
  name : String
  methods : Bindings Closure

/-- A class: its own level, and those of its superclasses, the nearest first. -/
structure ClassValue where
  own : ClassLevel
  above : List ClassLevel

/-- A value of a running program. -/
inductive Value
  | datum (d : Datum)
  /-- The function that reads the clock. -/
  | clock
  | function (f : Closure)
  | classOf (c : ClassValue)
  /-- The object with the given number, of the given class. -/
  | object (id : Nat) (c : ClassValue)

namespace Closure

/-- The number of arguments that a call needs. -/
def arity (f : Closure) : Nat := f.declaration.params.length

/-- The text of a function as a program prints it. -/
def display (f : Closure) : String := "<fn " ++ f.declaration.name.lexeme ++ ">"

end Closure

namespace ClassValue

/-- The levels of a class, its own first. -/
def lineage (c : ClassValue) : List ClassLevel := c.own :: c.above

/-- The direct superclass. -/
def superclass? (c : ClassValue) : Option ClassValue :=
  match c.above with
  | [] => none
  | nearest :: further => some ⟨nearest, further⟩

/-- The method of the first level that has one of the name. -/
def method? (name : String) (c : ClassValue) : Option Closure :=
  c.lineage.findSome? (fun level => level.methods.get? name)

/-- The method that sets up new objects. -/
def initializer? (c : ClassValue) : Option Closure := c.method? initializerName

/-- The number of arguments that making an object needs. -/
def arity (c : ClassValue) : Nat := (c.initializer?.map Closure.arity).getD 0

end ClassValue

namespace Value

/-- The value of what has no other. -/
def nil : Value := .datum .nil

/-- A truth value. -/
def bool (b : Bool) : Value := .datum (.bool b)

/-- A number. -/
def number (x : Float) : Value := .datum (.number x)

/-- Only nil and false count as false in a condition. -/
def isTruthy : Value → Bool
  | datum d => d.isTruthy
  | _ => true

/-- Data are equal as data; functions, classes and objects are equal to themselves. -/
def equal : Value → Value → Bool
  | datum d, datum e => d.equal e
  | clock, clock => true
  | function f, function g => f.id == g.id
  | classOf c, classOf d => c.own.id == d.own.id
  | object i _, object j _ => i == j
  | _, _ => false

/-- The text of a value as a program prints it. -/
def display : Value → String
  | datum d => d.display
  | clock => "<native fn>"
  | function f => f.display
  | classOf c => c.own.name
  | object _ c => c.own.name ++ " instance"

end Value

/-- What can be called. -/
inductive Callee
  | clock
  | function (f : Closure)
  | classOf (c : ClassValue)

/-- The number of arguments that a call needs. -/
def Callee.arity : Callee → Nat
  | clock => 0
  | function f => f.arity
  | classOf c => c.arity

/-- What a call of a value calls; data and objects cannot be called. -/
def Value.callee? : Value → Option Callee
  | clock => some .clock
  | function f => some (.function f)
  | classOf c => some (.classOf c)
  | datum _ | object _ _ => none

end LoxLang
