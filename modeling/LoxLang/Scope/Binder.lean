import LoxLang.Fault
import LoxLang.Scope.Bindings
import LoxLang.Scope.ScopeError
import LoxLang.Scope.Table

/-! # Binding references to scopes

A pass over a program before it runs. It keeps the local scopes that are open at each point, finds
for every reference the innermost of them that declares its name, and records how many scopes lie
between; a name that no local scope declares is left to the global variables. On the way it
reports what the program gets wrong about its names and its jumps, and goes on. -/

namespace LoxLang
namespace Binder

/-- The function in whose body a point of a program lies. -/
inductive FunctionContext
  | outside
  | function
  | method
  | initializer
  deriving DecidableEq, Repr

/-- The class in whose body a point of a program lies. -/
inductive ClassContext
  | outside
  | plain
  /-- In a class that names a superclass. -/
  | derived
  deriving DecidableEq, Repr

/-- What surrounds a point of a program. -/
structure Surroundings where
  function : FunctionContext
  classBody : ClassContext

/-- What the pass keeps: the open local scopes, innermost first, each with the names declared in
it so far and whether they are defined yet, and what it has found. -/
structure State where
  scopes : List (Bindings Bool)
  errors : List ScopeError
  table : BindingTable

/-- A step of the pass. -/
abbrev Pass := EStateM Fault State

/-- Takes down that a token breaks a rule. -/
def report (fault : ScopeFault) (place : Token) : Pass Unit :=
  modify fun s => { s with errors := s.errors ++ [⟨fault, place⟩] }

/-- Says of a name in the innermost scope whether it is defined. Global names are not kept. -/
def mark (name : String) (defined : Bool) : Pass Unit :=
  modify fun s =>
    match s.scopes with
    | [] => s
    | scope :: outer => { s with scopes := scope.insert name defined :: outer }

/-- Declares a name, which may not be declared in the same local scope yet. -/
def declare (name : Token) : Pass Unit := do
  if (← get).scopes.head?.any (fun scope => scope.contains name.lexeme) then
    report .alreadyDeclared name
  mark name.lexeme false

/-- Declares a name and defines it at once. -/
def introduce (name : Token) : Pass Unit := do
  declare name
  mark name.lexeme true

/-- Does `body` in a new scope. -/
def inScope (body : Pass Unit) : Pass Unit := do
  modify fun s => { s with scopes := Bindings.empty :: s.scopes }
  body
  modify fun s => { s with scopes := s.scopes.tail }

/-- Records the scope of a reference, if a local scope declares its name. -/
def bind (around : Surroundings) (use : RefUse) (ref : Ref Label) : Pass Unit :=
  modify fun s =>
    match s.scopes.findIdx? (fun scope => scope.contains ref.name.lexeme) with
    | none => s
    | some hops =>
      { s with
        table := s.table.record ⟨ref.label, use, ref.name, hops, around.function = .outside⟩ }

/-- Binds a name that is read. It may not be one that the innermost scope has declared and not yet
defined. -/
def readName (around : Surroundings) (ref : Ref Label) : Pass Unit := do
  if (← get).scopes.head?.any (fun scope => scope.get? ref.name.lexeme == some false) then
    report .readInOwnInitializer ref.name
  bind around .read ref

/-- Binds the references of an expression. -/
def expression (around : Surroundings) : Nat → Expr Label → Pass Unit
  | 0, _ => throw .tooDeep
  | depth + 1, e => match e with
    | .literal _ => pure ()
    | .nameRef ref => readName around ref
    | .assign ref value => do
      expression around depth value
      bind around .assign ref
    | .unary _ operand => expression around depth operand
    | .binary left _ right | .logical left _ right => do
      expression around depth left
      expression around depth right
    | .group inner => expression around depth inner
    | .call callee _ arguments => do
      expression around depth callee
      arguments.forM (fun a => expression around depth a)
    | .get object _ => expression around depth object
    | .set object _ value => do
      expression around depth value
      expression around depth object
    | .thisRef ref =>
      if around.classBody = .outside then report .thisOutsideClass ref.name
      else bind around .this ref
    | .superRef ref _ => do
      match around.classBody with
      | .outside => report .superOutsideClass ref.name
      | .plain => report .superWithoutSuperclass ref.name
      | .derived => pure ()
      bind around .super ref
    | .unknown form => throw (.unknownExpression form)

/-- Binds the references of a function, given how to bind those of a statement in it. The
parameters and the body share one scope. -/
def function (around : Surroundings) (context : FunctionContext)
    (statement : Surroundings → Stmt Label → Pass Unit) (f : Function Label) : Pass Unit :=
  inScope do
    f.params.forM introduce
    f.body.forM (fun s => statement { around with function := context } s)

/-- Binds the references of a method in the scope of `this`. -/
def methods (around : Surroundings) (statement : Surroundings → Stmt Label → Pass Unit)
    (ms : List (Function Label)) : Pass Unit :=
  inScope do
    mark "this" true
    ms.forM fun m =>
      function around (if m.isInitializer then .initializer else .method)
        statement m

/-- Binds the references of a statement. -/
def statement : Nat → Surroundings → Stmt Label → Pass Unit
  | 0, _, _ => throw .tooDeep
  | depth + 1, around, s => match s with
    | .expression value | .print value => expression around depth value
    | .var name initial => do
      declare name
      initial.forM (fun e => expression around depth e)
      mark name.lexeme true
    | .block body => inScope (body.forM (fun s => statement depth around s))
    | .ifThen condition body | .whileLoop condition body => do
      expression around depth condition
      statement depth around body
    | .ifElse condition body other => do
      expression around depth condition
      statement depth around body
      statement depth around other
    | .function declaration => do
      introduce declaration.name
      function around .function (statement depth) declaration
    | .returnFrom keyword value => do
      if around.function = .outside then
        report .returnOutsideFunction keyword
      value.forM fun e => do
        if around.function = .initializer then
          report .valueFromInitializer keyword
        expression around depth e
    | .classOf name none ms => do
      introduce name
      methods { around with classBody := .plain } (statement depth) ms
    | .classOf name (some parent) ms => do
      introduce name
      if parent.name.lexeme = name.lexeme then
        report .inheritsFromItself parent.name
      readName around parent
      inScope do
        mark "super" true
        methods { around with classBody := .derived } (statement depth) ms
    | .unknown form => throw (.unknownStatement form)

end Binder

/-- What the pass over a program finds, up to the fault that stopped it if one did. -/
structure Bound where
  table : BindingTable
  errors : List ScopeError
  fault : Option Fault

/-- Binds the references of a program, adding to a table. Statements and expressions may nest
`depth` deep. -/
def bindProgram (depth : Nat) (program : List (Stmt Label)) (table : BindingTable) : Bound :=
  match program.forM (fun s => Binder.statement depth ⟨.outside, .outside⟩ s) ⟨[], [], table⟩ with
  | .ok _ s => ⟨s.table, s.errors, none⟩
  | .error f s => ⟨s.table, s.errors, some f⟩

end LoxLang
