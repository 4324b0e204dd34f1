import LoxLang.Token

/-! # Programs

The expressions and statements of the language. A reference is a place where a name, `this` or
`super` is looked up or assigned to; each carries a mark of type `ι`. A program fresh from its
tokens has nothing to mark its references with (`ι` is `Unit`); before it is bound and run each
reference gets a label that no other reference has. -/

namespace LoxLang

/-- A place in a program where a name is looked up or assigned to: its mark, and the token of the
name or of the word `this` or `super`. -/
structure Ref (ι : Type) where
  label : ι
  name : Token

/-- An expression. -/
inductive Expr (ι : Type)
  | literal (value : Datum)
  | nameRef (ref : Ref ι)
  | assign (ref : Ref ι) (value : Expr ι)
  | unary (op : Token) (operand : Expr ι)
  | binary (left : Expr ι) (op : Token) (right : Expr ι)
  /-- The word `or` or `and`, whose right operand is evaluated only if it decides the result. -/
  | logical (left : Expr ι) (op : Token) (right : Expr ι)
  | group (inner : Expr ι)
  /-- A call; `paren` closes its arguments. -/
  | call (callee : Expr ι) (paren : Token) (arguments : List (Expr ι))
  | get (object : Expr ι) (name : Token)
  | set (object : Expr ι) (name : Token) (value : Expr ι)
  | thisRef (ref : Ref ι)
  | superRef (ref : Ref ι) (method : Token)
  /-- An expression of no known form; its form has the given name. -/
  | unknown (form : String)

/-- A function or method over statements of type `σ`. -/
structure FunctionOf (σ : Type) where
  name : Token
  params : List Token
  body : List σ

/-- The name of the method that sets up a new object. -/
def initializerName : String := "init"

/-- Whether a method is the one that sets up a new object. -/
def FunctionOf.isInitializer {σ : Type} (f : FunctionOf σ) : Bool :=
  f.name.lexeme == initializerName

/-- A statement. -/
inductive Stmt (ι : Type)
  | expression (value : Expr ι)
  | print (value : Expr ι)
  | var (name : Token) (initial : Option (Expr ι))
  | block (body : List (Stmt ι))
  | ifThen (condition : Expr ι) (body : Stmt ι)
  | ifElse (condition : Expr ι) (body other : Stmt ι)
  | whileLoop (condition : Expr ι) (body : Stmt ι)
  | function (declaration : FunctionOf (Stmt ι))
  | returnFrom (keyword : Token) (value : Option (Expr ι))
  | classOf (name : Token) (superclass : Option (Ref ι)) (methods : List (FunctionOf (Stmt ι)))
  /-- A statement of no known form; its form has the given name. -/
  | unknown (form : String)

/-- A function or method. -/
abbrev Function (ι : Type) := FunctionOf (Stmt ι)

namespace Stmt

/-- The meaning of a `for` statement. Its loop runs in a block of its own if it has an
initializer; the step runs after the body, in one block with it; without a condition it goes on
for ever. -/
def forLoop {ι : Type} (initial : Option (Stmt ι)) (condition : Option (Expr ι))
    (step : Option (Expr ι)) (body : Stmt ι) : Stmt ι :=
  let turn := match step with
    | some step => block [body, expression step]
    | none => body
  let loop := whileLoop (condition.getD (.literal (.bool true))) turn
  match initial with
  | some initial => block [initial, loop]
  | none => loop

end Stmt

end LoxLang
