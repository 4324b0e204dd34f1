import LoxLang.Fault
import LoxLang.Syntax

/-! # Programs as text

A program is rendered in prefix form, each node that has parts in parentheses. Rendering goes no
deeper into a program than its limit, and it stops at a node of no known form. -/

namespace LoxLang

variable {ι : Type}

/-- A node in parentheses: its head, then its parts, with blanks between. -/
def node (parts : List String) : String := "(" ++ " ".intercalate parts ++ ")"

/-- The text of a literal; strings stand in quotes. -/
def Datum.render : Datum → String
  | .text s => "\"" ++ s ++ "\""
  | d => d.display

/-- The text of an expression whose nodes nest at most `depth` deep. -/
def Expr.render : Nat → Expr ι → Except Fault String
  | 0, _ => throw .tooDeep
  | depth + 1, e => match e with
    | .literal value => pure value.render
    | .nameRef ref => pure ref.name.lexeme
    | .assign ref value => do
      return node ["=", ref.name.lexeme, ← value.render depth]
    | .unary op operand => do
      return node [op.lexeme, ← operand.render depth]
    | .binary left op right | .logical left op right => do
      let left ← left.render depth
      return node [op.lexeme, left, ← right.render depth]
    | .group inner => do
      return node ["group", ← inner.render depth]
    | .call callee _ arguments => do
      let arguments ← arguments.mapM (fun a => a.render depth)
      return node ("call" :: (← callee.render depth) :: arguments)
    | .get object name => do
      return node [".", ← object.render depth, name.lexeme]
    | .set object name value => do
      let object ← object.render depth
      return node ["=", object, name.lexeme, ← value.render depth]
    | .thisRef _ => pure "this"
    | .superRef _ method => pure (node ["super", method.lexeme])
    | .unknown form => throw (.unknownExpression form)

/-- The text of a function or method, given how its statements are rendered. -/
def FunctionOf.render {σ : Type} (statement : σ → Except Fault String) (head : String)
    (f : FunctionOf σ) : Except Fault String := do
  let params := "(" ++ " ".intercalate (f.params.map Token.lexeme) ++ ")"
  return node (head :: (f.name.lexeme ++ params) :: (← f.body.mapM statement))

/-- The text of a statement whose nodes nest at most `depth` deep. -/
def Stmt.render : Nat → Stmt ι → Except Fault String
  | 0, _ => throw .tooDeep
  | depth + 1, s => match s with
    | .expression value => do
      return node [";", ← value.render depth]
    | .print value => do
      return node ["print", ← value.render depth]
    | .var name none => pure (node ["var", name.lexeme])
    | .var name (some value) => do
      return node ["var", name.lexeme, "=", ← value.render depth]
    | .block body => do
      return node ("block" :: (← body.mapM (fun s => s.render depth)))
    | .ifThen condition body => do
      let condition ← condition.render depth
      return node ["if", condition, ← body.render depth]
    | .ifElse condition body other => do
      let condition ← condition.render depth
      let body ← body.render depth
      return node ["if-else", condition, body, ← other.render depth]
    | .whileLoop condition body => do
      let condition ← condition.render depth
      return node ["while", condition, ← body.render depth]
    | .function declaration => declaration.render (fun s => s.render depth) "fun"
    | .returnFrom _ none => pure (node ["return"])
    | .returnFrom _ (some value) => do
      return node ["return", ← value.render depth]
    | .classOf name superclass methods => do
      let parent := superclass.toList.map (fun ref => "< " ++ ref.name.lexeme)
      let methods ← methods.mapM (fun m => m.render (fun s => s.render depth) "method")
      return node ("class" :: name.lexeme :: (parent ++ methods))
    | .unknown form => throw (.unknownStatement form)

/-- The text of a program, a line for each of its statements. -/
def renderProgram (depth : Nat) (program : List (Stmt ι)) : Except Fault String := do
  return "\n".intercalate (← program.mapM (fun s => s.render depth))

end LoxLang
