import LoxLang.Grammar.Expression

/-! # Programs in token lists

A program is a sequence of declarations. Inside a declaration that fails, reading goes on where
the next statement may begin, and the declaration is left out of the program. -/

namespace LoxLang
namespace Grammar

open Reader

/-- The declarations of a block, up to and with its closing brace. -/
def block (declaration : Reader (Option (Stmt Unit))) : Reader (List (Stmt Unit)) := do
  let body ← manyUntil (return (← sees .rightBrace) || (← sees .eof)) declaration
  let _ ← expect .rightBrace .blockEnd
  return body

/-- The parameters of a function, behind the opening parenthesis. -/
def parameters : Reader (List Token) := do
  if ← sees .rightParen then
    return []
  else
    commaSeparated .tooManyParameters (expect .identifier .parameterName)

/-- A function or method, from its name on. -/
def function (kind : CallableKind) (declaration : Reader (Option (Stmt Unit))) :
    Reader (Function Unit) := do
  let name ← expect .identifier (.callableName kind)
  let _ ← expect .leftParen (.parametersStart kind)
  let params ← parameters
  let _ ← expect .rightParen .parametersEnd
  let _ ← expect .leftBrace (.bodyStart kind)
  return ⟨name, params, ← block declaration⟩

/-- The superclass of a class, if one is named. -/
def superclass : Reader (Option (Ref Unit)) := do
  if ← skipped .less then
    return some (reference (← expect .identifier .superclassName))
  else
    return none

/-- A class, from its name on. -/
def classOf (declaration : Reader (Option (Stmt Unit))) : Reader (Stmt Unit) := do
  let name ← expect .identifier .className
  let parent ← superclass
  let _ ← expect .leftBrace .classBodyStart
  let methods ← manyUntil (return (← sees .rightBrace) || (← sees .eof))
    (some <$> function .method declaration)
  let _ ← expect .rightBrace .classBodyEnd
  return .classOf name parent methods

/-- A variable, from its name on. -/
def var (expression : Reader (Expr Unit)) : Reader (Stmt Unit) := do
  let name ← expect .identifier .variableName
  let initial ← if ← skipped .equal then some <$> expression else pure none
  let _ ← expect .semicolon .variableEnd
  return .var name initial

/-- An expression that stands as a statement. -/
def expressionStatement (expression : Reader (Expr Unit)) : Reader (Stmt Unit) := do
  let e ← expression
  let _ ← expect .semicolon .expressionEnd
  return .expression e

/-- An expression, unless a token of the given kind is next. -/
def unlessSees (kind : Kind) (expression : Reader (Expr Unit)) : Reader (Option (Expr Unit)) := do
  if ← sees kind then return none else some <$> expression

/-- The first clause of a `for` statement, with its semicolon. -/
def forInitial (expression : Reader (Expr Unit)) : Reader (Option (Stmt Unit)) := do
  if ← skipped .semicolon then return none
  else if ← skipped .varWord then some <$> var expression
  else some <$> expressionStatement expression

/-- A `for` statement, behind its first word. -/
def forLoop (expression : Reader (Expr Unit)) (statement : Reader (Stmt Unit)) :
    Reader (Stmt Unit) := do
  let _ ← expect .leftParen .forClausesStart
  let initial ← forInitial expression
  let condition ← unlessSees .semicolon expression
  let _ ← expect .semicolon .loopConditionEnd
  let step ← unlessSees .rightParen expression
  let _ ← expect .rightParen .forClausesEnd
  return .forLoop initial condition step (← statement)

/-- An `if` statement, behind its first word. An `else` belongs to the nearest `if`. -/
def conditional (expression : Reader (Expr Unit)) (statement : Reader (Stmt Unit)) :
    Reader (Stmt Unit) := do
  let _ ← expect .leftParen .ifConditionStart
  let condition ← expression
  let _ ← expect .rightParen .ifConditionEnd
  let body ← statement
  if ← skipped .elseWord then
    return .ifElse condition body (← statement)
  else
    return .ifThen condition body

/-- A `print` statement, behind its first word. -/
def print (expression : Reader (Expr Unit)) : Reader (Stmt Unit) := do
  let e ← expression
  let _ ← expect .semicolon .printEnd
  return .print e

/-- A `return` statement, behind its first word. -/
def returnFrom (keyword : Token) (expression : Reader (Expr Unit)) : Reader (Stmt Unit) := do
  let value ← unlessSees .semicolon expression
  let _ ← expect .semicolon .returnEnd
  return .returnFrom keyword value

/-- A `while` statement, behind its first word. -/
def whileLoop (expression : Reader (Expr Unit)) (statement : Reader (Stmt Unit)) :
    Reader (Stmt Unit) := do
  let _ ← expect .leftParen .whileConditionStart
  let condition ← expression
  let _ ← expect .rightParen .whileConditionEnd
  return .whileLoop condition (← statement)

mutual

/-- A declaration, or a statement; none if it fails. -/
def declaration : Nat → Reader (Option (Stmt Unit))
  | 0 => stop .tooDeep
  | depth + 1 => recover do
    let t ← peek
    match t.kind with
    | .classWord =>
      skip
      classOf (declaration depth)
    | .funWord =>
      skip
      return .function (← function .function (declaration depth))
    | .varWord =>
      skip
      var (expression depth)
    | _ => statement depth

/-- A statement that declares nothing. -/
def statement : Nat → Reader (Stmt Unit)
  | 0 => stop .tooDeep
  | depth + 1 => do
    let t ← peek
    match t.kind with
    | .forWord =>
      skip
      forLoop (expression depth) (statement depth)
    | .ifWord =>
      skip
      conditional (expression depth) (statement depth)
    | .printWord =>
      skip
      print (expression depth)
    | .returnWord =>
      skip
      returnFrom t (expression depth)
    | .whileWord =>
      skip
      whileLoop (expression depth) (statement depth)
    | .leftBrace =>
      skip
      return .block (← block (declaration depth))
    | _ => expressionStatement (expression depth)

end

/-- The declarations of a program, up to its end. -/
def program (depth : Nat) : Reader (List (Stmt Unit)) :=
  manyUntil (sees .eof) (declaration depth)

end Grammar

/-- What reading a token list yields. -/
structure Parsed where
  program : List (Stmt Unit)
  errors : List SyntaxError

/-- The program that a token list forms, and what is wrong with the list. Statements and
expressions may nest `depth` deep. -/
def parse (depth : Nat) (tokens : List Token) : Except Fault Parsed :=
  match Grammar.program depth ⟨tokens, []⟩ with
  | .ok program s => .ok ⟨program, s.errors⟩
  | .error (.fault f) _ => .error f
  | .error .syntaxError _ => .error .outOfTokens

end LoxLang
