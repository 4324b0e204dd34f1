import LoxLang.Source.Tokens

/-! # Diagnostics

What is reported to whoever runs a program. Each stage has errors of its own; here they are in
their common form, a message with the place it is about. -/

namespace LoxLang

/-- A report about a program, by the stage that makes it. -/
inductive Diagnostic
  /-- The source text has no tokens there. -/
  | lexical (message : String) (line : Int)
  /-- The tokens do not form a program there. -/
  | syntactic (message : String) (place : Token)
  /-- A name or a jump is used where it has no meaning. -/
  | scoping (message : String) (place : Token)
  /-- The running program failed there. -/
  | runtime (message : String) (place : Token)

namespace Diagnostic

/-- What the report says. -/
def message : Diagnostic → String
  | lexical m _ | syntactic m _ | scoping m _ | runtime m _ => m

/-- The token that the report is about, if it is about one. -/
def place? : Diagnostic → Option Token
  | lexical _ _ => none
  | syntactic _ t | scoping _ t | runtime _ t => some t

/-- The line that the report is about. -/
def line : Diagnostic → Int
  | lexical _ line => line
  | syntactic _ t | scoping _ t | runtime _ t => t.line

/-- Whether the report was made by the running program. -/
def isRuntime : Diagnostic → Bool
  | runtime _ _ => true
  | _ => false

/-- How a report about a token names its place. -/
def whereText (t : Token) : String :=
  if t.kind = .eof then " at end" else " at '" ++ t.lexeme ++ "'"

/-- The report in full. -/
def render (d : Diagnostic) : String :=
  match d with
  | lexical m line => "[line " ++ toString line ++ "] Error: " ++ m
  | syntactic m t | scoping m t =>
    "[line " ++ toString t.line ++ "] Error" ++ whereText t ++ ": " ++ m
  | runtime m t => m ++ "\n[line " ++ toString t.line ++ "]"

end Diagnostic

/-- A lexical error as it is reported. -/
def LexicalError.diagnostic (e : LexicalError) : Diagnostic := .lexical e.fault.message e.line

end LoxLang
