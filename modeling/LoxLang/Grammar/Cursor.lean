import LoxLang.Fault
import LoxLang.Grammar.SyntaxError
import LoxLang.Syntax

/-! # Reading tokens

A `Reader` reads part of a token list. It can take down a syntax error and go on, take one down
and give up, or stop for good because the tokens ended or nest too deep. Readers only ever drop
tokens from the front, and none drops the end token, so what a loop of readers reads is bounded by
the tokens that are left. -/

namespace LoxLang

/-- The tokens not yet read and the errors found so far. -/
structure Cursor where
  rest : List Token
  errors : List SyntaxError

/-- Why a reader gave no result. -/
inductive Interrupt
  /-- A syntax error, which the cursor has taken down. -/
  | syntaxError
  | fault (fault : Fault)
  deriving DecidableEq, Repr

/-- Reads part of a token list. -/
abbrev Reader := EStateM Interrupt Cursor

namespace Reader

variable {α : Type}

/-- Stops for good. -/
def stop (fault : Fault) : Reader α := throw (.fault fault)

/-- The next token, which stays. -/
def peek : Reader Token := fun s =>
  match s.rest with
  | [] => .error (.fault .outOfTokens) s
  | t :: _ => .ok t s

/-- Drops the next token. -/
def skip : Reader Unit := fun s => .ok () { s with rest := s.rest.tail }

/-- Takes down that a token breaks a rule. -/
def record (fault : SyntaxFault) (place : Token) : Reader Unit := fun s =>
  .ok () { s with errors := s.errors ++ [⟨fault, place⟩] }

/-- Takes down that the next token is not what is wanted, and gives up. -/
def fail (what : Expectation) : Reader α := do
  record (.expected what) (← peek)
  throw .syntaxError

/-- Takes the next token if it is of the kind asked for. -/
def accept? (wanted : Kind → Bool) : Reader (Option Token) := do
  let t ← peek
  if wanted t.kind then
    skip
    return some t
  else
    return none

/-- Whether the next token is of the given kind, which it then was. -/
def skipped (kind : Kind) : Reader Bool := do
  return (← accept? (· = kind)).isSome

/-- Whether the next token is of the given kind. -/
def sees (kind : Kind) : Reader Bool := do
  return (← peek).kind = kind

/-- Takes the next token, which has to be of the given kind. -/
def expect (kind : Kind) (what : Expectation) : Reader Token := do
  match ← accept? (· = kind) with
  | some t => return t
  | none => fail what

/-- The tokens that are left. -/
def upcoming : Reader (List Token) := fun s => .ok s.rest s

/-! ## Repetition

Each turn of a loop reads a token, so the tokens that are left when a loop begins can count its
turns: a loop that has taken as many turns has read them all, and looks past their end. -/

/-- Operands with operators between them, grouped to the left. -/
def leftChain (ops : Kind → Bool) (join : α → Token → α → α) (operand : Reader α) : Reader α := do
  more (← upcoming) (← operand)
where
  /-- Goes on while an operator follows. -/
  more : List Token → α → Reader α
    | [], _ => stop .outOfTokens
    | _ :: turns, left => do
      match ← accept? ops with
      | some op => more turns (join left op (← operand))
      | none => return left

/-- The number of parameters or arguments that there may be. -/
def maxItems : Nat := 255

/-- Items with commas between them, at least one. Each item beyond the limit is an error, but is
read. -/
def commaSeparated (excess : SyntaxFault) (item : Reader α) : Reader (List α) := do
  more (← upcoming) 0 []
where
  /-- Goes on behind `count` items, which are kept in reverse. -/
  more : List Token → Nat → List α → Reader (List α)
    | [], _, _ => stop .outOfTokens
    | _ :: turns, count, items => do
      if maxItems ≤ count then
        record excess (← peek)
      let items := (← item) :: items
      if ← skipped .comma then more turns (count + 1) items else return items.reverse

/-- Items up to where `done` says so; items without a result are left out. -/
def manyUntil (done : Reader Bool) (item : Reader (Option α)) : Reader (List α) := do
  more (← upcoming) []
where
  /-- Goes on behind items that are kept in reverse. -/
  more : List Token → List α → Reader (List α)
    | [], _ => stop .outOfTokens
    | _ :: turns, items => do
      if ← done then
        return items.reverse
      else
        match ← item with
        | some x => more turns (x :: items)
        | none => more turns items

/-! ## Recovery -/

/-- The tokens after a skipped token of kind `last`, from where a statement may begin: behind a
semicolon, before a word that begins a statement, or at the end. -/
def resumeAfter (last : Kind) : List Token → Option (List Token)
  | [] => none
  | t :: rest =>
    if t.kind = .eof ∨ last = .semicolon ∨ t.kind.startsStatement then some (t :: rest)
    else resumeAfter t.kind rest

/-- The tokens from which to go on after an error at the first of `tokens`, which is skipped. -/
def resume : List Token → Option (List Token)
  | [] => none
  | t :: rest => if t.kind = .eof then some (t :: rest) else resumeAfter t.kind rest

/-- Reads with `p`; after a syntax error, goes on where a statement may begin. -/
def recover (p : Reader α) : Reader (Option α) := fun s =>
  match p s with
  | .ok a s => .ok (some a) s
  | .error .syntaxError s =>
    match resume s.rest with
    | some rest => .ok none { s with rest := rest }
    | none => .error (.fault .outOfTokens) s
  | .error (.fault f) s => .error (.fault f) s

end Reader

end LoxLang
