import LoxLang.Source.Piece

/-! # Tokens of a source text

The tokens of a source are the pieces that contribute one, and the faults are those that
contribute one, both in the order of the pieces. The end of the input is a token of its own, on
the last line. -/

namespace LoxLang

/-- Something wrong in the source text, and the line on which it ends. -/
structure LexicalError where
  fault : LexicalFault
  line : Int

namespace Piece

/-- The token that a piece contributes. -/
def token? (p : Piece) : Option Token :=
  match p.content with
  | .token kind literal => some ⟨kind, String.ofList p.text, literal, p.line⟩
  | _ => none

/-- The error that a piece contributes. -/
def error? (p : Piece) : Option LexicalError :=
  match p.content with
  | .wrong fault => some ⟨fault, p.line⟩
  | _ => none

end Piece

/-- What reading a source text yields. -/
structure Tokenized where
  tokens : List Token
  errors : List LexicalError

namespace Source

/-- The token for the end of the input. -/
def endToken (line : Int) : Token := ⟨.eof, "", .nil, line⟩

/-- The tokens and the errors of a source text; its first line is line 1. -/
def tokenize (source : String) : Tokenized :=
  let text := source.toList
  let found := pieces 1 text
  { tokens := found.filterMap Piece.token? ++ [endToken (1 + lineEnds text)]
    errors := found.filterMap Piece.error? }

end Source

end LoxLang
