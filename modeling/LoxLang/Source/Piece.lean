import LoxLang.Decimal.Nearest
import LoxLang.Token

/-! # The pieces of a source text

A source text is a sequence of pieces, each taken as long as it can be from where the piece
before it ended: the lexeme of a token, a single blank, a comment, or something that is wrong.
Nothing is left out and nothing is looked at twice: `pieces_text` says that the texts of the pieces
make up the source again. -/

namespace LoxLang

/-- What can be wrong with a piece of source text. -/
inductive LexicalFault
  | unexpectedCharacter
  | unterminatedString
  | unclosedComment
  deriving DecidableEq, Repr

/-- The report of a lexical fault. -/
def LexicalFault.message : LexicalFault → String
  | unexpectedCharacter => "Unexpected character."
  | unterminatedString => "Unterminated string."
  | unclosedComment => "Unclosed block comment."

/-- What a piece contributes. -/
inductive Content
  | token (kind : Kind) (literal : Datum)
  /-- A blank or a comment. -/
  | layout
  | wrong (fault : LexicalFault)

/-- A stretch of source text, what it contributes, and the line on which it ends. -/
structure Piece where
  text : List Char
  content : Content
  line : Int

namespace Source

/-- Digits of numbers are those of ASCII. -/
def isDigit (c : Char) : Bool := '0' ≤ c && c ≤ '9'

/-- Names begin with an ASCII letter or an underscore. -/
def isNameStart (c : Char) : Bool := ('a' ≤ c && c ≤ 'z') || ('A' ≤ c && c ≤ 'Z') || c == '_'

/-- Names go on with letters, underscores and digits. -/
def isNamePart (c : Char) : Bool := isNameStart c || isDigit c

/-- The blanks between tokens. -/
def isBlank (c : Char) : Bool := c == ' ' || c == '\r' || c == '\t' || c == '\n'

/-- The tokens that are always one character. -/
def punctuation? : Char → Option Kind
  | '(' => some .leftParen
  | ')' => some .rightParen
  | '{' => some .leftBrace
  | '}' => some .rightBrace
  | ',' => some .comma
  | '.' => some .dot
  | '-' => some .minus
  | '+' => some .plus
  | ';' => some .semicolon
  | '*' => some .star
  | _ => none

/-- The characters that are one token alone and another with an equals sign behind them. -/
def operator? : Char → Option (Kind × Kind)
  | '!' => some (.bang, .bangEqual)
  | '=' => some (.equal, .equalEqual)
  | '<' => some (.less, .lessEqual)
  | '>' => some (.greater, .greaterEqual)
  | _ => none

/-- The number of characters up to the end of a block comment, if it is closed: `taken` of them
before the given text, and `depth` further comments open inside it. The pairs `/*` and `*/` are
taken from the left. -/
def commentLength? (depth taken : Nat) : List Char → Option Nat
  | [] => none
  | '/' :: '*' :: rest => commentLength? (depth + 1) (taken + 2) rest
  | '*' :: '/' :: rest =>
    match depth with
    | 0 => some (taken + 2)
    | depth + 1 => commentLength? depth (taken + 2) rest
  | _ :: rest => commentLength? depth (taken + 1) rest

/-- The fraction of a number whose whole part has been read: a point and the digits behind it,
of which there must be one. -/
def fraction : List Char → List Char
  | '.' :: c :: rest => if isDigit c then '.' :: c :: rest.takeWhile isDigit else []
  | _ => []

/-- The first piece of the text `c :: rest`: what it contributes, and how much of `rest` belongs
to it. -/
def first (c : Char) (rest : List Char) : Content × Nat :=
  match punctuation? c, operator? c with
  | some kind, _ => (.token kind .nil, 0)
  | none, some (alone, withEqual) =>
    if rest.head? = some '=' then (.token withEqual .nil, 1) else (.token alone .nil, 0)
  | none, none =>
    if c = '/' then
      match rest with
      | '/' :: more => (.layout, 1 + (more.takeWhile (· ≠ '\n')).length)
      | '*' :: more =>
        match commentLength? 0 1 more with
        | some length => (.layout, length)
        | none => (.wrong .unclosedComment, rest.length)
      | _ => (.token .slash .nil, 0)
    else if isBlank c then
      (.layout, 0)
    else if c = '"' then
      let body := rest.takeWhile (· ≠ '"')
      match rest.drop body.length with
      | [] => (.wrong .unterminatedString, rest.length)
      | _ :: _ => (.token .text (.text (String.ofList body)), body.length + 1)
    else if isDigit c then
      let whole := rest.takeWhile isDigit
      let part := fraction (rest.drop whole.length)
      (.token .number (.number (readDecimal (c :: whole) (part.drop 1))),
        whole.length + part.length)
    else if isNameStart c then
      let name := rest.takeWhile isNamePart
      (.token ((Kind.keyword? (String.ofList (c :: name))).getD .identifier) .nil, name.length)
    else
      (.wrong .unexpectedCharacter, 0)

/-- The number of line ends in a text. -/
def lineEnds (text : List Char) : Nat := text.count '\n'

/-- The first piece of the text `c :: rest`, which begins on line `line`. -/
def firstPiece (line : Int) (c : Char) (rest : List Char) : Piece :=
  let found := first c rest
  let text := c :: rest.take found.2
  ⟨text, found.1, line + lineEnds text⟩

@[simp] theorem text_firstPiece (line : Int) (c : Char) (rest : List Char) :
    (firstPiece line c rest).text = c :: rest.take (first c rest).2 := rfl

@[simp] theorem content_firstPiece (line : Int) (c : Char) (rest : List Char) :
    (firstPiece line c rest).content = (first c rest).1 := rfl

/-- What the first piece leaves of `rest`. -/
theorem drop_firstPiece (line : Int) (c : Char) (rest : List Char) :
    rest.drop ((firstPiece line c rest).text.length - 1) = rest.drop (first c rest).2 := by
  rw [text_firstPiece, List.length_cons, List.length_take, Nat.add_sub_cancel]
  rcases Nat.le_total (first c rest).2 rest.length with hle | hle
  · rw [Nat.min_eq_left hle]
  · rw [Nat.min_eq_right hle, List.drop_length, List.drop_eq_nil_of_le hle]

/-- The pieces of what follows the first `skip` characters of a text, put behind those in `done`,
which are kept in reverse. The last of those reaches to the end of the skipped characters and ends
on line `line`. -/
def piecesOnto (done : List Piece) (line : Int) : Nat → List Char → List Piece
  | _, [] => done.reverse
  | skip + 1, _ :: rest => piecesOnto done line skip rest
  | 0, c :: rest =>
    let piece := firstPiece line c rest
    piecesOnto (piece :: done) piece.line (piece.text.length - 1) rest

/-- The pieces of a text that begins on line `line`. -/
def pieces (line : Int) (text : List Char) : List Piece := piecesOnto [] line 0 text

/-! ## Facts about pieces -/

theorem piecesOnto_drop (done : List Piece) (line : Int) (skip : Nat) (text : List Char) :
    piecesOnto done line skip text = piecesOnto done line 0 (text.drop skip) := by
  induction text generalizing skip with
  | nil => simp [piecesOnto]
  | cons c rest ih =>
    cases skip with
    | zero => rfl
    | succ skip => rw [piecesOnto, ih, List.drop_succ_cons]

theorem piecesOnto_eq (done : List Piece) (line : Int) (skip : Nat) (text : List Char) :
    piecesOnto done line skip text = done.reverse ++ piecesOnto [] line skip text := by
  induction text generalizing done line skip with
  | nil => simp [piecesOnto]
  | cons c rest ih =>
    cases skip with
    | zero =>
      simp only [piecesOnto]
      rw [ih, ih [_]]
      simp
    | succ skip => simp only [piecesOnto, ih done]

@[simp] theorem pieces_nil (line : Int) : pieces line [] = [] := rfl

/-- The first piece, then the pieces of what it leaves. -/
theorem pieces_cons (line : Int) (c : Char) (rest : List Char) :
    pieces line (c :: rest) =
      firstPiece line c rest ::
        pieces (firstPiece line c rest).line (rest.drop (first c rest).2) := by
  rw [← drop_firstPiece line]
  simp only [pieces, piecesOnto]
  rw [piecesOnto_eq, piecesOnto_drop]
  rfl

/-- Going through a text piece by piece. -/
@[elab_as_elim]
theorem pieces_induction {motive : Int → List Char → Prop} (nil : ∀ line, motive line [])
    (cons : ∀ line c rest,
      motive (firstPiece line c rest).line (rest.drop (first c rest).2) → motive line (c :: rest))
    (line : Int) (text : List Char) : motive line text := by
  induction h : text.length using Nat.strongRecOn generalizing line text with
  | ind n ih =>
    cases text with
    | nil => exact nil line
    | cons c rest =>
      refine cons line c rest (ih _ ?_ _ _ rfl)
      rw [← h, List.length_drop, List.length_cons]
      omega

/-- The texts of the pieces make up the source. -/
theorem pieces_text (line : Int) (text : List Char) :
    (pieces line text).flatMap Piece.text = text := by
  induction line, text using pieces_induction with
  | nil line => rfl
  | cons line c rest ih =>
    rw [pieces_cons, List.flatMap_cons, ih, text_firstPiece, List.cons_append,
      List.take_append_drop]

end Source

end LoxLang
