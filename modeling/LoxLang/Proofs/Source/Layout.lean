import LoxLang.Proofs.Source.LexicalGrammar

/-! # Layout

What stands between tokens says nothing.  Blanks, line comments that a line end ends, and closed
block comments are pieces of their own whatever follows them, so a text behind them has the pieces
that it has alone, on later lines (`tokenize_append_layout`).

And one blank between two tokens is enough: a lexeme with a blank behind it is the longest at its
place, because a string is the only lexeme with blanks inside and ends at its second quote.  So the
lexemes of a source, written out with single blanks between them, are read as the same tokens again
(`tokenize_writtenOut`). -/

namespace LoxLang
namespace Source

/-! ## What layout is -/

/-- Blanks, line comments with the line ends that end them, and closed block comments. -/
inductive Layout : List Char → Prop
  | nil : Layout []
  | blank {c : Char} {gap : List Char} (hc : c ∈ [' ', '\r', '\t', '\n']) (h : Layout gap) :
      Layout (c :: gap)
  | lineComment {body gap : List Char} (hbody : '\n' ∉ body) (h : Layout gap) :
      Layout ('/' :: '/' :: body ++ '\n' :: gap)
  | blockComment {text gap : List Char} (htext : IsBlockComment text) (h : Layout gap) :
      Layout (text ++ gap)

section
variable {line : Int} {text gap more : List Char} {ps : List Piece}

/-- A text with a division behind a piece that is layout. -/
theorem Splits.layout (hform : ∀ behind, Form .layout text behind)
    (h : ∃ ls, Splits (line + lineEnds text) (gap ++ more) (ls ++ ps) ∧
      ∀ p ∈ ls, p.content = .layout) :
    ∃ ls, Splits line (text ++ gap ++ more) (ls ++ ps) ∧ ∀ p ∈ ls, p.content = .layout := by
  obtain ⟨ls, hsplits, hls⟩ := h
  refine ⟨⟨text, .layout, line + lineEnds text⟩ :: ls, ?_, ?_⟩
  · rw [List.append_assoc]
    exact .cons (hform _) hsplits
  · rw [List.forall_mem_cons]
    exact ⟨rfl, hls⟩

/-- Layout divides into pieces that contribute nothing, whatever stands behind it. -/
theorem Layout.splits (h : Layout gap) (line : Int) (hmore : Splits (line + lineEnds gap) more ps) :
    ∃ ls, Splits line (gap ++ more) (ls ++ ps) ∧ ∀ p ∈ ls, p.content = .layout := by
  induction h generalizing line with
  | nil =>
    rw [lineEnds, List.count_nil, Int.natCast_zero, Int.add_zero] at hmore
    exact ⟨[], hmore, List.forall_mem_nil _⟩
  | @blank c gap hc h ih =>
    have hform : ∀ behind, Form .layout [c] behind := fun _ => .blank hc
    refine Splits.layout hform (ih _ ?_)
    rwa [Int.add_assoc, ← Int.natCast_add, ← lineEnds_append]
  | @lineComment body gap hbody h ih =>
    -- the line end behind the comment is a blank
    have hend : Splits (line + lineEnds ('/' :: '/' :: body) + lineEnds ['\n'] + lineEnds gap) more
        ps := by
      rw [Int.add_assoc, Int.add_assoc, ← Int.natCast_add, ← lineEnds_append, ← Int.natCast_add,
        ← lineEnds_append]
      exact hmore
    have hform : ∀ behind, Form .layout ['\n'] behind := fun _ => .blank (by decide)
    obtain ⟨ls, hsplits, hls⟩ := Splits.layout hform (ih _ hend)
    refine ⟨⟨'/' :: '/' :: body, .layout, line + lineEnds ('/' :: '/' :: body)⟩ :: ls, ?_, ?_⟩
    · have hcomment := Splits.cons (.lineComment hbody (.inr rfl)) hsplits
      simpa using hcomment
    · rw [List.forall_mem_cons]
      exact ⟨rfl, hls⟩
  | @blockComment text gap htext h ih =>
    refine Splits.layout (fun _ => .blockComment htext) (ih _ ?_)
    rwa [Int.add_assoc, ← Int.natCast_add, ← lineEnds_append]

end

theorem filterMap_token?_layout {ls : List Piece} (h : ∀ p ∈ ls, p.content = .layout) :
    ls.filterMap Piece.token? = [] :=
  List.filterMap_eq_nil_iff.mpr fun p hp => by rw [Piece.token?, h p hp]

theorem filterMap_error?_layout {ls : List Piece} (h : ∀ p ∈ ls, p.content = .layout) :
    ls.filterMap Piece.error? = [] :=
  List.filterMap_eq_nil_iff.mpr fun p hp => by rw [Piece.error?, h p hp]

/-- A text behind layout has its tokens and errors further down. -/
theorem tokenize_layout {gap : String} (h : Layout gap.toList) (more : String) :
    (tokenize (gap ++ more)).tokens =
        (tokenize more).tokens.map (Token.down (lineEnds gap.toList)) ∧
      (tokenize (gap ++ more)).errors =
        (tokenize more).errors.map (LexicalError.down (lineEnds gap.toList)) := by
  obtain ⟨ls, hsplits, hls⟩ := h.splits 1 (splits_pieces _ more.toList)
  have hpieces : pieces 1 (gap ++ more).toList =
      ls ++ (pieces 1 more.toList).map (Piece.down (lineEnds gap.toList)) := by
    rw [← pieces_down, String.toList_append, ← hsplits.eq_pieces]
  have hend : endToken (1 + lineEnds (gap ++ more).toList) =
      (endToken (1 + lineEnds more.toList)).down (lineEnds gap.toList) := by
    rw [String.toList_append, lineEnds_append]
    simp only [endToken, Token.down, Token.mk.injEq, true_and]
    omega
  refine ⟨?_, ?_⟩
  · rw [tokens_eq, tokens_eq, tokensBeforeEnd, hpieces, List.filterMap_append,
      filterMap_token?_layout hls, List.nil_append, Piece.filterMap_token?_down, hend,
      List.map_append]
    rfl
  · show (pieces 1 _).filterMap Piece.error? = _
    rw [hpieces, List.filterMap_append, filterMap_error?_layout hls, List.nil_append,
      Piece.filterMap_error?_down]
    rfl

/-- **Layout between tokens is transparent, and reading a source is compositional.**  A text in
which every string and every comment is closed, a line end, any layout, and another text have the
tokens of the one text, without that for its end, and then those of the other, and the errors of the
one and then those of the other: all that comes from the other text is as many lines further down as
there are line ends before it, and is otherwise as it was. -/
theorem tokenize_append_layout {source gap : String} (h : Closed source) (hgap : Layout gap.toList)
    (more : String) :
    (tokenize (source ++ "\n" ++ gap ++ more)).tokens =
        tokensBeforeEnd source ++
          (tokenize more).tokens.map (Token.down (lineEnds (source ++ "\n" ++ gap).toList)) ∧
      (tokenize (source ++ "\n" ++ gap ++ more)).errors =
        (tokenize source).errors ++ (tokenize more).errors.map
          (LexicalError.down (lineEnds (source ++ "\n" ++ gap).toList)) := by
  obtain ⟨htokens, herrors⟩ := tokenize_append_newline h (gap ++ more)
  obtain ⟨htokens', herrors'⟩ := tokenize_layout hgap more
  have hlines : (lineEnds (source ++ "\n" ++ gap).toList : Int) =
      linesOf source + lineEnds gap.toList := by
    rw [String.toList_append, String.toList_append, lineEnds_append, lineEnds_append]
    rfl
  rw [← String.append_assoc] at htokens herrors
  refine ⟨?_, ?_⟩
  · rw [htokens, htokens', List.map_map, hlines]
    simp only [Function.comp_def, Token.down_down]
  · rw [herrors, herrors', List.map_map, hlines]
    simp only [Function.comp_def, LexicalError.down_down]

/-- A comment may hold other comments, and stars and slashes that open and close nothing. -/
theorem layout_nested : Layout " /* a /*/ b */ **/\t// c\r\n\n".toList := by
  have hinner : Balanced (marksOf " a /*/ b */ *".toList) :=
    .other _ <| .other _ <| .other _ <|
      .nested (.other _ <| .other _ <| .other _ <| .other _ .nil) <| .other _ <| .other _ .nil
  have htext : IsBlockComment "/* a /*/ b */ **/".toList := ⟨_, rfl, hinner⟩
  have hbody : '\n' ∉ " c\r".toList := by decide
  exact .blank (by decide) <| .blockComment htext <| .blank (by decide) <|
    .lineComment hbody <| .blank (by decide) .nil

theorem tokenize_append_layout_nested :
    (Closed "print $1" ∧ Layout " /* a /*/ b */ **/\t// c\r\n\n".toList) ∧
      (tokenize ("print $1" ++ "\n" ++ " /* a /*/ b */ **/\t// c\r\n\n" ++ "\n; \"")).tokens =
        tokensBeforeEnd "print $1" ++ (tokenize "\n; \"").tokens.map (Token.down
          (lineEnds ("print $1" ++ "\n" ++ " /* a /*/ b */ **/\t// c\r\n\n").toList)) ∧
      (tokenize ("print $1" ++ "\n" ++ " /* a /*/ b */ **/\t// c\r\n\n" ++ "\n; \"")).errors =
        (tokenize "print $1").errors ++ (tokenize "\n; \"").errors.map (LexicalError.down
          (lineEnds ("print $1" ++ "\n" ++ " /* a /*/ b */ **/\t// c\r\n\n").toList)) := by
  have hclosed : Closed "print $1" := by decide +kernel
  exact ⟨⟨hclosed, layout_nested⟩, tokenize_append_layout hclosed layout_nested _⟩

/-! ## One blank between tokens -/

/-- A text is at its end, or goes on with a blank. -/
def EndOrBlank (text : List Char) : Prop := text = [] ∨ text.head? = some ' '

section
variable {c : Char} {text behind : List Char} {kind : Kind} {literal : Datum}

/-- What no blank belongs to stops at a blank. -/
theorem takeWhile_endOrBlank {p : Char → Bool} {taken : List Char} (hp : p ' ' = false)
    (htaken : ∀ d ∈ taken, p d) (h : EndOrBlank behind) :
    (taken ++ behind).takeWhile p = taken := by
  rw [List.takeWhile_append_of_pos htaken]
  cases behind with
  | nil => exact List.append_nil taken
  | cons b behind =>
    obtain rfl : b = ' ' := by simpa [EndOrBlank] using h
    simp [hp]

theorem fraction_endOrBlank (h : EndOrBlank behind) : fraction behind = [] := by
  cases behind with
  | nil => rfl
  | cons b behind =>
    obtain rfl : b = ' ' := by simpa [EndOrBlank] using h
    rfl

/-- A lexeme with a blank behind it begins no comment, because no lexeme does. -/
theorem Lexeme.not_beginsComment_append (h : Lexeme text kind literal) (hend : EndOrBlank behind) :
    ¬ BeginsComment (text ++ behind) := by
  match text, h with
  | [c], h =>
    cases behind with
    | nil => exact h.not_beginsComment
    | cons b behind =>
      obtain rfl : b = ' ' := by simpa [EndOrBlank] using hend
      rintro (⟨_, heq⟩ | ⟨_, heq⟩) <;> simp at heq
  | c :: d :: rest, h =>
    intro hcomment
    refine h.not_beginsComment ?_
    simpa [BeginsComment] using hcomment

/-- What is read at a lexeme with a blank behind it is the lexeme, and no more. -/
theorem Lexeme.first_endOrBlank (h : Lexeme (c :: text) kind literal) (hend : EndOrBlank behind) :
    first c (text ++ behind) = (.token kind literal, text.length) := by
  have hcomment := h.not_beginsComment_append hend
  generalize hwhole : c :: text = whole at h
  cases h with
  | punctuation h =>
    cases hwhole
    exact first_punctuation h
  | alone h =>
    cases hwhole
    have hequal : ([] ++ behind).head? ≠ some '=' := by
      rcases hend with rfl | hblank
      · decide
      · rw [List.nil_append, hblank]
        decide
    rw [first_operator h, if_neg hequal]
    rfl
  | withEqual h =>
    cases hwhole
    exact first_operator h _
  | slash =>
    cases hwhole
    exact first_slash hcomment
  | @text body h =>
    cases hwhole
    rw [List.append_assoc, List.length_append]
    exact first_quote_closed h behind
  | whole hc h =>
    cases hwhole
    rw [first_digit hc, takeWhile_endOrBlank rfl h hend, List.drop_left, fraction_endOrBlank hend]
    rfl
  | @fraction _ d digits part hc h hd hpart =>
    cases hwhole
    have hdigits : (digits ++ '.' :: d :: part ++ behind).takeWhile isDigit = digits := by
      rw [List.append_assoc, List.takeWhile_append_of_pos h]
      simp [isDigit]
    have hread : Source.fraction ('.' :: d :: part ++ behind) = '.' :: d :: part := by
      show (if isDigit d then '.' :: d :: (part ++ behind).takeWhile isDigit else []) = _
      rw [if_pos hd, takeWhile_endOrBlank rfl hpart hend]
    rw [first_digit hc, hdigits, List.append_assoc, List.drop_left, hread, List.length_append]
    rfl
  | word hc h =>
    cases hwhole
    rw [first_name hc, takeWhile_endOrBlank rfl h hend]

/-- A lexeme with a blank behind it is a piece alone. -/
theorem Lexeme.form_endOrBlank (h : Lexeme text kind literal) (hend : EndOrBlank behind) :
    Form (.token kind literal) text behind := by
  cases text with
  | nil => cases h
  | cons c text =>
    have hform := (formed c (text ++ behind)).2
    rwa [h.first_endOrBlank hend, List.take_left, List.drop_left] at hform

end

/-! ## Writing tokens out -/

/-- A token without its line. -/
def unplaced (t : Token) : Kind × String × Datum := (t.kind, t.lexeme, t.literal)

/-- The texts of tokens with single blanks between them. -/
def writtenOut (ts : List Token) : String := " ".intercalate (ts.map Token.lexeme)

/-- The text of a token is a lexeme of its kind and its literal. -/
def IsLexeme (t : Token) : Prop := Lexeme t.lexeme.toList t.kind t.literal

/-- The tokens of a source are lexemes of it. -/
theorem isLexeme_of_mem {source : String} {t : Token} (ht : t ∈ tokensBeforeEnd source) :
    IsLexeme t := by
  obtain ⟨p, hp, htoken⟩ := List.mem_filterMap.mp ht
  obtain ⟨before, after, hps⟩ := List.append_of_mem hp
  have hform := (splits_pieces 1 source.toList).form before p after hps
  obtain ⟨text, content, line⟩ := p
  cases content with
  | token kind literal =>
    cases htoken
    cases hform with
    | token hlexeme => simpa [IsLexeme] using hlexeme
  | layout | wrong fault => cases htoken

theorem toList_writtenOut_cons (t u : Token) (ts : List Token) :
    (writtenOut (t :: u :: ts)).toList =
      t.lexeme.toList ++ ' ' :: (writtenOut (u :: ts)).toList := by
  rw [writtenOut, List.map_cons, List.map_cons, String.intercalate_cons_cons, String.toList_append,
    String.toList_append, List.append_assoc]
  rfl

/-- A division into tokens and layout that shows the given tokens, on whatever lines. -/
def Shows (line : Int) (text : List Char) (ts : List Token) : Prop :=
  ∃ ps, Splits line text ps ∧ ps.filterMap Piece.error? = [] ∧
    (ps.filterMap Piece.token?).map unplaced = ts.map unplaced

/-- A lexeme and a blank, or the end, in front of a text. -/
theorem Shows.cons {line : Int} {t : Token} {behind : List Char} {ts : List Token}
    (ht : IsLexeme t) (hend : EndOrBlank behind)
    (h : Shows (line + lineEnds t.lexeme.toList) behind ts) :
    Shows line (t.lexeme.toList ++ behind) (t :: ts) := by
  obtain ⟨ps, hsplits, herrors, htokens⟩ := h
  refine ⟨_, .cons (ht.form_endOrBlank hend) hsplits, ?_, ?_⟩
  · rw [List.filterMap_cons_none rfl, herrors]
  · simp [Piece.token?, unplaced, htokens]

theorem Shows.blank {line : Int} {text : List Char} {ts : List Token} (h : Shows line text ts) :
    Shows line (' ' :: text) ts := by
  obtain ⟨ps, hsplits, herrors, htokens⟩ := h
  have hform : Form .layout [' '] text := .blank (by decide)
  refine ⟨_, .cons hform (by simpa [lineEnds] using hsplits), ?_, ?_⟩
  · rw [List.filterMap_cons_none rfl, herrors]
  · rw [List.filterMap_cons_none rfl, htokens]

/-- Lexemes with single blanks between them divide into themselves and the blanks. -/
theorem shows_writtenOut {ts : List Token} (h : ∀ t ∈ ts, IsLexeme t) (line : Int) :
    Shows line (writtenOut ts).toList ts := by
  induction ts generalizing line with
  | nil => exact ⟨[], .nil line, rfl, rfl⟩
  | cons t ts ih =>
    rw [List.forall_mem_cons] at h
    cases ts with
    | nil =>
      have hlast := Shows.cons h.1 (.inl rfl) ⟨[], .nil (line + lineEnds t.lexeme.toList), rfl, rfl⟩
      rwa [List.append_nil] at hlast
    | cons u ts =>
      rw [toList_writtenOut_cons]
      exact .cons h.1 (.inr rfl) (ih h.2 _).blank

/-- **Reading undoes writing out.**  The texts of the tokens of a source, with single blanks between
them, are read without an error, as tokens of the same kinds, texts and literals in the same order,
and behind them an end token. -/
theorem tokenize_writtenOut (source : String) :
    (tokenize (writtenOut (tokensBeforeEnd source))).errors = [] ∧
      (tokenize (writtenOut (tokensBeforeEnd source))).tokens.map unplaced =
        (tokensBeforeEnd source).map unplaced ++ [(.eof, "", .nil)] := by
  have hlexemes : ∀ t ∈ tokensBeforeEnd source, IsLexeme t := fun _ => isLexeme_of_mem
  obtain ⟨ps, hsplits, herrors, htokens⟩ := shows_writtenOut hlexemes 1
  rw [hsplits.eq_pieces] at herrors htokens
  refine ⟨herrors, ?_⟩
  rw [tokens_eq, List.map_append, tokensBeforeEnd, htokens]
  rfl

/-- Neither a fault in the source nor its layout is written out. -/
example : writtenOut (tokensBeforeEnd "a/ $/b//c") = "a / / b" := by decide +kernel

end Source
end LoxLang
