import LoxLang.Source.Tokens
import Mathlib.Data.List.TakeWhile

/-! # Joining source texts

A text in which every string and every comment is closed can be followed by a line end and any other
text: no piece of the first reaches over the line end, because no piece that is closed does, and an
unexpected character is a piece alone.  So the tokens of the two texts together are those of the
first, and then those of the second on later lines, and so are the errors
(`tokenize_append_newline`). -/

namespace LoxLang

/-- The same token, some lines further down. -/
def Token.down (lines : Int) (t : Token) : Token := { t with line := t.line + lines }

theorem Token.down_down (lines lines' : Int) (t : Token) :
    (t.down lines).down lines' = t.down (lines' + lines) := by
  simp only [Token.down, Token.mk.injEq, true_and]
  omega

theorem Token.kind_down (lines : Int) (t : Token) : (t.down lines).kind = t.kind := rfl

theorem Token.lexeme_down (lines : Int) (t : Token) : (t.down lines).lexeme = t.lexeme := rfl

theorem Token.literal_down (lines : Int) (t : Token) : (t.down lines).literal = t.literal := rfl

/-- The same piece, some lines further down. -/
def Piece.down (lines : Int) (p : Piece) : Piece := { p with line := p.line + lines }

/-- The same error, some lines further down. -/
def LexicalError.down (lines : Int) (e : LexicalError) : LexicalError :=
  { e with line := e.line + lines }

theorem LexicalError.down_down (lines lines' : Int) (e : LexicalError) :
    (e.down lines).down lines' = e.down (lines' + lines) := by
  simp only [LexicalError.down, LexicalError.mk.injEq, true_and]
  omega

/-- What a piece contributes is not that a string or a comment is not closed. -/
def Content.IsClosed (content : Content) : Prop :=
  content ≠ .wrong .unterminatedString ∧ content ≠ .wrong .unclosedComment

namespace Piece

theorem token?_down (lines : Int) (p : Piece) :
    (p.down lines).token? = p.token?.map (Token.down lines) := by
  obtain ⟨text, content, line⟩ := p
  cases content <;> rfl

theorem error?_down (lines : Int) (p : Piece) :
    (p.down lines).error? = p.error?.map (LexicalError.down lines) := by
  obtain ⟨text, content, line⟩ := p
  cases content <;> rfl

theorem filterMap_token?_down (lines : Int) (ps : List Piece) :
    (ps.map (Piece.down lines)).filterMap token? =
      (ps.filterMap token?).map (Token.down lines) := by
  simp only [List.filterMap_map, List.map_filterMap, Function.comp_def, token?_down]

theorem filterMap_error?_down (lines : Int) (ps : List Piece) :
    (ps.map (Piece.down lines)).filterMap error? =
      (ps.filterMap error?).map (LexicalError.down lines) := by
  simp only [List.filterMap_map, List.map_filterMap, Function.comp_def, error?_down]

end Piece

namespace Source

/-! ## Lines -/

theorem lineEnds_append (text more : List Char) :
    lineEnds (text ++ more) = lineEnds text + lineEnds more := List.count_append

theorem lineEnds_newline (more : List Char) : lineEnds ('\n' :: more) = lineEnds more + 1 :=
  List.count_cons_self

/-- A text that begins some lines further down has its pieces that much further down. -/
theorem pieces_down (lines line : Int) (text : List Char) :
    pieces (line + lines) text = (pieces line text).map (Piece.down lines) := by
  induction line, text using pieces_induction with
  | nil line => rfl
  | cons line c rest ih =>
    have hfirst : firstPiece (line + lines) c rest = (firstPiece line c rest).down lines := by
      simp only [firstPiece, Piece.down, Piece.mk.injEq, true_and]
      omega
    rw [pieces_cons, pieces_cons, List.map_cons, hfirst, ← ih]
    rfl

/-! ## The first piece of a text that goes on -/

/-- What stops at a line end is not longer if a line end and more text follow. -/
theorem takeWhile_append_newline {p : Char → Bool} (hp : p '\n' = false)
    (text more : List Char) : (text ++ '\n' :: more).takeWhile p = text.takeWhile p := by
  induction text with
  | nil => simp [hp]
  | cons c rest ih =>
    rw [List.cons_append, List.takeWhile_cons, List.takeWhile_cons, ih]

theorem drop_takeWhile_append {p : Char → Bool} (text more : List Char) :
    (text ++ more).drop (text.takeWhile p).length =
      text.drop (text.takeWhile p).length ++ more :=
  List.drop_append_of_le_length (List.takeWhile_prefix p).length_le

/-- Two characters that are no pair are none when more text follows. -/
theorem no_pair_append {a b c d : Char} {rest : List Char}
    (h : ∀ r, c = a → d :: rest = b :: r → False) (more : List Char) :
    ∀ r, c = a → d :: (rest ++ more) = b :: r → False := by
  rintro r hc hd
  obtain ⟨rfl, _⟩ := List.cons.inj hd
  exact h rest hc rfl

/-- The end of a comment does not move when more text follows, and lies within the text. -/
theorem commentLength?_append {depth taken length : Nat} {text : List Char}
    (h : commentLength? depth taken text = some length) (more : List Char) :
    commentLength? depth taken (text ++ more) = some length ∧ length ≤ taken + text.length := by
  fun_induction commentLength? depth taken text with
  | case1 depth taken => cases h
  | case2 depth taken rest ih =>
    obtain ⟨heq, hle⟩ := ih h
    refine ⟨by simpa [commentLength?] using heq, ?_⟩
    simp only [List.length_cons]
    omega
  | case3 taken rest =>
    cases h
    refine ⟨by simp [commentLength?], ?_⟩
    simp only [List.length_cons]
    omega
  | case4 taken rest depth ih =>
    obtain ⟨heq, hle⟩ := ih h
    refine ⟨by simpa [commentLength?] using heq, ?_⟩
    simp only [List.length_cons]
    omega
  | case5 depth taken c rest hopen hclose ih =>
    obtain ⟨heq, hle⟩ := ih h
    cases rest with
    | nil => cases h
    | cons d rest =>
      refine ⟨?_, ?_⟩
      · -- the next two characters are those that they were, so they still open and close nothing
        rw [List.cons_append, List.cons_append, commentLength?.eq_5 _ _ _ _
          (no_pair_append hopen more) (no_pair_append hclose more)]
        exact heq
      · simp only [List.length_cons] at hle ⊢
        omega

/-- The fraction of a number does not change when a line end and more text follow. -/
theorem fraction_append_newline (text more : List Char) :
    fraction (text ++ '\n' :: more) = fraction text := by
  match text with
  | [] => rfl
  | [c] =>
    by_cases hc : c = '.'
    · subst hc
      rfl
    · simp [fraction, hc]
  | c :: d :: rest =>
    by_cases hc : c = '.'
    · subst hc
      have h := takeWhile_append_newline (p := isDigit) rfl rest more
      simp [fraction, h]
    · simp [fraction, hc]

/-- A fraction is read from the front of the text. -/
theorem length_fraction_le (text : List Char) : (fraction text).length ≤ text.length := by
  unfold fraction
  split
  · rename_i c rest
    split
    · have h := (List.takeWhile_prefix (l := rest) isDigit).length_le
      simp only [List.length_cons]
      omega
    · exact Nat.zero_le _
  · exact Nat.zero_le _

theorem first_slash_eq (rest : List Char) :
    first '/' rest =
      match rest with
      | '/' :: more => (.layout, 1 + (more.takeWhile (· ≠ '\n')).length)
      | '*' :: more =>
        match commentLength? 0 1 more with
        | some length => (.layout, length)
        | none => (.wrong .unclosedComment, rest.length)
      | _ => (.token .slash .nil, 0) := rfl

theorem first_quote_eq (rest : List Char) :
    first '"' rest =
      match rest.drop (rest.takeWhile (· ≠ '"')).length with
      | [] => (.wrong .unterminatedString, rest.length)
      | _ :: _ => (.token .text (.text (String.ofList (rest.takeWhile (· ≠ '"')))),
          (rest.takeWhile (· ≠ '"')).length + 1) := rfl

/-- A comment that is closed, or a slash alone. -/
theorem first_slash_append_newline {rest : List Char} (h : (first '/' rest).1.IsClosed)
    (more : List Char) :
    first '/' (rest ++ '\n' :: more) = first '/' rest ∧ (first '/' rest).2 ≤ rest.length := by
  rw [Content.IsClosed, first_slash_eq] at h
  rw [first_slash_eq, first_slash_eq]
  cases rest with
  | nil => exact ⟨rfl, Nat.le_refl 0⟩
  | cons d rest =>
    by_cases hline : d = '/'
    · subst hline
      have hstop := takeWhile_append_newline (p := (· ≠ '\n')) (by simp) rest more
      have hle := (List.takeWhile_prefix (l := rest) (· ≠ '\n')).length_le
      refine ⟨by simp only [List.cons_append, hstop], ?_⟩
      simp only [List.length_cons]
      omega
    · by_cases hblock : d = '*'
      · subst hblock
        cases hlength : commentLength? 0 1 rest with
        | none =>
          simp only [hlength] at h
          exact absurd rfl h.2
        | some length =>
          obtain ⟨happend, hle⟩ := commentLength?_append hlength ('\n' :: more)
          refine ⟨by simp only [List.cons_append, hlength, happend], ?_⟩
          simp only [hlength, List.length_cons]
          omega
      · exact ⟨by simp [hline, hblock], by simp [hline, hblock]⟩

/-- A string that is closed. -/
theorem first_quote_append_newline {rest : List Char} (h : (first '"' rest).1.IsClosed)
    (more : List Char) :
    first '"' (rest ++ '\n' :: more) = first '"' rest ∧ (first '"' rest).2 ≤ rest.length := by
  rw [Content.IsClosed, first_quote_eq] at h
  rw [first_quote_eq, first_quote_eq]
  cases hclose : rest.drop (rest.takeWhile (· ≠ '"')).length with
  | nil =>
    simp only [hclose] at h
    exact absurd rfl h.1
  | cons quote behind =>
    have hlt := congrArg List.length hclose
    rw [List.length_drop, List.length_cons] at hlt
    have hbody : (rest ++ '\n' :: more).takeWhile (· ≠ '"') = rest.takeWhile (· ≠ '"') := by
      rw [List.takeWhile_append, if_neg (by omega)]
    have hdrop := drop_takeWhile_append (p := (· ≠ '"')) rest ('\n' :: more)
    refine ⟨by simp only [hbody, hdrop, hclose, List.cons_append], ?_⟩
    show (rest.takeWhile (· ≠ '"')).length + 1 ≤ rest.length
    omega

/-- The first piece of a text that is closed lies within the text, and it does not change when a
line end and more text follow. -/
theorem first_append_newline {c : Char} {rest : List Char} (h : (first c rest).1.IsClosed)
    (more : List Char) :
    first c (rest ++ '\n' :: more) = first c rest ∧ (first c rest).2 ≤ rest.length := by
  by_cases hslash : c = '/'
  · subst hslash
    exact first_slash_append_newline h more
  by_cases hquote : c = '"'
  · subst hquote
    exact first_quote_append_newline h more
  unfold first
  split
  · exact ⟨rfl, Nat.zero_le _⟩
  · cases rest with
    | nil => exact ⟨by simp, by simp⟩
    | cons d rest =>
      refine ⟨by simp, ?_⟩
      by_cases hd : d = '='
      · simp [hd]
      · simp [hd]
  · rw [if_neg hslash, if_neg hslash, if_neg hquote, if_neg hquote]
    split
    · exact ⟨rfl, Nat.zero_le _⟩
    · split
      · -- a number, whose fraction is looked for two characters ahead
        have hwhole := takeWhile_append_newline (p := isDigit) rfl rest more
        have hdrop := drop_takeWhile_append (p := isDigit) rest ('\n' :: more)
        have hle := length_fraction_le (rest.drop (rest.takeWhile isDigit).length)
        have hle' := (List.takeWhile_prefix (l := rest) isDigit).length_le
        refine ⟨by simp only [hwhole, hdrop, fraction_append_newline], ?_⟩
        rw [List.length_drop] at hle
        show _ + _ ≤ _
        omega
      · split
        · have hname := takeWhile_append_newline (p := isNamePart) rfl rest more
          exact ⟨by simp only [hname], (List.takeWhile_prefix isNamePart).length_le⟩
        · exact ⟨rfl, Nat.zero_le _⟩

/-! ## Texts one behind the other -/

/-- The piece for the line end between two texts. -/
def newlinePiece (line : Int) : Piece := ⟨['\n'], .layout, line + 1⟩

/-- The pieces of a text in which all is closed, a line end, and another text. -/
theorem pieces_append_newline {line : Int} {text : List Char}
    (h : ∀ p ∈ pieces line text, p.content.IsClosed) (more : List Char) :
    pieces line (text ++ '\n' :: more) =
      pieces line text ++ newlinePiece (line + lineEnds text) ::
        pieces (line + lineEnds text + 1) more := by
  induction line, text using pieces_induction with
  | nil line =>
    have hblank : first '\n' more = (.layout, 0) := rfl
    have hline : line + (lineEnds [] : Nat) = line := by simp [lineEnds]
    have hfirst : firstPiece line '\n' more = newlinePiece line := by
      simp [firstPiece, newlinePiece, hblank, lineEnds]
    rw [List.nil_append, pieces_cons, hfirst, hblank, hline]
    rfl
  | cons line c rest ih =>
    rw [pieces_cons, List.forall_mem_cons] at h
    obtain ⟨hpiece, hrest⟩ := h
    obtain ⟨hsame, hle⟩ := first_append_newline hpiece more
    have hfirst : firstPiece line c (rest ++ '\n' :: more) = firstPiece line c rest := by
      simp only [firstPiece, hsame, List.take_append_of_le_length hle]
    have hlines : (firstPiece line c rest).line + lineEnds (rest.drop (first c rest).2) =
        line + lineEnds (c :: rest) := by
      have hcount := lineEnds_append (c :: rest.take (first c rest).2)
        (rest.drop (first c rest).2)
      rw [List.cons_append, List.take_append_drop] at hcount
      show line + _ + _ = _
      rw [hcount]
      omega
    rw [List.cons_append, pieces_cons, pieces_cons, hfirst, hsame,
      List.drop_append_of_le_length hle, ih hrest, hlines, List.cons_append]

/-- The tokens of a source text, without the one for its end. -/
def tokensBeforeEnd (source : String) : List Token :=
  (pieces 1 source.toList).filterMap Piece.token?

theorem tokens_eq (source : String) :
    (tokenize source).tokens =
      tokensBeforeEnd source ++ [endToken (1 + lineEnds source.toList)] := rfl

/-- The number of lines by which a text is moved down that follows another one and a line end. -/
def linesOf (source : String) : Int := lineEnds source.toList + 1

/-- Every string and every comment in a source text is closed: no error says otherwise. -/
def Closed (source : String) : Prop :=
  ∀ e ∈ (tokenize source).errors, e.fault ≠ .unterminatedString ∧ e.fault ≠ .unclosedComment

instance (source : String) : Decidable (Closed source) :=
  inferInstanceAs (Decidable (∀ e ∈ _, _))

theorem closed_of_errors_eq_nil {source : String} (h : (tokenize source).errors = []) :
    Closed source := by
  rw [Closed, h]
  exact List.forall_mem_nil _

/-- What is wrong with a piece is an error of its source. -/
theorem mem_errors {source : String} {p : Piece} {fault : LexicalFault}
    (hp : p ∈ pieces 1 source.toList) (h : p.content = .wrong fault) :
    ⟨fault, p.line⟩ ∈ (tokenize source).errors :=
  List.mem_filterMap.mpr ⟨p, hp, by rw [Piece.error?, h]⟩

theorem Closed.content {source : String} (h : Closed source) :
    ∀ p ∈ pieces 1 source.toList, p.content.IsClosed := fun _ hp =>
  ⟨fun hcontent => (h _ (mem_errors hp hcontent)).1 rfl,
    fun hcontent => (h _ (mem_errors hp hcontent)).2 rfl⟩

/-- **The tokens and the errors of two texts with a line end between them** are those of the first,
if all is closed in it, and then those of the second, further down. -/
theorem tokenize_append_newline {source : String} (h : Closed source) (more : String) :
    (tokenize (source ++ "\n" ++ more)).tokens =
        tokensBeforeEnd source ++ (tokenize more).tokens.map (Token.down (linesOf source)) ∧
      (tokenize (source ++ "\n" ++ more)).errors =
        (tokenize source).errors ++
          (tokenize more).errors.map (LexicalError.down (linesOf source)) := by
  have htext : (source ++ "\n" ++ more).toList = source.toList ++ '\n' :: more.toList := by
    simp [String.toList_append]
  have hpieces : pieces 1 (source ++ "\n" ++ more).toList =
      pieces 1 source.toList ++ newlinePiece (1 + lineEnds source.toList) ::
        (pieces 1 more.toList).map (Piece.down (linesOf source)) := by
    have hline : 1 + (lineEnds source.toList : Int) + 1 = 1 + linesOf source := by
      rw [linesOf]
      omega
    rw [htext, pieces_append_newline h.content, hline, pieces_down]
  have hend : endToken (1 + lineEnds (source ++ "\n" ++ more).toList) =
      (endToken (1 + lineEnds more.toList)).down (linesOf source) := by
    rw [htext, lineEnds_append, lineEnds_newline]
    simp only [endToken, Token.down, linesOf, Token.mk.injEq, true_and]
    omega
  refine ⟨?_, ?_⟩
  · have htokens : tokensBeforeEnd (source ++ "\n" ++ more) =
        tokensBeforeEnd source ++ (tokensBeforeEnd more).map (Token.down (linesOf source)) := by
      have hnewline : (newlinePiece (1 + lineEnds source.toList)).token? = none := rfl
      rw [tokensBeforeEnd, hpieces, List.filterMap_append, List.filterMap_cons_none hnewline,
        Piece.filterMap_token?_down]
      rfl
    rw [tokens_eq, htokens, hend, tokens_eq, List.map_append, List.append_assoc]
    rfl
  · have hnewline : (newlinePiece (1 + lineEnds source.toList)).error? = none := rfl
    show (pieces 1 _).filterMap Piece.error? = _
    rw [hpieces, List.filterMap_append, List.filterMap_cons_none hnewline,
      Piece.filterMap_error?_down]
    rfl

end Source
end LoxLang
