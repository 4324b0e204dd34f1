import LoxLang.Proofs.Source.Comment
import Mathlib.Data.List.TakeWhile

/-! # The lexical grammar

What the tokens of a source text are, said without going over the text.  `Lexeme` lists the texts of
tokens with their kinds and literals, and `Form` the pieces that a text can have before a given
rest: the longest lexeme there, a blank, a comment, or something wrong.  A division of a source into
such pieces is unique, and it is the one that the tokens and errors come from (`tokenize_splits`).
-/

namespace LoxLang
namespace Source

/-- The text of a token, with the kind and the literal that belong to it. -/
inductive Lexeme : List Char → Kind → Datum → Prop
  | punctuation {c : Char} {kind : Kind} (h : punctuation? c = some kind) : Lexeme [c] kind .nil
  | alone {c : Char} {kind withEqual : Kind} (h : operator? c = some (kind, withEqual)) :
      Lexeme [c] kind .nil
  | withEqual {c : Char} {alone kind : Kind} (h : operator? c = some (alone, kind)) :
      Lexeme [c, '='] kind .nil
  | slash : Lexeme ['/'] .slash .nil
  | text {body : List Char} (h : '"' ∉ body) :
      Lexeme ('"' :: (body ++ ['"'])) .text (.text (String.ofList body))
  | whole {c : Char} {digits : List Char} (hc : isDigit c) (h : ∀ d ∈ digits, isDigit d) :
      Lexeme (c :: digits) .number (.number (readDecimal (c :: digits) []))
  | fraction {c d : Char} {digits part : List Char} (hc : isDigit c) (h : ∀ d ∈ digits, isDigit d)
      (hd : isDigit d) (hpart : ∀ d ∈ part, isDigit d) :
      Lexeme (c :: (digits ++ '.' :: d :: part)) .number
        (.number (readDecimal (c :: digits) (d :: part)))
  | word {c : Char} {rest : List Char} (hc : isNameStart c) (h : ∀ d ∈ rest, isNamePart d) :
      Lexeme (c :: rest) ((Kind.keyword? (String.ofList (c :: rest))).getD .identifier) .nil

/-- A comment begins a text. -/
def BeginsComment (text : List Char) : Prop := ['/', '/'] <+: text ∨ ['/', '*'] <+: text

/-- What a piece of a text contributes, the text of the piece, and what stands behind it. -/
inductive Form : Content → List Char → List Char → Prop
  /-- The longest lexeme that the text begins with, unless a comment begins there. -/
  | token {kind : Kind} {literal : Datum} {text behind : List Char}
      (hlexeme : Lexeme text kind literal)
      (hlongest : ∀ longer kind' literal', Lexeme longer kind' literal' →
        longer <+: text ++ behind → longer.length ≤ text.length)
      (hcomment : ¬ BeginsComment (text ++ behind)) : Form (.token kind literal) text behind
  | blank {c : Char} {behind : List Char} (h : c ∈ [' ', '\r', '\t', '\n']) : Form .layout [c] behind
  | lineComment {body behind : List Char} (hbody : '\n' ∉ body)
      (hend : behind = [] ∨ behind.head? = some '\n') : Form .layout ('/' :: '/' :: body) behind
  | blockComment {text behind : List Char} (h : IsBlockComment text) : Form .layout text behind
  /-- A character with which nothing else begins. -/
  | unexpected {c : Char} {behind : List Char} (hblank : c ∉ [' ', '\r', '\t', '\n'])
      (hlexeme : ∀ rest kind literal, ¬ Lexeme (c :: rest) kind literal) :
      Form (.wrong .unexpectedCharacter) [c] behind
  | unterminated {body : List Char} (h : '"' ∉ body) :
      Form (.wrong .unterminatedString) ('"' :: body) []
  | unclosed {rest : List Char} (h : ∀ text, text <+: '/' :: '*' :: rest → ¬ IsBlockComment text) :
      Form (.wrong .unclosedComment) ('/' :: '*' :: rest) []

/-- Pieces divide a text that begins on a line: each has one of the forms, with all further pieces
behind it, and ends on the line that the line ends up to there lead to. -/
structure Splits (line : Int) (source : List Char) (ps : List Piece) : Prop where
  text : ps.flatMap Piece.text = source
  form : ∀ before p after, ps = before ++ p :: after →
    Form p.content p.text (after.flatMap Piece.text)
  line : ∀ before p after, ps = before ++ p :: after →
    p.line = line + lineEnds (before.flatMap Piece.text ++ p.text)

/-! ## What a first character leads to -/

/-- The characters that are tokens alone, or with one further character. -/
def symbols : List Char :=
  ['(', ')', '{', '}', ',', '.', '-', '+', ';', '*', '!', '=', '<', '>', '/']

theorem mem_symbols_of_punctuation? {c : Char} {kind : Kind} (h : punctuation? c = some kind) :
    c ∈ symbols := by
  unfold punctuation? at h
  split at h <;> first | decide | cases h

theorem mem_symbols_of_operator? {c : Char} {kinds : Kind × Kind} (h : operator? c = some kinds) :
    c ∈ symbols := by
  unfold operator? at h
  split at h <;> first | decide | cases h

/-- What begins otherwise is neither punctuation nor an operator, slash or not. -/
theorem plain_of_not_mem_symbols {c : Char} (h : c ∉ symbols) :
    punctuation? c = none ∧ operator? c = none ∧ c ≠ '/' := by
  refine ⟨?_, ?_, ?_⟩
  · cases hp : punctuation? c with
    | none => rfl
    | some kind => exact absurd (mem_symbols_of_punctuation? hp) h
  · cases ho : operator? c with
    | none => rfl
    | some kinds => exact absurd (mem_symbols_of_operator? ho) h
  · rintro rfl
    exact h (by decide)

/-- A character of a kind that no symbol, blank or quote is of is none of these. -/
theorem plain_of_kind {p : Char → Bool}
    (hp : (symbols ++ [' ', '\r', '\t', '\n', '"']).any p = false) {c : Char} (h : p c) :
    c ∉ symbols ∧ c ∉ [' ', '\r', '\t', '\n'] ∧ c ≠ '"' := by
  have hnot : c ∉ symbols ++ [' ', '\r', '\t', '\n', '"'] := fun hc =>
    List.any_eq_false.mp hp c hc h
  refine ⟨fun hc => hnot (List.mem_append_left _ hc), fun hc => hnot ?_, ?_⟩
  · exact List.mem_append_right symbols (List.mem_append_left ['"'] hc)
  · rintro rfl
    exact hnot (by decide)

section
variable {c : Char} {rest : List Char}

/-- A stretch of a text without a character is what comes before the character. -/
theorem takeWhile_ne {body behind : List Char} (h : c ∉ body)
    (hend : behind = [] ∨ behind.head? = some c) :
    (body ++ behind).takeWhile (· ≠ c) = body := by
  have hall : ∀ d ∈ body, decide (d ≠ c) = true := by
    intro d hd
    refine decide_eq_true fun heq => h ?_
    rwa [heq] at hd
  rw [List.takeWhile_append_of_pos hall]
  cases behind with
  | nil => exact List.append_nil body
  | cons d behind =>
    obtain rfl : d = c := by simpa using hend
    simp

/-- A text up to where a character first stands. -/
theorem exists_split_at (c : Char) (text : List Char) :
    ∃ body behind, text = body ++ behind ∧ c ∉ body ∧ (behind = [] ∨ behind.head? = some c) := by
  by_cases hc : c ∈ text
  · obtain ⟨body, behind, rfl, hbody⟩ := List.eq_append_cons_of_mem hc
    exact ⟨body, c :: behind, rfl, hbody, .inr rfl⟩
  · exact ⟨text, [], (List.append_nil text).symm, hc, .inl rfl⟩

/-- A text up to where a predicate first fails. -/
theorem exists_split_while (p : Char → Bool) (text : List Char) :
    ∃ taken behind, text = taken ++ behind ∧ (∀ d ∈ taken, p d) ∧ text.takeWhile p = taken :=
  ⟨text.takeWhile p, text.dropWhile p, List.takeWhile_append_dropWhile.symm,
    fun _ hd => List.mem_takeWhile_imp hd, rfl⟩

theorem first_punctuation {kind : Kind} (h : punctuation? c = some kind) :
    first c rest = (.token kind .nil, 0) := by
  unfold first
  rw [h]

theorem first_operator {alone withEqual : Kind} (h : operator? c = some (alone, withEqual))
    (rest : List Char) :
    first c rest =
      if rest.head? = some '=' then (.token withEqual .nil, 1) else (.token alone .nil, 0) := by
  have hnone : punctuation? c = none := by
    unfold operator? at h
    split at h <;> first | rfl | cases h
  unfold first
  rw [hnone, h]

theorem isBlank_iff : isBlank c ↔ c ∈ [' ', '\r', '\t', '\n'] := by
  simp only [isBlank, Bool.or_eq_true, beq_iff_eq, List.mem_cons, List.not_mem_nil, or_false,
    or_assoc]

theorem first_blank (h : isBlank c) : first c rest = (.layout, 0) := by
  have hsymbol : c ∉ symbols := fun hc => List.any_eq_false.mp (by decide) c hc h
  obtain ⟨hp, ho, hslash⟩ := plain_of_not_mem_symbols hsymbol
  unfold first
  rw [hp, ho]
  simp only [if_neg hslash, if_pos h]

theorem first_quote_closed {body : List Char} (h : '"' ∉ body) (behind : List Char) :
    first '"' (body ++ '"' :: behind) =
      (.token .text (.text (String.ofList body)), body.length + 1) := by
  have hbody : (body ++ '"' :: behind).takeWhile (· ≠ '"') = body :=
    takeWhile_ne h (.inr rfl)
  have hread : (body ++ '"' :: behind).drop body.length = '"' :: behind := List.drop_left
  simp only [first, punctuation?, operator?, isBlank, hbody, hread]
  rfl

theorem first_quote_open (h : '"' ∉ rest) :
    first '"' rest = (.wrong .unterminatedString, rest.length) := by
  have hbody : rest.takeWhile (· ≠ '"') = rest := by
    have hall : (rest ++ []).takeWhile (· ≠ '"') = rest := takeWhile_ne h (.inl rfl)
    rwa [List.append_nil] at hall
  simp only [first, punctuation?, operator?, isBlank, hbody, List.drop_length]
  rfl

theorem first_digit (h : isDigit c) (rest : List Char) :
    first c rest =
      (.token .number (.number (readDecimal (c :: rest.takeWhile isDigit)
          ((Source.fraction (rest.drop (rest.takeWhile isDigit).length)).drop 1))),
        (rest.takeWhile isDigit).length +
          (Source.fraction (rest.drop (rest.takeWhile isDigit).length)).length) := by
  obtain ⟨hsymbol, hblank, hquote⟩ := plain_of_kind (p := isDigit) rfl h
  obtain ⟨hp, ho, hslash⟩ := plain_of_not_mem_symbols hsymbol
  rw [← isBlank_iff] at hblank
  unfold first
  rw [hp, ho]
  simp only [if_neg hslash, if_neg hblank, if_neg hquote, if_pos h]

/-- Names do not begin with digits. -/
theorem isDigit_of_isNameStart (h : isNameStart c) : isDigit c = false := by
  rw [Bool.eq_false_iff]
  intro hdigit
  simp only [isDigit, Bool.and_eq_true, decide_eq_true_eq] at hdigit
  simp only [isNameStart, Bool.or_eq_true, Bool.and_eq_true, decide_eq_true_eq, beq_iff_eq] at h
  rcases h with (⟨hlo, _⟩ | ⟨hlo, _⟩) | rfl
  · exact absurd (Char.le_trans hlo hdigit.2) (by decide)
  · exact absurd (Char.le_trans hlo hdigit.2) (by decide)
  · exact absurd hdigit.2 (by decide)

theorem first_name (h : isNameStart c) (rest : List Char) :
    first c rest =
      (.token ((Kind.keyword? (String.ofList (c :: rest.takeWhile isNamePart))).getD .identifier)
        .nil, (rest.takeWhile isNamePart).length) := by
  obtain ⟨hsymbol, hblank, hquote⟩ := plain_of_kind (p := isNameStart) rfl h
  obtain ⟨hp, ho, hslash⟩ := plain_of_not_mem_symbols hsymbol
  rw [← isBlank_iff] at hblank
  have hdigit := Bool.eq_false_iff.mp (isDigit_of_isNameStart h)
  unfold first
  rw [hp, ho]
  simp only [if_neg hslash, if_neg hblank, if_neg hquote, if_neg hdigit, if_pos h]

theorem first_slash (hcomment : ¬ BeginsComment ('/' :: rest)) :
    first '/' rest = (.token .slash .nil, 0) := by
  cases rest with
  | nil => rfl
  | cons d rest =>
    have hline : d ≠ '/' := by
      rintro rfl
      exact hcomment (.inl ⟨rest, rfl⟩)
    have hblock : d ≠ '*' := by
      rintro rfl
      exact hcomment (.inr ⟨rest, rfl⟩)
    simp [first, punctuation?, operator?, hline, hblock]

theorem first_lineComment {body behind : List Char} (hbody : '\n' ∉ body)
    (hend : behind = [] ∨ behind.head? = some '\n') :
    first '/' ('/' :: (body ++ behind)) = (.layout, body.length + 1) := by
  show (Content.layout, 1 + ((body ++ behind).takeWhile (· ≠ '\n')).length) = _
  rw [takeWhile_ne hbody hend, Nat.add_comm]

theorem first_blockComment {length : Nat} (h : commentLength? 0 1 rest = some length) :
    first '/' ('*' :: rest) = (.layout, length) := by
  simp only [first, punctuation?, operator?, h]
  rfl

theorem first_unclosed (h : commentLength? 0 1 rest = none) :
    first '/' ('*' :: rest) = (.wrong .unclosedComment, rest.length + 1) := by
  simp only [first, punctuation?, operator?, h]
  rfl

/-! ## Lexemes are found -/

/-- What is read at the first character of a lexeme reaches at least to the end of the lexeme, and
is the token of the lexeme if nothing more follows. -/
theorem Lexeme.first_append {text : List Char} {kind : Kind} {literal : Datum}
    (h : Lexeme (c :: text) kind literal) (behind : List Char)
    (hcomment : ¬ BeginsComment (c :: text ++ behind)) :
    (∃ kind' literal' length, first c (text ++ behind) = (.token kind' literal', length) ∧
        text.length ≤ length) ∧
      first c text = (.token kind literal, text.length) := by
  generalize hwhole : c :: text = whole at h
  cases h with
  | punctuation h =>
    cases hwhole
    exact ⟨⟨_, _, _, first_punctuation h, Nat.le_refl 0⟩, first_punctuation h⟩
  | alone h =>
    cases hwhole
    refine ⟨?_, first_operator h _⟩
    rw [first_operator h _]
    split <;> exact ⟨_, _, _, rfl, Nat.zero_le _⟩
  | withEqual h =>
    cases hwhole
    exact ⟨⟨_, _, _, first_operator h _, Nat.le_refl 1⟩, first_operator h _⟩
  | slash =>
    cases hwhole
    refine ⟨⟨_, _, _, first_slash hcomment, Nat.le_refl 0⟩, first_slash ?_⟩
    rintro (⟨_, h⟩ | ⟨_, h⟩) <;> cases h
  | @text body h =>
    cases hwhole
    have hread := first_quote_closed h behind
    refine ⟨⟨_, _, _, by rw [List.append_assoc]; exact hread, ?_⟩, ?_⟩
    · simp
    · rw [first_quote_closed h, List.length_append]
      rfl
  | whole hc h =>
    cases hwhole
    refine ⟨⟨_, _, _, first_digit hc _, ?_⟩, ?_⟩
    · rw [List.takeWhile_append_of_pos h, List.length_append]
      omega
    · rw [first_digit hc, List.takeWhile_eq_self_iff.mpr h, List.drop_length]
      rfl
  | @fraction _ d digits part hc h hd hpart =>
    cases hwhole
    have hdigits : ∀ more, (digits ++ '.' :: more).takeWhile isDigit = digits := by
      intro more
      rw [List.takeWhile_append_of_pos h]
      simp [isDigit]
    have hread : ∀ behind, Source.fraction ('.' :: d :: part ++ behind) =
        '.' :: d :: part ++ behind.takeWhile isDigit := by
      intro behind
      show (if isDigit d then '.' :: d :: (part ++ behind).takeWhile isDigit else []) = _
      rw [if_pos hd, List.takeWhile_append_of_pos hpart]
      rfl
    refine ⟨⟨_, _, _, first_digit hc _, ?_⟩, ?_⟩
    · rw [List.append_assoc, List.cons_append, hdigits, List.drop_left, ← List.cons_append, hread]
      simp only [List.length_append, List.length_cons]
      omega
    · have hnone := hread []
      rw [List.append_nil, List.takeWhile_nil, List.append_nil] at hnone
      rw [first_digit hc, hdigits, List.drop_left, hnone, List.length_append]
      rfl
  | word hc h =>
    cases hwhole
    refine ⟨⟨_, _, _, first_name hc _, ?_⟩, ?_⟩
    · rw [List.takeWhile_append_of_pos h, List.length_append]
      omega
    · rw [first_name hc, List.takeWhile_eq_self_iff.mpr h]

/-- A lexeme begins with no comment. -/
theorem Lexeme.not_beginsComment {text : List Char} {kind : Kind} {literal : Datum}
    (h : Lexeme text kind literal) : ¬ BeginsComment text := by
  intro hcomment
  obtain ⟨d, more, rfl, hd⟩ : ∃ d more, text = '/' :: d :: more ∧ d ≠ '=' := by
    rcases hcomment with ⟨more, rfl⟩ | ⟨more, rfl⟩
    · exact ⟨'/', more, rfl, by decide⟩
    · exact ⟨'*', more, rfl, by decide⟩
  generalize hwhole : '/' :: d :: more = whole at h
  cases h with
  | punctuation h | alone h | slash => cases hwhole
  | withEqual h =>
    cases hwhole
    exact hd rfl
  | text h => cases hwhole
  | whole hc h | fraction hc h hd hpart | word hc h =>
    obtain ⟨rfl, _⟩ := List.cons.inj hwhole
    exact absurd hc (by decide)

/-- The text of a token determines its kind and its literal. -/
theorem Lexeme.unique {text : List Char} {kind kind' : Kind} {literal literal' : Datum}
    (h : Lexeme text kind literal) (h' : Lexeme text kind' literal') :
    kind = kind' ∧ literal = literal' := by
  cases text with
  | nil => cases h
  | cons c text =>
    have hfirst := (h.first_append [] (by simpa using h.not_beginsComment)).2
    have hfirst' := (h'.first_append [] (by simpa using h'.not_beginsComment)).2
    rw [hfirst] at hfirst'
    cases hfirst'
    exact ⟨rfl, rfl⟩

/-- A character with which no lexeme and no blank begins is unexpected. -/
theorem first_of_no_lexeme (hblank : c ∉ [' ', '\r', '\t', '\n'])
    (hlexeme : ∀ more kind literal, ¬ Lexeme (c :: more) kind literal) :
    first c rest = (.wrong .unexpectedCharacter, 0) := by
  have hp : punctuation? c = none :=
    Option.eq_none_iff_forall_ne_some.mpr fun _ h => hlexeme _ _ _ (.punctuation h)
  have ho : operator? c = none :=
    Option.eq_none_iff_forall_ne_some.mpr fun _ h => hlexeme _ _ _ (.alone h)
  have hslash : c ≠ '/' := by
    rintro rfl
    exact hlexeme _ _ _ .slash
  have hquote : c ≠ '"' := by
    rintro rfl
    have hnone : '"' ∉ ([] : List Char) := List.not_mem_nil
    exact hlexeme _ _ _ (.text hnone)
  have hdigit : ¬ isDigit c := fun h => hlexeme _ _ _ (.whole h (List.forall_mem_nil _))
  have hname : ¬ isNameStart c := fun h => hlexeme _ _ _ (.word h (List.forall_mem_nil _))
  unfold first
  rw [hp, ho]
  simp only [if_neg hslash, if_neg fun h => hblank (isBlank_iff.mp h), if_neg hquote, if_neg hdigit,
    if_neg hname]

/-! ## What is found has its form -/

/-- What is read at the front of a text lies within the text and has one of the forms there. -/
def Formed (c : Char) (rest : List Char) : Prop :=
  (first c rest).2 ≤ rest.length ∧
    Form (first c rest).1 (c :: rest.take (first c rest).2) (rest.drop (first c rest).2)

/-- A lexeme that is read is the longest at its place. -/
theorem formed_token (text : List Char) {behind : List Char} {kind : Kind} {literal : Datum}
    (hfirst : first c (text ++ behind) = (.token kind literal, text.length))
    (hlexeme : Lexeme (c :: text) kind literal) (hcomment : ¬ BeginsComment (c :: text ++ behind)) :
    Formed c (text ++ behind) := by
  unfold Formed
  rw [hfirst]
  refine ⟨by simp, ?_⟩
  rw [List.take_left, List.drop_left]
  refine .token hlexeme (fun longer kind' literal' h hlonger => ?_) hcomment
  cases longer with
  | nil => exact Nat.zero_le _
  | cons d longer =>
    -- a longer lexeme would have been read as far
    obtain ⟨behind', hbehind⟩ := hlonger
    rw [← hbehind] at hcomment
    obtain rfl := (List.cons.inj hbehind).1
    have htail : longer ++ behind' = text ++ behind := List.cons.inj hbehind |>.2
    obtain ⟨⟨_, _, length, hlength, hle⟩, _⟩ := h.first_append behind' hcomment
    rw [htail, hfirst] at hlength
    cases hlength
    exact Nat.succ_le_succ hle

/-- Only a slash begins a comment. -/
theorem not_beginsComment_of_ne (h : c ≠ '/') : ¬ BeginsComment (c :: rest) := by
  rintro (⟨_, heq⟩ | ⟨_, heq⟩)
  · exact h (List.cons.inj heq).1.symm
  · exact h (List.cons.inj heq).1.symm

theorem formed_symbol (h : c ∈ symbols) (hslash : c ≠ '/') : Formed c rest := by
  cases hp : punctuation? c with
  | some kind =>
    exact formed_token [] (first_punctuation hp) (.punctuation hp)
      (not_beginsComment_of_ne hslash)
  | none =>
    obtain ⟨alone, withEqual, ho⟩ : ∃ alone withEqual, operator? c = some (alone, withEqual) := by
      simp only [symbols, List.mem_cons, List.not_mem_nil, or_false] at h
      rcases h with rfl | rfl | rfl | rfl | rfl | rfl | rfl | rfl | rfl | rfl | rfl | rfl | rfl |
        rfl | rfl
      all_goals first | exact absurd rfl hslash | exact ⟨_, _, rfl⟩ | cases hp
    have hfirst := first_operator ho rest
    by_cases hequal : rest.head? = some '='
    · obtain ⟨d, rest, rfl⟩ : ∃ d more, rest = d :: more := by
        cases rest with
        | nil => cases hequal
        | cons d rest => exact ⟨d, rest, rfl⟩
      obtain rfl : d = '=' := by simpa using hequal
      exact formed_token ['='] hfirst (.withEqual ho) (not_beginsComment_of_ne hslash)
    · rw [if_neg hequal] at hfirst
      exact formed_token [] hfirst (.alone ho) (not_beginsComment_of_ne hslash)

theorem formed_slash (rest : List Char) : Formed '/' rest := by
  by_cases hcomment : BeginsComment ('/' :: rest)
  · rcases hcomment with ⟨more, hmore⟩ | ⟨more, hmore⟩
    · obtain rfl : '/' :: more = rest := (List.cons.inj hmore).2
      obtain ⟨body, behind, rfl, hbody, hend⟩ := exists_split_at '\n' more
      unfold Formed
      rw [first_lineComment hbody hend, List.take_succ_cons, List.drop_succ_cons, List.take_left,
        List.drop_left]
      exact ⟨by simp, .lineComment hbody hend⟩
    · obtain rfl : '*' :: more = rest := (List.cons.inj hmore).2
      unfold Formed
      cases hlength : commentLength? 0 1 more with
      | some length =>
        rw [first_blockComment hlength]
        obtain ⟨text, behind, htext, hcomment, htaken⟩ := commentLength?_eq_some_iff.mp hlength
        have hwhole := congrArg (List.take (length + 1)) htext
        rw [List.take_succ_cons, ← htaken, List.take_left] at hwhole
        have hbound := congrArg List.length htext
        simp only [List.length_cons, List.length_append] at hbound
        refine ⟨by simp only [List.length_cons]; omega, ?_⟩
        rw [hwhole]
        exact .blockComment hcomment
      | none =>
        rw [first_unclosed hlength]
        refine ⟨Nat.le_refl _, ?_⟩
        have hall : more.length + 1 = ('*' :: more).length := rfl
        dsimp only
        rw [hall, List.take_length, List.drop_length]
        refine .unclosed fun text htext hcomment => ?_
        obtain ⟨behind, hbehind⟩ := htext
        obtain ⟨_, rfl⟩ := hcomment.exists_eq
        rw [commentLength?_eq_some_iff.mpr ⟨_, behind, hbehind.symm, hcomment, rfl⟩] at hlength
        cases hlength
  · exact formed_token [] (first_slash hcomment) .slash hcomment

theorem formed_blank (h : isBlank c) : Formed c rest := by
  unfold Formed
  rw [first_blank h]
  exact ⟨Nat.zero_le _, .blank (isBlank_iff.mp h)⟩

theorem formed_quote (rest : List Char) : Formed '"' rest := by
  by_cases hquote : '"' ∈ rest
  · obtain ⟨body, behind, rfl, hbody⟩ := List.eq_append_cons_of_mem hquote
    have hfirst := first_quote_closed hbody behind
    have htext : body ++ '"' :: behind = body ++ ['"'] ++ behind := by simp
    rw [htext] at hfirst ⊢
    refine formed_token _ (by rw [hfirst]; simp) (.text hbody) (not_beginsComment_of_ne (by decide))
  · unfold Formed
    rw [first_quote_open hquote]
    refine ⟨Nat.le_refl _, ?_⟩
    rw [List.take_length, List.drop_length]
    exact .unterminated hquote

theorem fraction_cases (text : List Char) :
    Source.fraction text = [] ∨ ∃ d part behind, text = '.' :: d :: part ++ behind ∧ isDigit d ∧
      (∀ e ∈ part, isDigit e) ∧ Source.fraction text = '.' :: d :: part := by
  unfold Source.fraction
  split
  · rename_i d rest
    split
    · rename_i hd
      refine .inr ⟨d, rest.takeWhile isDigit, rest.dropWhile isDigit, ?_, hd,
        fun e he => List.mem_takeWhile_imp he, rfl⟩
      simp
    · exact .inl rfl
  · exact .inl rfl

theorem formed_digit (h : isDigit c) : Formed c rest := by
  have hslash : c ≠ '/' := by
    rintro rfl
    exact absurd h (by decide)
  obtain ⟨digits, tail, rfl, hdigits, htaken⟩ := exists_split_while isDigit rest
  have hfirst := first_digit h (digits ++ tail)
  rw [htaken, List.drop_left] at hfirst
  rcases fraction_cases tail with hnone | ⟨d, part, behind, rfl, hd, hpart, hsome⟩
  · rw [hnone] at hfirst
    exact formed_token _ hfirst (.whole h hdigits) (not_beginsComment_of_ne hslash)
  · rw [hsome] at hfirst
    have htext : digits ++ ('.' :: d :: part ++ behind) =
        digits ++ '.' :: d :: part ++ behind := by simp
    rw [htext] at hfirst ⊢
    exact formed_token _ (by rw [hfirst]; simp) (.fraction h hdigits hd hpart)
      (not_beginsComment_of_ne hslash)

theorem formed_name (h : isNameStart c) : Formed c rest := by
  have hslash : c ≠ '/' := by
    rintro rfl
    exact absurd h (by decide)
  obtain ⟨parts, tail, rfl, hparts, htaken⟩ := exists_split_while isNamePart rest
  have hfirst := first_name h (parts ++ tail)
  rw [htaken] at hfirst
  exact formed_token _ hfirst (.word h hparts) (not_beginsComment_of_ne hslash)

/-- **What is read at the front of a text has one of the forms.** -/
theorem formed (c : Char) (rest : List Char) : Formed c rest := by
  by_cases hslash : c = '/'
  · subst hslash
    exact formed_slash rest
  by_cases hsymbol : c ∈ symbols
  · exact formed_symbol hsymbol hslash
  by_cases hblank : isBlank c
  · exact formed_blank hblank
  by_cases hquote : c = '"'
  · subst hquote
    exact formed_quote rest
  by_cases hdigit : isDigit c
  · exact formed_digit hdigit
  by_cases hname : isNameStart c
  · exact formed_name hname
  have hlexeme : ∀ more kind literal, ¬ Lexeme (c :: more) kind literal := by
    intro more kind literal h
    generalize hwhole : c :: more = whole at h
    cases h with
    | punctuation h =>
      cases hwhole
      exact hsymbol (mem_symbols_of_punctuation? h)
    | alone h | withEqual h =>
      cases hwhole
      exact hsymbol (mem_symbols_of_operator? h)
    | slash =>
      cases hwhole
      exact hslash rfl
    | text h => exact hquote (List.cons.inj hwhole).1
    | whole hc h | fraction hc h hd hpart =>
      obtain ⟨rfl, _⟩ := List.cons.inj hwhole
      exact hdigit hc
    | word hc h =>
      obtain ⟨rfl, _⟩ := List.cons.inj hwhole
      exact hname hc
  have hother : c ∉ [' ', '\r', '\t', '\n'] := fun h => hblank (isBlank_iff.mpr h)
  unfold Formed
  rw [first_of_no_lexeme hother hlexeme]
  exact ⟨Nat.zero_le _, .unexpected hother hlexeme⟩

/-! ## The division is unique -/

/-- **What has a form at the front of a text is what is read there.** -/
theorem first_of_form {content : Content} {text behind : List Char}
    (h : Form content (c :: text) behind) :
    first c (text ++ behind) = (content, text.length) := by
  generalize hwhole : c :: text = whole at h
  cases h with
  | @token kind literal _ _ hlexeme hlongest hcomment =>
    subst hwhole
    -- what is read there is a lexeme, too, and reaches as far at least; but none is longer
    obtain ⟨⟨kind', literal', length, hfirst, hle⟩, _⟩ := hlexeme.first_append behind hcomment
    obtain ⟨hbound, hform⟩ := formed c (text ++ behind)
    rw [hfirst] at hbound hform
    cases hform with
    | token hlexeme' hlongest' hcomment' =>
      have htaken := hlongest _ kind' literal' hlexeme'
        ⟨(text ++ behind).drop length, by simp⟩
      simp only [List.length_cons, List.length_take] at htaken
      obtain rfl : text.length = length := by
        simp only at hbound
        omega
      rw [List.take_left] at hlexeme'
      obtain ⟨rfl, rfl⟩ := hlexeme.unique hlexeme'
      exact hfirst
  | blank h =>
    cases hwhole
    exact first_blank (isBlank_iff.mpr h)
  | lineComment hbody hend =>
    cases hwhole
    exact first_lineComment hbody hend
  | blockComment h =>
    subst hwhole
    obtain ⟨inner, htext⟩ := h.exists_eq
    obtain ⟨rfl, rfl⟩ := List.cons.inj htext
    exact first_blockComment (commentLength?_eq_some_iff.mpr ⟨_, behind, rfl, h, rfl⟩)
  | unexpected hblank hlexeme =>
    cases hwhole
    exact first_of_no_lexeme hblank hlexeme
  | unterminated h =>
    cases hwhole
    rw [List.append_nil]
    exact first_quote_open h
  | @unclosed rest h =>
    cases hwhole
    rw [List.append_nil]
    refine first_unclosed ?_
    cases hlength : commentLength? 0 1 rest with
    | none => rfl
    | some length =>
      obtain ⟨text, behind, htext, hcomment, _⟩ := commentLength?_eq_some_iff.mp hlength
      exact absurd hcomment (h text ⟨behind, htext.symm⟩)

theorem Form.exists_cons {content : Content} {text behind : List Char}
    (h : Form content text behind) : ∃ c more, text = c :: more := by
  cases h with
  | token hlexeme => cases hlexeme <;> exact ⟨_, _, rfl⟩
  | blockComment h =>
    obtain ⟨rest, rfl⟩ := h.exists_eq
    exact ⟨_, _, rfl⟩
  | _ => exact ⟨_, _, rfl⟩

end

section
variable {line : Int} {text behind source : List Char} {ps : List Piece}

theorem Splits.nil (line : Int) : Splits line [] [] where
  text := rfl
  form before p after h := by cases before <;> cases h
  line before p after h := by cases before <;> cases h

theorem Splits.cons {content : Content} (hform : Form content text behind)
    (h : Splits (line + lineEnds text) behind ps) :
    Splits line (text ++ behind) (⟨text, content, line + lineEnds text⟩ :: ps) where
  text := by rw [List.flatMap_cons, h.text]
  form before p after heq := by
    cases before with
    | nil =>
      cases heq
      rw [h.text]
      exact hform
    | cons q before =>
      cases heq
      exact h.form before p after rfl
  line before p after heq := by
    cases before with
    | nil =>
      cases heq
      rfl
    | cons q before =>
      cases heq
      rw [h.line before p after rfl, List.flatMap_cons, List.append_assoc, lineEnds_append text]
      omega

/-- The first piece of a division, and the division of what stands behind it. -/
theorem Splits.uncons {p : Piece} (h : Splits line source (p :: ps)) :
    ∃ behind, source = p.text ++ behind ∧ Form p.content p.text behind ∧
      p.line = line + lineEnds p.text ∧ Splits p.line behind ps := by
  have hline : p.line = line + lineEnds p.text := h.line [] p ps rfl
  refine ⟨ps.flatMap Piece.text, h.text.symm, h.form [] p ps rfl, hline, rfl, ?_, ?_⟩
  · rintro before q after rfl
    exact h.form (p :: before) q after rfl
  · rintro before q after rfl
    rw [h.line (p :: before) q after rfl, hline, List.flatMap_cons, List.append_assoc,
      lineEnds_append p.text]
    omega

theorem splits_pieces (line : Int) (source : List Char) :
    Splits line source (pieces line source) := by
  induction line, source using pieces_induction with
  | nil line => exact .nil line
  | cons line c rest ih =>
    obtain ⟨_, hform⟩ := formed c rest
    have hsplits := Splits.cons hform ih
    rw [List.cons_append, List.take_append_drop] at hsplits
    rw [pieces_cons]
    exact hsplits

/-- There is no other division. -/
theorem Splits.eq_pieces (h : Splits line source ps) : ps = pieces line source := by
  induction ps generalizing line source with
  | nil =>
    obtain rfl : [] = source := h.text
    rfl
  | cons p ps ih =>
    obtain ⟨behind, rfl, hform, hline, hrest⟩ := h.uncons
    obtain ⟨c, more, htext⟩ := hform.exists_cons
    obtain ⟨text, content, pline⟩ := p
    obtain rfl : text = c :: more := htext
    have hfirst := first_of_form hform
    have hpiece : firstPiece line c (more ++ behind) = ⟨c :: more, content, pline⟩ := by
      simp only [firstPiece, hfirst, List.take_left, Piece.mk.injEq, true_and]
      exact hline.symm
    rw [List.cons_append, pieces_cons, hpiece, hfirst, List.drop_left, ← ih hrest]

end

/-- **The tokens and errors of a source text are those of its lexical grammar.**  There is one way,
and no other, to divide a source into pieces each of which is, before the rest of the text, the
longest lexeme there, a blank, a comment, or something wrong, and ends on line one more than the
line ends up to there.  The tokens are those of the pieces that are lexemes, in their order, and
behind them the end token, and the errors are those of the wrong pieces, in their order; and the
text of a lexeme determines its kind and its literal. -/
theorem tokenize_splits (source : String) :
    ∃ ps, Splits 1 source.toList ps ∧ (∀ ps', Splits 1 source.toList ps' → ps' = ps) ∧
      (tokenize source).tokens =
        ps.filterMap Piece.token? ++ [endToken (1 + lineEnds source.toList)] ∧
      (tokenize source).errors = ps.filterMap Piece.error? ∧
      ∀ text kind kind' literal literal', Lexeme text kind literal → Lexeme text kind' literal' →
        kind = kind' ∧ literal = literal' :=
  ⟨pieces 1 source.toList, splits_pieces 1 _, fun _ h => h.eq_pieces, rfl, rfl,
    fun _ _ _ _ _ h h' => h.unique h'⟩

end Source
end LoxLang
