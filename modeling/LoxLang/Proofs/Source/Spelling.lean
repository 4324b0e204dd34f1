import LoxLang.Proofs.Grammar.Reads
import LoxLang.Proofs.Grammar.Yields
import LoxLang.Proofs.Source.Joining

/-! # The spelling of tokens

A source text gives every token its kind by its text, so a name is none of the words that have a
meaning of their own.  And whatever the text is, its tokens end with an end token. -/

namespace LoxLang
namespace Kind

/-- The kinds of the tokens whose text is a word. -/
def isWord (k : Kind) : Bool := k ∈ [identifier, thisWord, superWord]

theorem eq_of_keyword?_thisWord {word : String} (h : keyword? word = some thisWord) :
    word = "this" := by
  unfold keyword? at h
  split at h <;> first | rfl | exact nomatch h

theorem eq_of_keyword?_superWord {word : String} (h : keyword? word = some superWord) :
    word = "super" := by
  unfold keyword? at h
  split at h <;> first | rfl | exact nomatch h

end Kind

namespace Source

theorem isWord_of_punctuation? {c : Char} {kind : Kind} (h : punctuation? c = some kind) :
    kind.isWord = false := by
  unfold punctuation? at h
  split at h <;> cases h <;> rfl

theorem isWord_of_operator? {c : Char} {alone withEqual : Kind}
    (h : operator? c = some (alone, withEqual)) :
    alone.isWord = false ∧ withEqual.isWord = false := by
  unfold operator? at h
  split at h <;> cases h <;> exact ⟨rfl, rfl⟩

/-- A token that can be a word has the kind that its text has among the words. -/
theorem kind_first {c : Char} {rest : List Char} {kind : Kind} {literal : Datum} {length : Nat}
    (h : first c rest = (.token kind literal, length)) (hkind : kind.isWord) :
    kind = (Kind.keyword? (String.ofList (c :: rest.take length))).getD .identifier := by
  unfold first at h
  split at h
  · rename_i hp
    cases h
    simp [isWord_of_punctuation? hp] at hkind
  · rename_i alone withEqual _ ho
    obtain ⟨halone, hequal⟩ := isWord_of_operator? ho
    split at h <;> cases h
    · simp [hequal] at hkind
    · simp [halone] at hkind
  · split at h
    · repeat' split at h
      all_goals cases h
      simp [Kind.isWord] at hkind
    split at h
    · cases h
    split at h
    · dsimp only at h
      split at h <;> cases h
      simp [Kind.isWord] at hkind
    split at h
    · cases h
      simp [Kind.isWord] at hkind
    split at h
    · cases h
      rw [← List.prefix_iff_eq_take.mp (List.takeWhile_prefix isNamePart)]
    · cases h

/-- The pieces of a text are first pieces of some of its ends. -/
theorem exists_firstPiece {line : Int} {text : List Char} {p : Piece} (h : p ∈ pieces line text) :
    ∃ line c rest, p = firstPiece line c rest := by
  induction line, text using pieces_induction with
  | nil line => exact nomatch h
  | cons line c rest ih =>
    rw [pieces_cons, List.mem_cons] at h
    rcases h with rfl | h
    · exact ⟨_, _, _, rfl⟩
    · exact ih h

/-- A token of a source text that can be a word is of the kind of its text. -/
theorem kind_of_mem_tokenize {source : String} {t : Token} (ht : t ∈ (tokenize source).tokens)
    (hkind : t.kind.isWord) : t.kind = (Kind.keyword? t.lexeme).getD .identifier := by
  simp only [tokenize, List.mem_append, List.mem_filterMap, List.mem_singleton] at ht
  rcases ht with ⟨p, hp, ht⟩ | rfl
  · obtain ⟨line, c, rest, rfl⟩ := exists_firstPiece hp
    unfold Piece.token? at ht
    split at ht
    · rename_i kind literal hcontent
      cases ht
      exact kind_first (Prod.ext hcontent rfl) hkind
    · cases ht
  · simp [endToken, Kind.isWord] at hkind

/-- The tokens of a source text are spelled by their kinds. -/
theorem spelled_tokenize {source : String} {t : Token} (ht : t ∈ (tokenize source).tokens) :
    t.Spelled := by
  have hword : ∀ {kind}, t.kind = kind → kind ∈ [.identifier, .thisWord, .superWord] →
      kind = (Kind.keyword? t.lexeme).getD .identifier := by
    rintro kind rfl hkind
    exact kind_of_mem_tokenize ht (decide_eq_true hkind)
  constructor
  · intro h
    have hk := hword h (by simp)
    constructor
    · intro hthis
      rw [hthis] at hk
      cases hk
    · intro hsuper
      rw [hsuper] at hk
      cases hk
  · intro h
    have hk := hword h (by simp)
    cases hkeyword : Kind.keyword? t.lexeme with
    | none => simp [hkeyword] at hk
    | some kind => exact Kind.eq_of_keyword?_thisWord (by simpa [hkeyword] using hk.symm)
  · intro h
    have hk := hword h (by simp)
    cases hkeyword : Kind.keyword? t.lexeme with
    | none => simp [hkeyword] at hk
    | some kind => exact Kind.eq_of_keyword?_superWord (by simpa [hkeyword] using hk.symm)

/-- No text is an end token. -/
theorem kind_first_ne_eof {c : Char} {rest : List Char} {kind : Kind} {literal : Datum}
    {length : Nat} (h : first c rest = (.token kind literal, length)) : kind ≠ .eof := by
  rintro rfl
  unfold first at h
  split at h
  · rename_i hp
    cases h
    unfold punctuation? at hp
    split at hp <;> cases hp
  · rename_i ho
    unfold operator? at ho
    split at h <;> cases h <;> split at ho <;> cases ho
  · split at h
    · repeat' split at h
      all_goals cases h
    split at h
    · cases h
    split at h
    · dsimp only at h
      split at h <;> cases h
    split at h
    · cases h
    split at h
    · -- What is left is a name, which has the kind of a word or that of a name.
      have hword := congrArg (fun p : Content × Nat => p.1) h
      simp only [Content.token.injEq] at hword
      cases hkeyword : Kind.keyword? (String.ofList (c :: rest.takeWhile isNamePart)) with
      | none =>
        rw [hkeyword] at hword
        exact nomatch hword.1
      | some kind =>
        rw [hkeyword] at hword
        obtain rfl : kind = .eof := hword.1
        unfold Kind.keyword? at hkeyword
        split at hkeyword <;> cases hkeyword
    · cases h

theorem noEnd_tokensBeforeEnd (source : String) : NoEnd (tokensBeforeEnd source) := by
  intro t ht
  obtain ⟨p, hp, htoken⟩ := List.mem_filterMap.mp ht
  obtain ⟨line, c, rest, rfl⟩ := exists_firstPiece hp
  unfold Piece.token? at htoken
  split at htoken
  · rename_i kind literal hcontent
    cases htoken
    exact kind_first_ne_eof (Prod.ext hcontent rfl)
  · cases htoken

/-- The tokens of a source text have an end. -/
theorem hasEnd_tokenize (source : String) : HasEnd (tokenize source).tokens :=
  ⟨endToken (1 + lineEnds source.toList), by simp [tokenize], rfl⟩

end Source

/-- The program of a source text is well-formed. -/
theorem wellFormed_of_parse {depth : Nat} {source : String} {parsed : Parsed}
    (h : parse depth (Source.tokenize source).tokens = .ok parsed) :
    ∀ s ∈ parsed.program, s.WellFormed :=
  wellFormed_of_parse_spelled (fun _ => Source.spelled_tokenize) h

end LoxLang
