import LoxLang.Syntax.Render
import Mathlib.Data.List.TakeWhile

/-! # Outlines

A rendered program is made of words, of strings in quotes, and of parts in parentheses with blanks
between them, where a label may stand right before the parenthesis.  An `Outline` says how it is
made up.

The text determines the outline (`Outline.cancel`): a word or label reaches as far as there are
plain characters, the character behind it tells whether it is a word, a label or nothing before a
quote, and a string reaches to the next quote.  What stands behind a part begins with a blank, a
line end or a closing parenthesis, and none of these begins a part, so it is also seen where the
parts of a branch end. -/

namespace LoxLang

/-- How a rendered text is made up. -/
inductive Outline
  | word (s : String)
  | quoted (s : String)
  /-- Parts in parentheses, behind a label, which may be empty. -/
  | branch (label : String) (parts : List Outline)

namespace Outline

mutual

/-- The text of an outline. -/
def text : Outline → String
  | word s => s
  | quoted s => "\"" ++ s ++ "\""
  | branch label parts => label ++ node (texts parts)

/-- The texts of outlines. -/
def texts : List Outline → List String
  | [] => []
  | p :: ps => p.text :: texts ps

end

theorem texts_eq (ps : List Outline) : texts ps = ps.map text := by
  induction ps with
  | nil => rfl
  | cons p ps ih => rw [texts, ih, List.map_cons]

/-- The characters of words and labels. -/
def isPlain (c : Char) : Bool := c ∉ [' ', '\n', '(', ')', '"']

/-- Whether a text is one or more plain characters. -/
def isWord (s : String) : Bool := s != "" && s.toList.all isPlain

theorem isWord_iff {s : String} : isWord s ↔ s ≠ "" ∧ ∀ c ∈ s.toList, isPlain c := by
  rw [isWord, Bool.and_eq_true, bne_iff_ne, List.all_eq_true]

/-- An outline whose words and labels are plain and whose strings hold no quotes. -/
inductive Readable : Outline → Prop
  | word {s : String} (hword : isWord s) : Readable (word s)
  | quoted {s : String} (hquote : '"' ∉ s.toList) : Readable (quoted s)
  | branch {label : String} {parts : List Outline} (hplain : ∀ c ∈ label.toList, isPlain c)
      (hparts : ∀ p ∈ parts, p.Readable) : Readable (branch label parts)

/-- A text that can stand behind an outline. -/
def CanFollow (rest : List Char) : Prop := ∀ c ∈ rest.head?, c ∈ [' ', '\n', ')']

theorem canFollow_nil : CanFollow [] := by simp [CanFollow]

theorem canFollow_cons {c : Char} {rest : List Char} :
    CanFollow (c :: rest) ↔ c ∈ [' ', '\n', ')'] := by simp [CanFollow]

/-! ## Texts as characters -/

/-- The texts of outlines, each behind a separator. -/
def chain (separator : Char) (ps : List Outline) : List Char :=
  ps.flatMap fun p => separator :: p.text.toList

/-- The texts of outlines with a separator between them. -/
def joined (separator : Char) (ps : List Outline) : List Char :=
  ((String.singleton separator).intercalate (texts ps)).toList

theorem joined_nil (separator : Char) : joined separator [] = [] := rfl

theorem joined_cons (separator : Char) (p : Outline) (ps : List Outline) :
    joined separator (p :: ps) = p.text.toList ++ chain separator ps := by
  induction ps generalizing p with
  | nil => simp [joined, chain, texts]
  | cons q ps ih =>
    have hrest := ih q
    unfold joined at hrest ⊢
    rw [texts, texts, String.intercalate_cons_cons, String.toList_append, ← texts, hrest]
    simp [chain]

/-- The plain characters with which an outline begins. -/
def plainPart : Outline → List Char
  | word s => s.toList
  | quoted _ => []
  | branch label _ => label.toList

/-- What stands behind them, up to a quote or a closing parenthesis. -/
def closedPart : Outline → List Char
  | word _ => []
  | quoted s => '"' :: (s.toList ++ ['"'])
  | branch _ parts => '(' :: (joined ' ' parts ++ [')'])

theorem toList_text (p : Outline) : p.text.toList = p.plainPart ++ p.closedPart := by
  cases p with
  | word s => exact (List.append_nil _).symm
  | quoted s =>
    rw [text, String.toList_append, String.toList_append]
    rfl
  | branch label parts =>
    rw [text, node, String.toList_append, String.toList_append, String.toList_append]
    rfl

theorem Readable.plain {p : Outline} (h : p.Readable) : ∀ c ∈ p.plainPart, isPlain c := by
  cases h with
  | word hword => exact (isWord_iff.mp hword).2
  | branch hplain => exact hplain
  | quoted => exact List.forall_mem_nil _

/-- A readable outline begins with a character that can follow none. -/
theorem Readable.exists_cons {p : Outline} (h : p.Readable) :
    ∃ c rest, p.text.toList = c :: rest ∧ c ∉ [' ', '\n', ')'] := by
  have hplain : ∀ c ∈ p.plainPart, c ∉ [' ', '\n', ')'] := by
    intro c hc hmem
    have hclass := h.plain c hc
    simp only [List.mem_cons, List.not_mem_nil, or_false] at hmem
    rcases hmem with rfl | rfl | rfl <;> cases hclass
  rw [toList_text]
  cases hbegin : p.plainPart with
  | cons c rest => exact ⟨c, _, rfl, hplain c (hbegin ▸ List.mem_cons_self)⟩
  | nil =>
    cases h with
    | word hword => exact absurd (String.toList_eq_nil_iff.mp hbegin) (isWord_iff.mp hword).1
    | quoted => exact ⟨'"', _, rfl, by decide⟩
    | branch => exact ⟨'(', _, rfl, by decide⟩

/-! ## Stretches of characters -/

/-- Two stretches of characters of a class that both end where the class ends are the same. -/
theorem stretch_cancel {p : Char → Bool} {w w' rest rest' : List Char} (hw : ∀ c ∈ w, p c)
    (hw' : ∀ c ∈ w', p c) (hrest : ∀ c ∈ rest.head?, p c = false)
    (hrest' : ∀ c ∈ rest'.head?, p c = false) (h : w ++ rest = w' ++ rest') :
    w = w' ∧ rest = rest' := by
  have hnone : ∀ {more : List Char}, (∀ c ∈ more.head?, p c = false) → more.takeWhile p = [] := by
    intro more hmore
    cases more with
    | nil => rfl
    | cons c more =>
      refine List.takeWhile_cons_of_neg ?_
      rw [hmore c rfl]
      exact Bool.false_ne_true
  have heq := congrArg (List.takeWhile p) h
  rw [List.takeWhile_append_of_pos hw, List.takeWhile_append_of_pos hw', hnone hrest, hnone hrest',
    List.append_nil, List.append_nil] at heq
  subst heq
  exact ⟨rfl, List.append_cancel_left h⟩

/-- Plain characters end before what can follow. -/
theorem CanFollow.not_plain {rest : List Char} (h : CanFollow rest) :
    ∀ c ∈ rest.head?, isPlain c = false := by
  intro c hc
  have hmem := h c hc
  simp only [List.mem_cons, List.not_mem_nil, or_false] at hmem
  rcases hmem with rfl | rfl | rfl <;> rfl

/-! ## The text determines the outline -/

/-- The text of an outline, whatever stands behind it, is that of no other outline. -/
def Cancels (p : Outline) : Prop :=
  ∀ p' rest rest', p'.Readable → CanFollow rest → CanFollow rest' →
    p.text.toList ++ rest = p'.text.toList ++ rest' → p = p' ∧ rest = rest'

section
variable {separator : Char} {ps ps' : List Outline} {rest rest' : List Char}

theorem canFollow_chain (hseparator : separator ∈ [' ', '\n', ')']) (hrest : CanFollow rest) :
    CanFollow (chain separator ps ++ rest) := by
  cases ps with
  | nil => exact hrest
  | cons p ps => exact canFollow_cons.mpr hseparator

theorem chain_cancel (hseparator : separator ∈ [' ', '\n', ')']) (hps : ∀ p ∈ ps, p.Cancels)
    (hps' : ∀ p ∈ ps', p.Readable) (hrest : CanFollow rest) (hrest' : CanFollow rest')
    (hend : rest.head? ≠ some separator) (hend' : rest'.head? ≠ some separator)
    (h : chain separator ps ++ rest = chain separator ps' ++ rest') : ps = ps' ∧ rest = rest' := by
  induction ps generalizing ps' with
  | nil =>
    cases ps' with
    | nil => exact ⟨rfl, h⟩
    | cons p' ps' =>
      refine absurd ?_ hend
      rw [show rest = _ from h]
      rfl
  | cons p ps ih =>
    cases ps' with
    | nil =>
      refine absurd ?_ hend'
      rw [← show _ = rest' from h]
      rfl
    | cons p' ps' =>
      rw [List.forall_mem_cons] at hps hps'
      simp only [chain, List.flatMap_cons, List.cons_append, List.append_assoc,
        List.cons.injEq, true_and] at h
      obtain ⟨rfl, hbehind⟩ := hps.1 p' _ _ hps'.1 (canFollow_chain hseparator hrest)
        (canFollow_chain hseparator hrest') h
      obtain ⟨rfl, rfl⟩ := ih hps.2 hps'.2 hbehind
      exact ⟨rfl, rfl⟩

theorem joined_cancel (hseparator : separator ∈ [' ', '\n', ')']) (hps : ∀ p ∈ ps, p.Cancels)
    (hread : ∀ p ∈ ps, p.Readable) (hps' : ∀ p ∈ ps', p.Readable) (hrest : CanFollow rest)
    (hrest' : CanFollow rest') (hend : rest.head? ≠ some separator)
    (hend' : rest'.head? ≠ some separator)
    (h : joined separator ps ++ rest = joined separator ps' ++ rest') :
    ps = ps' ∧ rest = rest' := by
  -- where there is nothing, no outline begins
  have hbegin : ∀ {p : Outline} {more behind : List Char}, p.Readable → CanFollow behind →
      behind ≠ p.text.toList ++ more := by
    rintro p more behind hp hbehind rfl
    obtain ⟨c, text, htext, hc⟩ := hp.exists_cons
    rw [htext, List.cons_append, canFollow_cons] at hbehind
    exact hc hbehind
  cases ps with
  | nil =>
    cases ps' with
    | nil => exact ⟨rfl, h⟩
    | cons p' ps' =>
      rw [joined_nil, List.nil_append, joined_cons, List.append_assoc] at h
      exact absurd h (hbegin (hps' p' List.mem_cons_self) hrest)
  | cons p ps =>
    cases ps' with
    | nil =>
      rw [joined_nil, List.nil_append, joined_cons, List.append_assoc] at h
      exact absurd h.symm (hbegin (hread p List.mem_cons_self) hrest')
    | cons p' ps' =>
      refine chain_cancel hseparator hps hps' hrest hrest' hend hend' ?_
      rw [joined_cons, joined_cons] at h
      exact congrArg (separator :: ·) h

end

/-- Behind its plain characters an outline goes on with another one, or ends. -/
theorem head_closedPart (p : Outline) {rest : List Char} (hrest : CanFollow rest) :
    ∀ c ∈ (p.closedPart ++ rest).head?, isPlain c = false := by
  cases p with
  | word => exact hrest.not_plain
  | quoted | branch =>
    rintro c hc
    cases hc
    rfl

/-- Two readable outlines with the same text before what can follow begin alike. -/
theorem Readable.parts_cancel {p p' : Outline} (hp : p.Readable) (hp' : p'.Readable)
    {rest rest' : List Char} (hrest : CanFollow rest) (hrest' : CanFollow rest')
    (h : p.text.toList ++ rest = p'.text.toList ++ rest') :
    p.plainPart = p'.plainPart ∧ p.closedPart ++ rest = p'.closedPart ++ rest' := by
  rw [toList_text, toList_text, List.append_assoc, List.append_assoc] at h
  exact stretch_cancel hp.plain hp'.plain (p.head_closedPart hrest) (p'.head_closedPart hrest') h

/-- A string ends at its second quote. -/
theorem quoted_cancel {s s' : List Char} {rest rest' : List Char} (hs : '"' ∉ s) (hs' : '"' ∉ s')
    (h : s ++ ['"'] ++ rest = s' ++ ['"'] ++ rest') : s = s' ∧ rest = rest' := by
  rw [List.append_assoc, List.append_assoc] at h
  have hkind : ∀ {body : List Char}, '"' ∉ body → ∀ c ∈ body, (c != '"') = true := by
    intro body hbody c hc
    refine bne_iff_ne.mpr ?_
    rintro rfl
    exact hbody hc
  obtain ⟨rfl, hrest⟩ := stretch_cancel (hkind hs) (hkind hs') (by simp) (by simp) h
  exact ⟨rfl, (List.cons.inj hrest).2⟩

/-- **The text of a readable outline determines it**, and where it ends. -/
theorem Readable.cancels {p : Outline} (h : p.Readable) : p.Cancels := by
  induction h with
  | word hword =>
    intro p' rest rest' hp' hrest hrest' h
    obtain ⟨hplain, hclosed⟩ := (Readable.word hword).parts_cancel hp' hrest hrest' h
    cases hp' with
    | word => exact ⟨congrArg Outline.word (String.toList_inj.mp hplain), hclosed⟩
    | quoted | branch =>
      rw [show rest = _ from hclosed] at hrest
      exact absurd (canFollow_cons.mp hrest) (by decide)
  | quoted hs =>
    intro p' rest rest' hp' hrest hrest' h
    obtain ⟨hplain, hclosed⟩ := (Readable.quoted hs).parts_cancel hp' hrest hrest' h
    cases hp' with
    | quoted hs' =>
      obtain ⟨heq, hbehind⟩ := quoted_cancel hs hs' (List.cons.inj hclosed).2
      exact ⟨congrArg Outline.quoted (String.toList_inj.mp heq), hbehind⟩
    | word =>
      rw [← show _ = rest' from hclosed] at hrest'
      exact absurd (canFollow_cons.mp hrest') (by decide)
    | branch => exact absurd (List.cons.inj hclosed).1 (by decide)
  | @branch label parts hlabel hparts ih =>
    intro p' rest rest' hp' hrest hrest' h
    obtain ⟨hplain, hclosed⟩ := (Readable.branch hlabel hparts).parts_cancel hp' hrest hrest' h
    cases hp' with
    | @branch _ parts' _ hparts' =>
      have hinner : joined ' ' parts ++ [')'] ++ rest = joined ' ' parts' ++ [')'] ++ rest' :=
        (List.cons.inj hclosed).2
      rw [List.append_assoc, List.append_assoc] at hinner
      have hend : ∀ {more : List Char}, CanFollow (')' :: more) := canFollow_cons.mpr (by decide)
      obtain ⟨rfl, hbehind⟩ := joined_cancel (by decide) ih hparts hparts' hend hend (by simp)
        (by simp) hinner
      rw [String.toList_inj.mp hplain]
      exact ⟨rfl, (List.cons.inj hbehind).2⟩
    | word =>
      rw [← show _ = rest' from hclosed] at hrest'
      exact absurd (canFollow_cons.mp hrest') (by decide)
    | quoted => exact absurd (List.cons.inj hclosed).1 (by decide)

/-- Readable outlines on lines of their own are determined by the whole text. -/
theorem eq_of_lines_eq {ps ps' : List Outline} (hps : ∀ p ∈ ps, p.Readable)
    (hps' : ∀ p ∈ ps', p.Readable)
    (h : "\n".intercalate (ps.map text) = "\n".intercalate (ps'.map text)) : ps = ps' := by
  have hjoined : joined '\n' ps ++ [] = joined '\n' ps' ++ [] := by
    unfold joined
    rw [texts_eq, texts_eq]
    exact congrArg (fun s => s.toList ++ []) h
  exact (joined_cancel (by decide) (fun p hp => (hps p hp).cancels) hps hps' canFollow_nil
    canFollow_nil (by simp) (by simp) hjoined).1

end Outline
end LoxLang
