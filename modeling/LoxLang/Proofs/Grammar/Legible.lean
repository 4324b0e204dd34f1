import LoxLang.Proofs.Decimal.Characters
import LoxLang.Proofs.Grammar.Lexical
import LoxLang.Proofs.Syntax.Rendered
import LoxLang.Proofs.Syntax.Resembling

/-! # What an outline tells of a program

The outline of a lexical program whose numbers are finite is readable, and it determines the program
up to what is not rendered (`Stmt.Resembles`).

Most forms have a head of their own.  The forms that share one differ in the number of their parts:
an equals sign stands before two parts of an assignment and before three parts of a change of a
property, a minus before one operand or two.  And what stands alone is a name, a literal or `this`
by its first character, unless it is one of four words. -/

namespace LoxLang

open Grammar Source

variable {ι : Type}

/-! ## Words -/

/-- Whether a datum is finite if it is a number. -/
def Datum.isFinite : Datum → Bool
  | number x => (Binary.ofFloat x).isFinite
  | _ => true

/-- A literal as texts have it, and finite if it is a number. -/
structure Datum.IsLegible (d : Datum) : Prop where
  read : d.IsRead
  finite : d.isFinite

/-- A class of characters to which no blank, line end, parenthesis and quote belongs is plain. -/
theorem Outline.isPlain_of {p : Char → Bool} (hp : [' ', '\n', '(', ')', '"'].any p = false)
    {c : Char} (h : p c) : isPlain c := by
  refine decide_eq_true fun hc => ?_
  exact List.any_eq_false.mp hp c hc h

/-- Whether a word begins as names do. -/
def beginsName (s : String) : Bool := s.toList.head?.any isNameStart

theorem beginsName_of_toList {s : String} {c : Char} {rest : List Char} (h : s.toList = c :: rest) :
    beginsName s = isNameStart c := by rw [beginsName, h, List.head?_cons, Option.any_some]

/-- Names do not begin with digits. -/
theorem isNameStart_of_isDigit {c : Char} (h : c.isDigit) : isNameStart c = false := by
  have hdigit : Source.isDigit c = true := by
    simp only [Char.isDigit, Bool.and_eq_true, decide_eq_true_eq] at h
    simp only [Source.isDigit, Bool.and_eq_true, decide_eq_true_eq]
    exact h
  cases hname : isNameStart c with
  | false => rfl
  | true =>
    rw [isDigit_of_isNameStart hname] at hdigit
    cases hdigit

/-- The text of a finite number is plain, and begins as no name and no word does. -/
theorem numeral_word {x : Float} (h : (Binary.ofFloat x).isFinite) :
    Outline.isWord (numeral .display x) ∧ beginsName (numeral .display x) = false := by
  obtain ⟨text, hmagnitude, htext⟩ := numeral_characters h
  obtain ⟨c, rest, rfl, hc, hrest⟩ := hmagnitude
  have hplain : ∀ d ∈ c :: rest, Outline.isPlain d := by
    refine List.forall_mem_cons.mpr ⟨?_, fun d hd => Outline.isPlain_of (by decide) (hrest d hd)⟩
    exact Outline.isPlain_of (p := Char.isDigit) (by decide) hc
  rcases htext with htext | htext
  · refine ⟨Outline.isWord_iff.mpr ⟨?_, by rwa [htext]⟩, ?_⟩
    · rintro hempty
      rw [hempty] at htext
      cases htext
    · rw [beginsName_of_toList htext, isNameStart_of_isDigit hc]
  · refine ⟨Outline.isWord_iff.mpr ⟨?_, ?_⟩, ?_⟩
    · rintro hempty
      rw [hempty] at htext
      cases htext
    · rw [htext]
      exact List.forall_mem_cons.mpr ⟨rfl, hplain⟩
    · rw [beginsName_of_toList htext]
      rfl

/-- A name is plain, begins as names do, and is none of the words that stand alone. -/
theorem Token.IsOf.name {t : Token} (h : t.IsOf [.identifier]) :
    Outline.isWord t.lexeme ∧ beginsName t.lexeme = true ∧
      t.lexeme ∉ ["this", "nil", "true", "false"] := by
  have hlexeme : Lexeme t.lexeme.toList .identifier t.literal := by
    have hkind := List.mem_singleton.mp h.1
    rw [← hkind]
    exact h.2
  obtain ⟨c, rest, hchars, hc, hrest, hword⟩ := hlexeme.name
  rw [String.ofList_toList] at hword
  refine ⟨Outline.isWord_iff.mpr ⟨?_, ?_⟩, ?_, ?_⟩
  · intro hempty
    rw [hempty] at hchars
    cases hchars
  · rw [hchars]
    have hpart : isNamePart c := by rw [isNamePart, hc, Bool.true_or]
    exact List.forall_mem_cons.mpr ⟨Outline.isPlain_of (p := isNamePart) (by decide) hpart,
      fun d hd => Outline.isPlain_of (by decide) (hrest d hd)⟩
  · rw [beginsName_of_toList hchars, hc]
  · intro hmem
    simp only [List.mem_cons, List.not_mem_nil, or_false] at hmem
    rcases hmem with heq | heq | heq | heq <;> rw [heq] at hword <;> cases hword

theorem Token.IsOf.readable {t : Token} (h : t.IsOf [.identifier]) :
    (Outline.word t.lexeme).Readable := .word h.name.1

/-- An operator is plain if the spellings of operators at its place are. -/
theorem Token.IsOf.isWord {kinds : List Kind} {t : Token} (h : t.IsOf kinds)
    (hkinds : ∀ k ∈ kinds, k ∉ [.identifier, .text, .number] ∧ Outline.isWord k.spelling) :
    Outline.isWord t.lexeme := by
  rw [← h.spelling fun k hk => (hkinds k hk).1]
  exact (hkinds _ h.1).2

/-! ## Renderings are readable -/

/-- Readable parts in parentheses are readable behind a word. -/
theorem Outline.readable_form {head : String} {parts : List Outline} (hhead : isWord head)
    (hparts : ∀ p ∈ parts, p.Readable) : (form head parts).Readable :=
  .branch (List.forall_mem_nil _) (List.forall_mem_cons.mpr ⟨.word hhead, hparts⟩)

theorem Datum.IsLegible.readable {d : Datum} (h : d.IsLegible) : d.outline.Readable := by
  obtain ⟨hread, hfinite⟩ := h
  cases hread with
  | nil => exact .word (by decide)
  | bool b => cases b <;> exact .word (by decide)
  | number x => exact .word (numeral_word hfinite).1
  | text h => exact .quoted h

theorem Expr.Lexical.readable {e : Expr ι} (h : e.Lexical Datum.IsLegible) :
    e.outline.Readable := by
  induction h with
  | literal hvalue => exact hvalue.readable
  | nameRef hname => exact hname.readable
  | assign hname _ ih =>
    exact Outline.readable_form (by decide) (by simp [hname.readable, ih])
  | unary hop _ ih => exact Outline.readable_form (hop.isWord (by decide)) (by simp [ih])
  | binary hop _ _ ihleft ihright =>
    exact Outline.readable_form (hop.isWord (by decide)) (by simp [ihleft, ihright])
  | logical hop _ _ ihleft ihright =>
    exact Outline.readable_form (hop.isWord (by decide)) (by simp [ihleft, ihright])
  | group _ ih => exact Outline.readable_form (by decide) (by simp [ih])
  | call _ _ ihcallee iharguments =>
    refine Outline.readable_form (by decide)
      (List.forall_mem_cons.mpr ⟨ihcallee, ?_⟩)
    rw [outlines_eq]
    exact List.forall_mem_map.mpr iharguments
  | get _ hname ih =>
    exact Outline.readable_form (by decide) (by simp [hname.readable, ih])
  | set _ hname _ ihobject ihvalue =>
    exact Outline.readable_form (by decide)
      (by simp [hname.readable, ihobject, ihvalue])
  | thisRef => exact .word (by decide)
  | superRef _ hmethod =>
    exact Outline.readable_form (by decide) (by simp [hmethod.readable])

theorem Function.readable_outline {head : String} {f : Function ι} (hhead : Outline.isWord head)
    (hnamed : f.Named) (hbody : ∀ s ∈ f.body, s.outline.Readable) :
    (Function.outline head f).Readable := by
  obtain ⟨name, params, body⟩ := f
  have hsignature : (Outline.signature name params).Readable :=
    .branch (Outline.isWord_iff.mp hnamed.name.name.1).2
      (List.forall_mem_map.mpr fun p hp => (hnamed.params p hp).readable)
  refine Outline.readable_form hhead (List.forall_mem_cons.mpr ⟨hsignature, ?_⟩)
  rw [Stmt.outlines_eq]
  exact List.forall_mem_map.mpr hbody

theorem Stmt.Lexical.readable {s : Stmt ι} (h : s.Lexical Datum.IsLegible) :
    s.outline.Readable := by
  induction h with
  | expression hvalue =>
    exact Outline.readable_form (by decide) (by simp [hvalue.readable])
  | print hvalue =>
    exact Outline.readable_form (by decide) (by simp [hvalue.readable])
  | @var name initial hname hinitial =>
    cases initial with
    | none => exact Outline.readable_form (by decide) (by simp [hname.readable])
    | some value =>
      have hequals : (Outline.word "=").Readable := .word (by decide)
      exact Outline.readable_form (by decide)
        (by simp [hname.readable, hequals, (hinitial value rfl).readable])
  | block _ ih =>
    refine Outline.readable_form (by decide) ?_
    rw [outlines_eq]
    exact List.forall_mem_map.mpr ih
  | ifThen hcondition _ ih =>
    exact Outline.readable_form (by decide) (by simp [hcondition.readable, ih])
  | ifElse hcondition _ _ ihbody ihother =>
    exact Outline.readable_form (by decide)
      (by simp [hcondition.readable, ihbody, ihother])
  | whileLoop hcondition _ ih =>
    exact Outline.readable_form (by decide) (by simp [hcondition.readable, ih])
  | function hnamed _ ih => exact Function.readable_outline (by decide) hnamed ih
  | @returnFrom keyword value _ hvalue =>
    cases value with
    | none => exact Outline.readable_form (by decide) (List.forall_mem_nil _)
    | some value =>
      exact Outline.readable_form (by decide)
        (by simp [(hvalue value rfl).readable])
  | @classOf name superclass methods hname hsuperclass hnamed _ ih =>
    have hparent : ∀ p ∈ Outline.superclass superclass, p.Readable := by
      cases superclass with
      | none => exact List.forall_mem_nil _
      | some ref =>
        have hless : (Outline.word "<").Readable := .word (by decide)
        simp [Outline.superclass, hless, (hsuperclass ref rfl).readable]
    have hmethods : ∀ p ∈ Function.outlines methods, p.Readable := by
      rw [Function.outlines_eq]
      exact List.forall_mem_map.mpr fun m hm =>
        Function.readable_outline (by decide) (hnamed m hm) (ih m hm)
    exact Outline.readable_form (by decide) (List.forall_mem_cons.mpr
      ⟨hname.readable, List.forall_mem_append.mpr ⟨hparent, hmethods⟩⟩)

/-! ## Outlines of one form -/

/-- The forms of expressions. -/
inductive ExprShape
  | literal
  | name
  | assign
  | unary
  | binary
  | logical
  | group
  | call
  | get
  | set
  | this
  | super
  | unknown
  deriving DecidableEq

/-- The form of an expression. -/
def Expr.shape : Expr ι → ExprShape
  | .literal _ => .literal
  | .nameRef _ => .name
  | .assign _ _ => .assign
  | .unary _ _ => .unary
  | .binary _ _ _ => .binary
  | .logical _ _ _ => .logical
  | .group _ => .group
  | .call _ _ _ => .call
  | .get _ _ => .get
  | .set _ _ _ => .set
  | .thisRef _ => .this
  | .superRef _ _ => .super
  | .unknown _ => .unknown

/-- The form of an expression whose outline is in parentheses, by its head and the number of parts
behind it. -/
def ExprShape.ofHead (head : String) (parts : Nat) : ExprShape :=
  match head with
  | "=" => if parts = 2 then assign else set
  | "group" => group
  | "call" => call
  | "." => get
  | "super" => super
  | "and" | "or" => logical
  | _ => if parts = 1 then unary else binary

/-- The form of an expression with the outline. -/
def Outline.shape : Outline → ExprShape
  | word s =>
    if s = "this" then .this
    else if beginsName s && s ∉ ["nil", "true", "false"] then .name
    else .literal
  | quoted _ => .literal
  | branch _ (word head :: parts) => .ofHead head parts.length
  | branch _ _ => .unknown

theorem Datum.IsLegible.shape_outline {d : Datum} (h : d.IsLegible) :
    d.outline.shape = .literal := by
  obtain ⟨hread, hfinite⟩ := h
  cases hread with
  | nil => rfl
  | bool b => cases b <;> rfl
  | number x =>
    have hbegin := (numeral_word hfinite).2
    have hthis : numeral .display x ≠ "this" := by
      intro heq
      rw [heq] at hbegin
      cases hbegin
    show Outline.shape (.word (numeral .display x)) = _
    simp only [Outline.shape, if_neg hthis, hbegin, Bool.false_and, Bool.false_eq_true, if_false]
  | text h => rfl

/-- The outline of a legible expression tells its form. -/
theorem Expr.Lexical.shape_outline {e : Expr ι} (h : e.Lexical Datum.IsLegible) :
    e.outline.shape = e.shape := by
  -- the operators at a place have spellings that tell the place
  have hhead : ∀ {kinds : List Kind} {op : Token} {n : Nat} {shape : ExprShape}, op.IsOf kinds →
      (∀ k ∈ kinds, k ∉ [.identifier, .text, .number] ∧ ExprShape.ofHead k.spelling n = shape) →
      ExprShape.ofHead op.lexeme n = shape := by
    intro kinds op n shape hop hkinds
    rw [← hop.spelling fun k hk => (hkinds k hk).1]
    exact (hkinds _ hop.1).2
  cases h with
  | literal hvalue => exact hvalue.shape_outline
  | nameRef hname =>
    obtain ⟨_, hbegin, hword⟩ := hname.name
    simp only [List.mem_cons, not_or] at hword
    simp [outline, Outline.shape, shape, hbegin, hword]
  | @unary op _ hop =>
    have hshape : ExprShape.ofHead op.lexeme 1 = .unary := hhead hop (by decide)
    exact hshape
  | @binary _ _ op hop =>
    have hshape : ExprShape.ofHead op.lexeme 2 = .binary := hhead hop (by decide)
    exact hshape
  | @logical _ _ op hop =>
    have hshape : ExprShape.ofHead op.lexeme 2 = .logical := hhead hop (by decide)
    exact hshape
  | _ => rfl

/-- Legible expressions with the same outline have the same form. -/
theorem Expr.Lexical.shape_eq {e e' : Expr ι} (h : e.Lexical Datum.IsLegible)
    (h' : e'.Lexical Datum.IsLegible) (heq : e.outline = e'.outline) : e.shape = e'.shape := by
  rw [← h.shape_outline, ← h'.shape_outline, heq]

/-! ## The outline determines the program -/

theorem Outline.form_inj {head head' : String} {parts parts' : List Outline} :
    form head parts = form head' parts' ↔ head = head' ∧ parts = parts' := by
  simp [form]

/-- The outline of a legible literal determines it up to numbers with the same text: no number has
the text of a word. -/
theorem Datum.IsLegible.resembles {d d' : Datum} (h : d.IsLegible) (h' : d'.IsLegible)
    (heq : d.outline = d'.outline) : d.Resembles d' := by
  have hnumber : ∀ {x : Float} {s : String}, (number x).isFinite → beginsName s = true →
      Outline.word (numeral .display x) ≠ .word s := by
    rintro x s hx hs heq
    cases heq
    rw [(numeral_word hx).2] at hs
    cases hs
  obtain ⟨hread, hfinite⟩ := h
  obtain ⟨hread', hfinite'⟩ := h'
  cases hread with
  | nil =>
    cases hread' with
    | nil => exact .same _
    | bool b => cases b <;> exact absurd (Outline.word.inj heq) (by decide)
    | number => exact absurd heq.symm (hnumber hfinite' (by decide))
    | text => cases heq
  | bool b =>
    cases hread' with
    | nil => cases b <;> exact absurd (Outline.word.inj heq) (by decide)
    | bool b' =>
      obtain rfl : b = b' := by
        cases b <;> cases b' <;> first | rfl | exact absurd (Outline.word.inj heq) (by decide)
      exact .same _
    | number => cases b <;> exact absurd heq.symm (hnumber hfinite' (by decide))
    | text => cases heq
  | number x =>
    cases hread' with
    | nil => exact absurd heq (hnumber hfinite (by decide))
    | bool b => cases b <;> exact absurd heq (hnumber hfinite (by decide))
    | number => exact .number (Outline.word.inj heq)
    | text => cases heq
  | text =>
    cases hread' with
    | text =>
      cases heq
      exact .same _
    | _ => cases heq

/-- Lists whose members are related if a function agrees on them, and on which it agrees. -/
theorem forall₂_of_map_eq {α β : Type} {f : α → β} {R : α → α → Prop} {as bs : List α}
    (hR : ∀ a ∈ as, ∀ b ∈ bs, f a = f b → R a b) (h : as.map f = bs.map f) :
    List.Forall₂ R as bs := by
  induction as generalizing bs with
  | nil =>
    cases bs with
    | nil => exact .nil
    | cons b bs => cases h
  | cons a as ih =>
    cases bs with
    | nil => cases h
    | cons b bs =>
      obtain ⟨hhead, htail⟩ := List.cons.inj h
      exact .cons (hR a List.mem_cons_self b List.mem_cons_self hhead)
        (ih (fun a ha b hb => hR a (List.mem_cons_of_mem _ ha) b (List.mem_cons_of_mem _ hb)) htail)

theorem Token.IsOf.unlined_eq {kinds kinds' : List Kind} {t t' : Token} (h : t.IsOf kinds)
    (h' : t'.IsOf kinds') (heq : t.lexeme = t'.lexeme) : t.unlined = t'.unlined :=
  h.2.unlined_eq h'.2 heq

/-- Tokens of one kind that has a spelling are the same up to lines. -/
theorem Token.IsOf.unlined_eq_of_spelling {kind : Kind} {t t' : Token} (h : t.IsOf [kind])
    (h' : t'.IsOf [kind]) (hkind : kind ∉ [.identifier, .text, .number]) :
    t.unlined = t'.unlined := by
  have hkinds : ∀ k ∈ [kind], k ∉ [.identifier, .text, .number] :=
    List.forall_mem_singleton.mpr hkind
  refine h.unlined_eq h' ?_
  rw [← h.spelling hkinds, ← h'.spelling hkinds, List.mem_singleton.mp h.1,
    List.mem_singleton.mp h'.1]

/-- **The outline of a legible expression determines it** up to what is not rendered. -/
theorem Expr.Lexical.resembles {e e' : Expr ι} (h : e.Lexical Datum.IsLegible)
    (h' : e'.Lexical Datum.IsLegible) (heq : e.outline = e'.outline) : e.Resembles e' := by
  induction h generalizing e' with
  -- the same outline means the same form, so both expressions are of one constructor
  | literal hvalue =>
    have hshape := (Lexical.literal hvalue).shape_eq h' heq
    cases h' with
    | literal hvalue' => exact .literal (hvalue.resembles hvalue' heq)
    | _ => cases hshape
  | nameRef hname =>
    have hshape := (Lexical.nameRef hname).shape_eq h' heq
    cases h' with
    | nameRef hname' => exact .nameRef (hname.unlined_eq hname' (Outline.word.inj heq))
    | _ => cases hshape
  | assign hname hvalue ih =>
    have hshape := (Lexical.assign hname hvalue).shape_eq h' heq
    cases h' with
    | assign hname' hvalue' =>
      simp only [outline, Outline.form_inj, List.cons.injEq, Outline.word.injEq, true_and,
        and_true] at heq
      exact .assign (hname.unlined_eq hname' heq.1) (ih hvalue' heq.2)
    | _ => cases hshape
  | unary hop hoperand ih =>
    have hshape := (Lexical.unary hop hoperand).shape_eq h' heq
    cases h' with
    | unary hop' hoperand' =>
      simp only [outline, Outline.form_inj, List.cons.injEq, and_true] at heq
      exact .unary (hop.unlined_eq hop' heq.1) (ih hoperand' heq.2)
    | _ => cases hshape
  | binary hop hleft hright ihleft ihright =>
    have hshape := (Lexical.binary hop hleft hright).shape_eq h' heq
    cases h' with
    | binary hop' hleft' hright' =>
      simp only [outline, Outline.form_inj, List.cons.injEq, and_true] at heq
      exact .binary (ihleft hleft' heq.2.1) (hop.unlined_eq hop' heq.1) (ihright hright' heq.2.2)
    | _ => cases hshape
  | logical hop hleft hright ihleft ihright =>
    have hshape := (Lexical.logical hop hleft hright).shape_eq h' heq
    cases h' with
    | logical hop' hleft' hright' =>
      simp only [outline, Outline.form_inj, List.cons.injEq, and_true] at heq
      exact .logical (ihleft hleft' heq.2.1) (hop.unlined_eq hop' heq.1) (ihright hright' heq.2.2)
    | _ => cases hshape
  | group hinner ih =>
    have hshape := (Lexical.group hinner).shape_eq h' heq
    cases h' with
    | group hinner' =>
      simp only [outline, Outline.form_inj, List.cons.injEq, true_and, and_true] at heq
      exact .group (ih hinner' heq)
    | _ => cases hshape
  | @call callee paren arguments hcallee harguments ihcallee iharguments =>
    have hcall : (Expr.call callee paren arguments).Lexical _ := .call hcallee harguments
    have hshape := hcall.shape_eq h' heq
    cases h' with
    | call hcallee' harguments' =>
      simp only [outline, outlines_eq, Outline.form_inj, List.cons.injEq, true_and] at heq
      exact .call (ihcallee hcallee' heq.1) (forall₂_of_map_eq
        (fun a ha b hb hab => iharguments a ha (harguments' b hb) hab) heq.2)
    | _ => cases hshape
  | get hobject hname ih =>
    have hshape := (Lexical.get hobject hname).shape_eq h' heq
    cases h' with
    | get hobject' hname' =>
      simp only [outline, Outline.form_inj, List.cons.injEq, Outline.word.injEq, true_and,
        and_true] at heq
      exact .get (ih hobject' heq.1) (hname.unlined_eq hname' heq.2)
    | _ => cases hshape
  | set hobject hname hvalue ihobject ihvalue =>
    have hshape := (Lexical.set hobject hname hvalue).shape_eq h' heq
    cases h' with
    | set hobject' hname' hvalue' =>
      simp only [outline, Outline.form_inj, List.cons.injEq, Outline.word.injEq, true_and,
        and_true] at heq
      exact .set (ihobject hobject' heq.1) (hname.unlined_eq hname' heq.2.1)
        (ihvalue hvalue' heq.2.2)
    | _ => cases hshape
  | thisRef hthis =>
    have hshape := (Lexical.thisRef hthis).shape_eq h' heq
    cases h' with
    | thisRef hthis' => exact .thisRef (hthis.unlined_eq_of_spelling hthis' (by decide))
    | _ => cases hshape
  | superRef hsuper hmethod =>
    have hshape := (Lexical.superRef hsuper hmethod).shape_eq h' heq
    cases h' with
    | superRef hsuper' hmethod' =>
      simp only [outline, Outline.form_inj, List.cons.injEq, Outline.word.injEq, true_and,
        and_true] at heq
      exact .superRef (hsuper.unlined_eq_of_spelling hsuper' (by decide))
        (hmethod.unlined_eq hmethod' heq)
    | _ => cases hshape

/-! ### Statements -/

/-- The heads of statements. -/
def Stmt.head : Stmt ι → String
  | .expression _ => ";"
  | .print _ => "print"
  | .var _ _ => "var"
  | .block _ => "block"
  | .ifThen _ _ => "if"
  | .ifElse _ _ _ => "if-else"
  | .whileLoop _ _ => "while"
  | .function _ => "fun"
  | .returnFrom _ _ => "return"
  | .classOf _ _ _ => "class"
  | .unknown _ => ""

theorem Function.outline_eq (head : String) (f : Function ι) : Function.outline head f =
    .form head (.signature f.name f.params :: f.body.map Stmt.outline) := by
  obtain ⟨name, params, body⟩ := f
  rw [outline, Stmt.outlines_eq]

/-- Statements of known forms with the same outline have the same head. -/
theorem Stmt.Lexical.head_eq {L L' : Datum → Prop} {s s' : Stmt ι} (h : s.Lexical L)
    (h' : s'.Lexical L') (heq : s.outline = s'.outline) : s.head = s'.head := by
  have hform : ∀ {L : Datum → Prop} {s : Stmt ι}, s.Lexical L →
      ∃ parts, s.outline = .form s.head parts := by
    intro L s h
    cases h with
    | @var name initial => cases initial <;> exact ⟨_, rfl⟩
    | @returnFrom keyword value => cases value <;> exact ⟨_, rfl⟩
    | @function f => exact ⟨_, Function.outline_eq "fun" f⟩
    | _ => exact ⟨_, rfl⟩
  obtain ⟨parts, hparts⟩ := hform h
  obtain ⟨parts', hparts'⟩ := hform h'
  rw [hparts, hparts'] at heq
  exact (Outline.form_inj.mp heq).1

/-- Names with the same texts are the same up to lines. -/
theorem unlined_eq_of_signature_eq {name name' : Token} {params params' : List Token}
    (hname : name.IsOf [.identifier]) (hname' : name'.IsOf [.identifier])
    (hparams : ∀ p ∈ params, p.IsOf [.identifier]) (hparams' : ∀ p ∈ params', p.IsOf [.identifier])
    (heq : Outline.signature name params = .signature name' params') :
    name.unlined = name'.unlined ∧ params.map Token.unlined = params'.map Token.unlined := by
  obtain ⟨hlabel, hparts⟩ := Outline.branch.inj heq
  refine ⟨hname.unlined_eq hname' hlabel, ?_⟩
  have hrel : List.Forall₂ (fun p p' => p.unlined = p'.unlined) params params' :=
    forall₂_of_map_eq (fun p hp p' hp' hword =>
      (hparams p hp).unlined_eq (hparams' p' hp') (Outline.word.inj hword)) hparts
  rw [← List.forall₂_eq_eq_eq, List.forall₂_map_left_iff, List.forall₂_map_right_iff]
  exact hrel

theorem Function.resembles {head : String} {f f' : Function ι} {R : Stmt ι → Stmt ι → Prop}
    (hnamed : f.Named) (hnamed' : f'.Named)
    (hbody : ∀ s ∈ f.body, ∀ s' ∈ f'.body, s.outline = s'.outline → R s s')
    (heq : Function.outline head f = Function.outline head f') : f.Resembles R f' := by
  simp only [outline_eq, Outline.form_inj, List.cons.injEq, true_and] at heq
  obtain ⟨hsignature, hbodies⟩ := heq
  obtain ⟨hname, hparams⟩ := unlined_eq_of_signature_eq hnamed.name hnamed'.name hnamed.params
    hnamed'.params hsignature
  exact .mk hname hparams (forall₂_of_map_eq hbody hbodies)

/-- What is said of a superclass does not look like a method. -/
theorem Outline.superclass_append_inj {superclass superclass' : Option (Ref ι)}
    {methods methods' : List (Function ι)}
    (heq : Outline.superclass superclass ++ methods.map (Function.outline "method") =
      Outline.superclass superclass' ++ methods'.map (Function.outline "method")) :
    Outline.superclass superclass = Outline.superclass superclass' ∧
      methods.map (Function.outline "method") = methods'.map (Function.outline "method") := by
  have hword : ∀ {methods : List (Function ι)} {rest : List Outline},
      methods.map (Function.outline "method") ≠ word "<" :: rest := by
    intro methods rest heq
    cases methods with
    | nil => cases heq
    | cons m methods =>
      rw [List.map_cons, Function.outline_eq] at heq
      cases (List.cons.inj heq).1
  cases superclass with
  | none =>
    cases superclass' with
    | none => exact ⟨rfl, heq⟩
    | some ref' => exact absurd heq hword
  | some ref =>
    cases superclass' with
    | none => exact absurd heq.symm hword
    | some ref' =>
      simp only [Outline.superclass, List.cons_append, List.nil_append, List.cons.injEq,
        true_and] at heq ⊢
      exact ⟨⟨heq.1, trivial⟩, heq.2⟩

/-- What two expressions that may be absent have in common. -/
theorem rel_of_outline_eq {value value' : Option (Expr ι)}
    (h : ∀ e ∈ value, e.Lexical Datum.IsLegible) (h' : ∀ e ∈ value', e.Lexical Datum.IsLegible)
    (heq : value.map Expr.outline = value'.map Expr.outline) :
    Option.Rel Expr.Resembles value value' := by
  cases value with
  | none =>
    cases value' with
    | none => exact .none
    | some e' => cases heq
  | some e =>
    cases value' with
    | none => cases heq
    | some e' => exact .some ((h e rfl).resembles (h' e' rfl) (Option.some.inj heq))

/-- **The outline of a legible statement determines it** up to what is not rendered. -/
theorem Stmt.Lexical.resembles {s s' : Stmt ι} (h : s.Lexical Datum.IsLegible)
    (h' : s'.Lexical Datum.IsLegible) (heq : s.outline = s'.outline) : s.Resembles s' := by
  induction h generalizing s' with
  -- the head of the outline tells the form of a statement
  | expression hvalue =>
    have hhead := (Lexical.expression hvalue).head_eq h' heq
    cases h' with
    | expression hvalue' =>
      simp only [outline, Outline.form_inj, List.cons.injEq, true_and, and_true] at heq
      exact .expression (hvalue.resembles hvalue' heq)
    | _ => exact absurd hhead (by simp [head])
  | print hvalue =>
    have hhead := (Lexical.print hvalue).head_eq h' heq
    cases h' with
    | print hvalue' =>
      simp only [outline, Outline.form_inj, List.cons.injEq, true_and, and_true] at heq
      exact .print (hvalue.resembles hvalue' heq)
    | _ => exact absurd hhead (by simp [head])
  | @var name initial hname hinitial =>
    have hhead := (Lexical.var hname hinitial).head_eq h' heq
    cases h' with
    | @var name' initial' hname' hinitial' =>
      obtain ⟨hlexeme, hvalue⟩ : name.lexeme = name'.lexeme ∧
          initial.map Expr.outline = initial'.map Expr.outline := by
        cases initial <;> cases initial' <;> simp_all [outline, Outline.form_inj]
      exact .var (hname.unlined_eq hname' hlexeme) (rel_of_outline_eq hinitial hinitial' hvalue)
    | _ => exact absurd hhead (by simp [head])
  | block hbody ih =>
    have hhead := (Lexical.block hbody).head_eq h' heq
    cases h' with
    | block hbody' =>
      simp only [outline, outlines_eq, Outline.form_inj, true_and] at heq
      exact .block (forall₂_of_map_eq (fun s hs s' hs' hss => ih s hs (hbody' s' hs') hss) heq)
    | _ => exact absurd hhead (by simp [head])
  | ifThen hcondition hbody ih =>
    have hhead := (Lexical.ifThen hcondition hbody).head_eq h' heq
    cases h' with
    | ifThen hcondition' hbody' =>
      simp only [outline, Outline.form_inj, List.cons.injEq, true_and, and_true] at heq
      exact .ifThen (hcondition.resembles hcondition' heq.1) (ih hbody' heq.2)
    | _ => exact absurd hhead (by simp [head])
  | ifElse hcondition hbody hother ihbody ihother =>
    have hhead := (Lexical.ifElse hcondition hbody hother).head_eq h' heq
    cases h' with
    | ifElse hcondition' hbody' hother' =>
      simp only [outline, Outline.form_inj, List.cons.injEq, true_and, and_true] at heq
      exact .ifElse (hcondition.resembles hcondition' heq.1) (ihbody hbody' heq.2.1)
        (ihother hother' heq.2.2)
    | _ => exact absurd hhead (by simp [head])
  | whileLoop hcondition hbody ih =>
    have hhead := (Lexical.whileLoop hcondition hbody).head_eq h' heq
    cases h' with
    | whileLoop hcondition' hbody' =>
      simp only [outline, Outline.form_inj, List.cons.injEq, true_and, and_true] at heq
      exact .whileLoop (hcondition.resembles hcondition' heq.1) (ih hbody' heq.2)
    | _ => exact absurd hhead (by simp [head])
  | function hnamed hbody ih =>
    have hhead := (Lexical.function hnamed hbody).head_eq h' heq
    cases h' with
    | function hnamed' hbody' =>
      exact .function (Function.resembles hnamed hnamed'
        (fun s hs s' hs' hss => ih s hs (hbody' s' hs') hss) heq)
    | _ => exact absurd hhead (by simp [head])
  | @returnFrom keyword value hkeyword hvalue =>
    have hhead := (Lexical.returnFrom hkeyword hvalue).head_eq h' heq
    cases h' with
    | @returnFrom keyword' value' hkeyword' hvalue' =>
      have hmap : value.map Expr.outline = value'.map Expr.outline := by
        cases value <;> cases value' <;> simp_all [outline, Outline.form_inj]
      exact .returnFrom (hkeyword.unlined_eq_of_spelling hkeyword' (by decide))
        (rel_of_outline_eq hvalue hvalue' hmap)
    | _ => exact absurd hhead (by simp [head])
  | @classOf name superclass methods hname hsuperclass hnamed hbodies ih =>
    have hhead := (Lexical.classOf hname hsuperclass hnamed hbodies).head_eq h' heq
    cases h' with
    | @classOf name' superclass' methods' hname' hsuperclass' hnamed' hbodies' =>
      simp only [outline, Function.outlines_eq, Outline.form_inj, List.cons.injEq,
        Outline.word.injEq, true_and] at heq
      obtain ⟨hlexeme, hrest⟩ := heq
      obtain ⟨hparent, hmethods⟩ := Outline.superclass_append_inj hrest
      -- a superclass is written as `<` and its name before the methods, so both have one or none
      have hsuper : Option.Rel Ref.Resembles superclass superclass' := by
        cases superclass with
        | none =>
          cases superclass' with
          | none => exact .none
          | some ref' => cases hparent
        | some ref =>
          cases superclass' with
          | none => cases hparent
          | some ref' =>
            simp only [Outline.superclass, List.cons.injEq, Outline.word.injEq, true_and,
              and_true] at hparent
            exact .some ((hsuperclass ref rfl).unlined_eq (hsuperclass' ref' rfl) hparent)
      exact .classOf (hname.unlined_eq hname' hlexeme) hsuper (forall₂_of_map_eq
        (fun m hm m' hm' hmm => Function.resembles (hnamed m hm) (hnamed' m' hm')
          (fun s hs s' hs' hss => ih m hm s hs (hbodies' m' hm' s' hs') hss) hmm) hmethods)
    | _ => exact absurd hhead (by simp [head])

end LoxLang
