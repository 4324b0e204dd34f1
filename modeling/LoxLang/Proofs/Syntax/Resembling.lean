import LoxLang.Proofs.Syntax.Map
import LoxLang.Proofs.Syntax.Rendered
import Mathlib.Data.List.Forall2

/-! # Programs that resemble each other

A rendering does not show all of a program: not the marks of its references, not the lines of its
tokens, not the parentheses that close arguments, and not which of several numbers with the same
text a number is.  `Stmt.Resembles` relates the statements that are the same in all other respects,
in their forms, their tokens and the order and number of their parts; they have the same outline. -/

namespace LoxLang

variable {ι : Type}

/-- The same literals, or numbers with the same text. -/
inductive Datum.Resembles : Datum → Datum → Prop
  | same (d : Datum) : Resembles d d
  | number {x y : Float} (h : numeral .display x = numeral .display y) :
      Resembles (.number x) (.number y)

/-- The same token, up to lines, whatever the marks are. -/
def Ref.Resembles (ref ref' : Ref ι) : Prop := ref.name.unlined = ref'.name.unlined

/-- Expressions that are the same up to marks, lines, the parentheses that close arguments, and
numbers with the same text. -/
inductive Expr.Resembles : Expr ι → Expr ι → Prop
  | literal {d d' : Datum} (h : d.Resembles d') : Resembles (.literal d) (.literal d')
  | nameRef {ref ref' : Ref ι} (h : ref.Resembles ref') : Resembles (.nameRef ref) (.nameRef ref')
  | assign {ref ref' : Ref ι} {value value' : Expr ι} (h : ref.Resembles ref')
      (hvalue : Resembles value value') : Resembles (.assign ref value) (.assign ref' value')
  | unary {op op' : Token} {operand operand' : Expr ι} (h : op.unlined = op'.unlined)
      (hoperand : Resembles operand operand') :
      Resembles (.unary op operand) (.unary op' operand')
  | binary {left left' right right' : Expr ι} {op op' : Token} (hleft : Resembles left left')
      (h : op.unlined = op'.unlined) (hright : Resembles right right') :
      Resembles (.binary left op right) (.binary left' op' right')
  | logical {left left' right right' : Expr ι} {op op' : Token} (hleft : Resembles left left')
      (h : op.unlined = op'.unlined) (hright : Resembles right right') :
      Resembles (.logical left op right) (.logical left' op' right')
  | group {inner inner' : Expr ι} (h : Resembles inner inner') :
      Resembles (.group inner) (.group inner')
  | call {callee callee' : Expr ι} {paren paren' : Token} {arguments arguments' : List (Expr ι)}
      (hcallee : Resembles callee callee')
      (harguments : List.Forall₂ Resembles arguments arguments') :
      Resembles (.call callee paren arguments) (.call callee' paren' arguments')
  | get {object object' : Expr ι} {name name' : Token} (hobject : Resembles object object')
      (h : name.unlined = name'.unlined) : Resembles (.get object name) (.get object' name')
  | set {object object' value value' : Expr ι} {name name' : Token}
      (hobject : Resembles object object') (h : name.unlined = name'.unlined)
      (hvalue : Resembles value value') :
      Resembles (.set object name value) (.set object' name' value')
  | thisRef {ref ref' : Ref ι} (h : ref.Resembles ref') : Resembles (.thisRef ref) (.thisRef ref')
  | superRef {ref ref' : Ref ι} {method method' : Token} (h : ref.Resembles ref')
      (hmethod : method.unlined = method'.unlined) :
      Resembles (.superRef ref method) (.superRef ref' method')

/-- Functions with the same signature up to lines, and related statements in their bodies. -/
inductive FunctionOf.Resembles {σ : Type} (R : σ → σ → Prop) : FunctionOf σ → FunctionOf σ → Prop
  | mk {name name' : Token} {params params' : List Token} {body body' : List σ}
      (h : name.unlined = name'.unlined)
      (hparams : params.map Token.unlined = params'.map Token.unlined)
      (hbody : List.Forall₂ R body body') : Resembles R ⟨name, params, body⟩ ⟨name', params', body'⟩

/-- Statements that are the same up to marks, lines, the parentheses that close arguments, and
numbers with the same text. -/
inductive Stmt.Resembles : Stmt ι → Stmt ι → Prop
  | expression {value value' : Expr ι} (h : value.Resembles value') :
      Resembles (.expression value) (.expression value')
  | print {value value' : Expr ι} (h : value.Resembles value') :
      Resembles (.print value) (.print value')
  | var {name name' : Token} {initial initial' : Option (Expr ι)}
      (h : name.unlined = name'.unlined) (hinitial : Option.Rel Expr.Resembles initial initial') :
      Resembles (.var name initial) (.var name' initial')
  | block {body body' : List (Stmt ι)} (h : List.Forall₂ Resembles body body') :
      Resembles (.block body) (.block body')
  | ifThen {condition condition' : Expr ι} {body body' : Stmt ι}
      (hcondition : condition.Resembles condition') (hbody : Resembles body body') :
      Resembles (.ifThen condition body) (.ifThen condition' body')
  | ifElse {condition condition' : Expr ι} {body body' other other' : Stmt ι}
      (hcondition : condition.Resembles condition') (hbody : Resembles body body')
      (hother : Resembles other other') :
      Resembles (.ifElse condition body other) (.ifElse condition' body' other')
  | whileLoop {condition condition' : Expr ι} {body body' : Stmt ι}
      (hcondition : condition.Resembles condition') (hbody : Resembles body body') :
      Resembles (.whileLoop condition body) (.whileLoop condition' body')
  | function {f f' : Function ι} (h : f.Resembles Resembles f') :
      Resembles (.function f) (.function f')
  | returnFrom {keyword keyword' : Token} {value value' : Option (Expr ι)}
      (h : keyword.unlined = keyword'.unlined) (hvalue : Option.Rel Expr.Resembles value value') :
      Resembles (.returnFrom keyword value) (.returnFrom keyword' value')
  | classOf {name name' : Token} {superclass superclass' : Option (Ref ι)}
      {methods methods' : List (Function ι)} (h : name.unlined = name'.unlined)
      (hsuperclass : Option.Rel Ref.Resembles superclass superclass')
      (hmethods : List.Forall₂ (FunctionOf.Resembles Resembles) methods methods') :
      Resembles (.classOf name superclass methods) (.classOf name' superclass' methods')

/-! ## They have the same outline -/

theorem Token.lexeme_eq_of_unlined {t t' : Token} (h : t.unlined = t'.unlined) :
    t.lexeme = t'.lexeme := by
  have heq := congrArg Token.lexeme h
  exact heq

theorem Datum.Resembles.outline_eq {d d' : Datum} (h : d.Resembles d') :
    d.outline = d'.outline := by
  cases h with
  | same => rfl
  | number h => exact congrArg Outline.word h

/-- A function that agrees on related members of two lists makes one list of them. -/
theorem map_eq_of_forall₂ {α β : Type} {f : α → β} {R : α → α → Prop} {as bs : List α}
    (hR : ∀ a ∈ as, ∀ b, R a b → f a = f b) (h : List.Forall₂ R as bs) : as.map f = bs.map f := by
  induction h with
  | nil => rfl
  | cons hab _ ih =>
    rw [List.forall_mem_cons] at hR
    rw [List.map_cons, List.map_cons, hR.1 _ hab, ih hR.2]

theorem Expr.Resembles.outline_eq {e e' : Expr ι} (h : e.Resembles e') :
    e.outline = e'.outline := by
  induction e using Expr.inductionOn generalizing e' with
  | literal value =>
    cases h with
    | literal h => exact h.outline_eq
  | nameRef ref =>
    cases h with
    | nameRef h => rw [outline, outline, Token.lexeme_eq_of_unlined h]
  | assign ref value ih =>
    cases h with
    | assign h hvalue => rw [outline, outline, Token.lexeme_eq_of_unlined h, ih hvalue]
  | unary op operand ih =>
    cases h with
    | unary h hoperand => rw [outline, outline, Token.lexeme_eq_of_unlined h, ih hoperand]
  | binary left op right ihleft ihright =>
    cases h with
    | binary hleft h hright =>
      rw [outline, outline, Token.lexeme_eq_of_unlined h, ihleft hleft, ihright hright]
  | logical left op right ihleft ihright =>
    cases h with
    | logical hleft h hright =>
      rw [outline, outline, Token.lexeme_eq_of_unlined h, ihleft hleft, ihright hright]
  | group inner ih =>
    cases h with
    | group h => rw [outline, outline, ih h]
  | call callee paren arguments ihcallee iharguments =>
    cases h with
    | call hcallee harguments =>
      rw [outline, outline, outlines_eq, outlines_eq, ihcallee hcallee,
        map_eq_of_forall₂ (fun a ha b hab => iharguments a ha hab) harguments]
  | get object name ih =>
    cases h with
    | get hobject h => rw [outline, outline, Token.lexeme_eq_of_unlined h, ih hobject]
  | set object name value ihobject ihvalue =>
    cases h with
    | set hobject h hvalue =>
      rw [outline, outline, Token.lexeme_eq_of_unlined h, ihobject hobject, ihvalue hvalue]
  | thisRef ref =>
    cases h with
    | thisRef => rfl
  | superRef ref method =>
    cases h with
    | superRef _ hmethod => rw [outline, outline, Token.lexeme_eq_of_unlined hmethod]
  | unknown form => cases h

theorem FunctionOf.Resembles.outline_eq {head : String} {f f' : Function ι}
    (hbody : ∀ s ∈ f.body, ∀ s', s.Resembles s' → s.outline = s'.outline)
    (h : f.Resembles Stmt.Resembles f') : Function.outline head f = Function.outline head f' := by
  cases h with
  | @mk name name' params params' body body' hname hparams hbodies =>
    have hwords : params.map (fun p => Outline.word p.lexeme) =
        params'.map fun p => Outline.word p.lexeme := by
      have heq := congrArg (List.map fun p : Token => Outline.word p.lexeme) hparams
      rw [List.map_map, List.map_map] at heq
      exact heq
    rw [Function.outline, Function.outline, Outline.signature, Outline.signature, hwords,
      Token.lexeme_eq_of_unlined hname, Stmt.outlines_eq, Stmt.outlines_eq,
      map_eq_of_forall₂ hbody hbodies]

theorem Stmt.Resembles.outline_eq {s s' : Stmt ι} (h : s.Resembles s') :
    s.outline = s'.outline := by
  induction s using Stmt.inductionOn generalizing s' with
  | expression value =>
    cases h with
    | expression h => rw [outline, outline, h.outline_eq]
  | print value =>
    cases h with
    | print h => rw [outline, outline, h.outline_eq]
  | var name initial =>
    cases h with
    | var h hinitial =>
      cases hinitial with
      | none => rw [outline, outline, Token.lexeme_eq_of_unlined h]
      | some hvalue => rw [outline, outline, Token.lexeme_eq_of_unlined h, hvalue.outline_eq]
  | block body ih =>
    cases h with
    | block h =>
      rw [outline, outline, outlines_eq, outlines_eq,
        map_eq_of_forall₂ (fun s hs s' hss => ih s hs hss) h]
  | ifThen condition body ih =>
    cases h with
    | ifThen hcondition hbody => rw [outline, outline, hcondition.outline_eq, ih hbody]
  | ifElse condition body other ihbody ihother =>
    cases h with
    | ifElse hcondition hbody hother =>
      rw [outline, outline, hcondition.outline_eq, ihbody hbody, ihother hother]
  | whileLoop condition body ih =>
    cases h with
    | whileLoop hcondition hbody => rw [outline, outline, hcondition.outline_eq, ih hbody]
  | function declaration ih =>
    cases h with
    | function h => exact h.outline_eq fun s hs s' hss => ih s hs hss
  | returnFrom keyword value =>
    cases h with
    | returnFrom _ hvalue =>
      cases hvalue with
      | none => rfl
      | some hvalue => rw [outline, outline, hvalue.outline_eq]
  | classOf name superclass methods ih =>
    cases h with
    | @classOf _ name' _ superclass' _ methods' h hsuperclass hmethods =>
      have hparent : Outline.superclass superclass = Outline.superclass superclass' := by
        cases hsuperclass with
        | none => rfl
        | some hsuper =>
          rw [Outline.superclass, Outline.superclass, Token.lexeme_eq_of_unlined hsuper]
      rw [outline, outline, Token.lexeme_eq_of_unlined h, hparent, Function.outlines_eq,
        Function.outlines_eq, map_eq_of_forall₂ (fun m hm m' hmm =>
          hmm.outline_eq fun s hs s' hss => ih m hm s hs hss) hmethods]
  | unknown form => cases h

end LoxLang
