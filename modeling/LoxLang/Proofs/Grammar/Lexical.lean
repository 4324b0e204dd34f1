import LoxLang.Proofs.Grammar.Soundness
import LoxLang.Proofs.Source.Layout
import LoxLang.Proofs.Source.Spelling
import LoxLang.Proofs.Syntax.Map

/-! # Tokens in their places

The tokens that a program holds are lexemes of the kinds that their places ask for: names where
names belong, signs before operands, operators between them.  `Expr.Lexical` and `Stmt.Lexical` say
so, and that the literals satisfy a given predicate; whatever derives from lexemes is lexical
(`Derives.lexical`).  Most kinds have a single spelling, so that place and kind fix the text. -/

namespace LoxLang

open Grammar Source

variable {ι : Type}

/-! ## Spellings -/

/-- The text of the tokens of a kind, for all kinds but those of names and literals. -/
def Kind.spelling : Kind → String
  | leftParen => "("
  | rightParen => ")"
  | leftBrace => "\x7b"
  | rightBrace => "\x7d"
  | comma => ","
  | dot => "."
  | minus => "-"
  | plus => "+"
  | semicolon => ";"
  | slash => "/"
  | star => "*"
  | bang => "!"
  | bangEqual => "!="
  | equal => "="
  | equalEqual => "=="
  | greater => ">"
  | greaterEqual => ">="
  | less => "<"
  | lessEqual => "<="
  | andWord => "and"
  | classWord => "class"
  | elseWord => "else"
  | falseWord => "false"
  | forWord => "for"
  | funWord => "fun"
  | ifWord => "if"
  | nilWord => "nil"
  | orWord => "or"
  | printWord => "print"
  | returnWord => "return"
  | superWord => "super"
  | thisWord => "this"
  | trueWord => "true"
  | varWord => "var"
  | whileWord => "while"
  | identifier | text | number | eof | other _ => ""

theorem Kind.spelling_of_keyword? {word : String} {kind : Kind} (h : keyword? word = some kind) :
    kind.spelling = word := by
  unfold keyword? at h
  split at h <;> cases h <;> rfl

/-- The text of a lexeme is the spelling of its kind, or that of a name or a literal. -/
theorem Source.Lexeme.spelling {text : List Char} {kind : Kind} {literal : Datum}
    (h : Lexeme text kind literal) (hkind : kind ∉ [.identifier, .text, .number]) :
    kind.spelling = String.ofList text := by
  cases h with
  | punctuation h =>
    unfold punctuation? at h
    split at h <;> cases h <;> rfl
  | alone h | withEqual h =>
    unfold operator? at h
    split at h <;> cases h <;> rfl
  | slash => rfl
  | text | whole | fraction => exact absurd (by simp) hkind
  | @word c rest hc hrest =>
    cases hword : Kind.keyword? (String.ofList (c :: rest)) with
    | none =>
      rw [hword] at hkind
      exact absurd (by simp) hkind
    | some kind => exact Kind.spelling_of_keyword? hword

/-- A name is a word that is no keyword. -/
theorem Source.Lexeme.name {text : List Char} {literal : Datum}
    (h : Lexeme text .identifier literal) : ∃ c rest, text = c :: rest ∧ isNameStart c ∧
      (∀ d ∈ rest, isNamePart d) ∧ Kind.keyword? (String.ofList text) = none := by
  generalize hkind : Kind.identifier = kind at h
  cases h with
  | punctuation h =>
    cases hkind
    exact absurd (isWord_of_punctuation? h) (by decide)
  | alone h =>
    cases hkind
    exact absurd (isWord_of_operator? h).1 (by decide)
  | withEqual h =>
    cases hkind
    exact absurd (isWord_of_operator? h).2 (by decide)
  | slash | text | whole | fraction => cases hkind
  | @word c rest hc hrest =>
    refine ⟨c, rest, rfl, hc, hrest, ?_⟩
    cases hword : Kind.keyword? (String.ofList (c :: rest)) with
    | none => rfl
    | some kind =>
      rw [hword] at hkind
      obtain rfl : Kind.identifier = kind := hkind
      unfold Kind.keyword? at hword
      split at hword <;> cases hword

/-- What the literals of tokens are. -/
inductive Datum.IsRead : Datum → Prop
  | nil : IsRead .nil
  | bool (b : Bool) : IsRead (.bool b)
  | number (x : Float) : IsRead (.number x)
  | text {s : String} (h : '"' ∉ s.toList) : IsRead (.text s)

theorem Source.Lexeme.isRead {text : List Char} {kind : Kind} {literal : Datum}
    (h : Lexeme text kind literal) : literal.IsRead := by
  cases h with
  | text h => exact .text (by rwa [String.toList_ofList])
  | whole | fraction => exact .number _
  | _ => exact .nil

/-! ## Places -/

/-- A lexeme of one of the kinds. -/
def Token.IsOf (kinds : List Kind) (t : Token) : Prop := t.kind ∈ kinds ∧ IsLexeme t

theorem Token.IsOf.single {kind : Kind} {t : Token} (hkind : t.kind = kind) (h : IsLexeme t) :
    t.IsOf [kind] := ⟨List.mem_singleton.mpr hkind, h⟩

theorem Token.IsOf.spelling {kinds : List Kind} {t : Token} (h : t.IsOf kinds)
    (hkinds : ∀ k ∈ kinds, k ∉ [.identifier, .text, .number]) : t.kind.spelling = t.lexeme := by
  have hspelling := h.2.spelling (hkinds _ h.1)
  rwa [String.ofList_toList] at hspelling

/-- A lexeme is the text of one token, up to lines. -/
theorem Source.IsLexeme.unlined_eq {t t' : Token} (h : IsLexeme t) (h' : IsLexeme t')
    (heq : t.lexeme = t'.lexeme) : t.unlined = t'.unlined := by
  unfold IsLexeme at h h'
  rw [heq] at h
  obtain ⟨hkind, hliteral⟩ := h.unique h'
  rw [Token.unlined, Token.unlined, hkind, hliteral, heq]

/-- The operators between two operands that are always evaluated. -/
def Kind.binaryOperators : List Kind :=
  [.bangEqual, .equalEqual, .greater, .greaterEqual, .less, .lessEqual, .minus, .plus, .slash,
    .star]

/-- The operators that are words. -/
def Kind.connectives : List Kind := [.orWord, .andWord]

/-- The tokens of an expression are lexemes of the kinds of their places, and its literals satisfy
a predicate. -/
inductive Expr.Lexical (L : Datum → Prop) : Expr ι → Prop
  | literal {value : Datum} (hvalue : L value) : Lexical L (.literal value)
  | nameRef {ref : Ref ι} (hname : ref.name.IsOf [.identifier]) : Lexical L (.nameRef ref)
  | assign {ref : Ref ι} {value : Expr ι} (hname : ref.name.IsOf [.identifier])
      (hvalue : value.Lexical L) : Lexical L (.assign ref value)
  | unary {op : Token} {operand : Expr ι} (hop : op.IsOf signs) (hoperand : operand.Lexical L) :
      Lexical L (.unary op operand)
  | binary {left right : Expr ι} {op : Token} (hop : op.IsOf Kind.binaryOperators)
      (hleft : left.Lexical L) (hright : right.Lexical L) : Lexical L (.binary left op right)
  | logical {left right : Expr ι} {op : Token} (hop : op.IsOf Kind.connectives)
      (hleft : left.Lexical L) (hright : right.Lexical L) : Lexical L (.logical left op right)
  | group {inner : Expr ι} (hinner : inner.Lexical L) : Lexical L (.group inner)
  | call {callee : Expr ι} {paren : Token} {arguments : List (Expr ι)}
      (hcallee : callee.Lexical L) (harguments : ∀ a ∈ arguments, a.Lexical L) :
      Lexical L (.call callee paren arguments)
  | get {object : Expr ι} {name : Token} (hobject : object.Lexical L)
      (hname : name.IsOf [.identifier]) : Lexical L (.get object name)
  | set {object value : Expr ι} {name : Token} (hobject : object.Lexical L)
      (hname : name.IsOf [.identifier]) (hvalue : value.Lexical L) :
      Lexical L (.set object name value)
  | thisRef {ref : Ref ι} (hthis : ref.name.IsOf [.thisWord]) : Lexical L (.thisRef ref)
  | superRef {ref : Ref ι} {method : Token} (hsuper : ref.name.IsOf [.superWord])
      (hmethod : method.IsOf [.identifier]) : Lexical L (.superRef ref method)

/-- The name and the parameters of a function or method are names. -/
structure FunctionOf.Named {σ : Type} (f : FunctionOf σ) : Prop where
  name : f.name.IsOf [.identifier]
  params : ∀ p ∈ f.params, p.IsOf [.identifier]

/-- The tokens of a statement are lexemes of the kinds of their places, and its literals satisfy a
predicate. -/
inductive Stmt.Lexical (L : Datum → Prop) : Stmt ι → Prop
  | expression {value : Expr ι} (hvalue : value.Lexical L) : Lexical L (.expression value)
  | print {value : Expr ι} (hvalue : value.Lexical L) : Lexical L (.print value)
  | var {name : Token} {initial : Option (Expr ι)} (hname : name.IsOf [.identifier])
      (hinitial : ∀ e ∈ initial, e.Lexical L) : Lexical L (.var name initial)
  | block {body : List (Stmt ι)} (hbody : ∀ s ∈ body, s.Lexical L) : Lexical L (.block body)
  | ifThen {condition : Expr ι} {body : Stmt ι} (hcondition : condition.Lexical L)
      (hbody : body.Lexical L) : Lexical L (.ifThen condition body)
  | ifElse {condition : Expr ι} {body other : Stmt ι} (hcondition : condition.Lexical L)
      (hbody : body.Lexical L) (hother : other.Lexical L) : Lexical L (.ifElse condition body other)
  | whileLoop {condition : Expr ι} {body : Stmt ι} (hcondition : condition.Lexical L)
      (hbody : body.Lexical L) : Lexical L (.whileLoop condition body)
  | function {declaration : Function ι} (hnamed : declaration.Named)
      (hbody : ∀ s ∈ declaration.body, s.Lexical L) : Lexical L (.function declaration)
  | returnFrom {keyword : Token} {value : Option (Expr ι)} (hkeyword : keyword.IsOf [.returnWord])
      (hvalue : ∀ e ∈ value, e.Lexical L) : Lexical L (.returnFrom keyword value)
  | classOf {name : Token} {superclass : Option (Ref ι)} {methods : List (Function ι)}
      (hname : name.IsOf [.identifier])
      (hsuperclass : ∀ r ∈ superclass, r.name.IsOf [.identifier])
      (hnamed : ∀ m ∈ methods, m.Named) (hbodies : ∀ m ∈ methods, ∀ s ∈ m.body, s.Lexical L) :
      Lexical L (.classOf name superclass methods)

/-- A `for` statement of lexical parts is lexical. -/
theorem Stmt.lexical_forLoop {L : Datum → Prop} {initial : Option (Stmt ι)}
    {condition step : Option (Expr ι)} {body : Stmt ι} (htrue : L (.bool true))
    (hinitial : ∀ s ∈ initial, s.Lexical L) (hcondition : ∀ e ∈ condition, e.Lexical L)
    (hstep : ∀ e ∈ step, e.Lexical L) (hbody : body.Lexical L) :
    (Stmt.forLoop initial condition step body).Lexical L := by
  have hcond : (condition.getD (.literal (.bool true))).Lexical L := by
    cases condition with
    | none => exact .literal htrue
    | some e => exact hcondition e rfl
  have hloop : ∀ turn : Stmt ι, turn.Lexical L →
      (Stmt.forLoop initial condition none turn).Lexical L := by
    intro turn hturn
    cases initial with
    | none => exact .whileLoop hcond hturn
    | some s =>
      refine .block ?_
      simpa using ⟨hinitial s rfl, .whileLoop hcond hturn⟩
  cases step with
  | none => exact hloop body hbody
  | some e =>
    refine hloop (.block [body, .expression e]) (.block ?_)
    simpa using ⟨hbody, .expression (hstep e rfl)⟩

/-! ## Literals -/

mutual

/-- The literals of an expression. -/
def Expr.literals : Expr ι → List Datum
  | .literal value => [value]
  | .assign _ value => value.literals
  | .unary _ operand => operand.literals
  | .binary left _ right => left.literals ++ right.literals
  | .logical left _ right => left.literals ++ right.literals
  | .group inner => inner.literals
  | .call callee _ arguments => callee.literals ++ Expr.literalsAll arguments
  | .get object _ => object.literals
  | .set object _ value => object.literals ++ value.literals
  | .nameRef _ | .thisRef _ | .superRef _ _ | .unknown _ => []

/-- The literals of expressions. -/
def Expr.literalsAll : List (Expr ι) → List Datum
  | [] => []
  | e :: es => e.literals ++ Expr.literalsAll es

end

/-- The literals of an expression that may be absent. -/
def Expr.literalsOption : Option (Expr ι) → List Datum
  | none => []
  | some e => e.literals

mutual

/-- The literals of a statement. -/
def Stmt.literals : Stmt ι → List Datum
  | .expression value | .print value => value.literals
  | .var _ initial => Expr.literalsOption initial
  | .block body => Stmt.literalsAll body
  | .ifThen condition body => condition.literals ++ body.literals
  | .ifElse condition body other => condition.literals ++ body.literals ++ other.literals
  | .whileLoop condition body => condition.literals ++ body.literals
  | .function declaration => Function.literals declaration
  | .returnFrom _ value => Expr.literalsOption value
  | .classOf _ _ methods => Function.literalsAll methods
  | .unknown _ => []

/-- The literals of statements. -/
def Stmt.literalsAll : List (Stmt ι) → List Datum
  | [] => []
  | s :: ss => s.literals ++ Stmt.literalsAll ss

/-- The literals of a function. -/
def Function.literals : Function ι → List Datum
  | ⟨_, _, body⟩ => Stmt.literalsAll body

/-- The literals of functions. -/
def Function.literalsAll : List (Function ι) → List Datum
  | [] => []
  | f :: fs => Function.literals f ++ Function.literalsAll fs

end

theorem Expr.literalsAll_eq (es : List (Expr ι)) :
    Expr.literalsAll es = es.flatMap Expr.literals := by
  induction es with
  | nil => rfl
  | cons e es ih => rw [literalsAll, ih, List.flatMap_cons]

theorem Stmt.literalsAll_eq (ss : List (Stmt ι)) :
    Stmt.literalsAll ss = ss.flatMap Stmt.literals := by
  induction ss with
  | nil => rfl
  | cons s ss ih => rw [literalsAll, ih, List.flatMap_cons]

theorem Function.literalsAll_eq (fs : List (Function ι)) :
    Function.literalsAll fs = fs.flatMap fun f => f.body.flatMap Stmt.literals := by
  induction fs with
  | nil => rfl
  | cons f fs ih => rw [literalsAll, literals, ih, Stmt.literalsAll_eq, List.flatMap_cons]

section
variable {L L' : Datum → Prop}

/-- What holds of the literals of a lexical expression can be taken along. -/
theorem Expr.Lexical.imp {e : Expr ι} (h : e.Lexical L) (hL : ∀ d ∈ e.literals, L d → L' d) :
    e.Lexical L' := by
  induction h with
  | literal hvalue => exact .literal (hL _ (by simp [literals]) hvalue)
  | nameRef hname => exact .nameRef hname
  | assign hname _ ih => exact .assign hname (ih hL)
  | unary hop _ ih => exact .unary hop (ih hL)
  | binary hop _ _ ihleft ihright =>
    obtain ⟨hleft, hright⟩ := List.forall_mem_append.mp hL
    exact .binary hop (ihleft hleft) (ihright hright)
  | logical hop _ _ ihleft ihright =>
    obtain ⟨hleft, hright⟩ := List.forall_mem_append.mp hL
    exact .logical hop (ihleft hleft) (ihright hright)
  | group _ ih => exact .group (ih hL)
  | call _ _ ihcallee iharguments =>
    obtain ⟨hcallee, harguments⟩ := List.forall_mem_append.mp hL
    rw [literalsAll_eq] at harguments
    exact .call (ihcallee hcallee) fun a ha =>
      iharguments a ha fun d hd => harguments d (List.mem_flatMap_of_mem ha hd)
  | get _ hname ih => exact .get (ih hL) hname
  | set _ hname _ ihobject ihvalue =>
    obtain ⟨hobject, hvalue⟩ := List.forall_mem_append.mp hL
    exact .set (ihobject hobject) hname (ihvalue hvalue)
  | thisRef hthis => exact .thisRef hthis
  | superRef hsuper hmethod => exact .superRef hsuper hmethod

/-- What holds of the literals of a lexical statement can be taken along. -/
theorem Stmt.Lexical.imp {s : Stmt ι} (h : s.Lexical L) (hL : ∀ d ∈ s.literals, L d → L' d) :
    s.Lexical L' := by
  have hoption : ∀ {o : Option (Expr ι)}, (∀ e ∈ o, e.Lexical L) →
      (∀ d ∈ Expr.literalsOption o, L d → L' d) → ∀ e ∈ o, e.Lexical L' := by
    rintro _ ho hd e rfl
    exact (ho e rfl).imp hd
  induction h with
  | expression hvalue => exact .expression (hvalue.imp hL)
  | print hvalue => exact .print (hvalue.imp hL)
  | var hname hinitial => exact .var hname (hoption hinitial hL)
  | block _ ih =>
    rw [literals, literalsAll_eq] at hL
    exact .block fun s hs => ih s hs fun d hd => hL d (List.mem_flatMap_of_mem hs hd)
  | ifThen hcondition _ ih =>
    obtain ⟨hc, hb⟩ := List.forall_mem_append.mp hL
    exact .ifThen (hcondition.imp hc) (ih hb)
  | ifElse hcondition _ _ ihbody ihother =>
    obtain ⟨hcb, ho⟩ := List.forall_mem_append.mp hL
    obtain ⟨hc, hb⟩ := List.forall_mem_append.mp hcb
    exact .ifElse (hcondition.imp hc) (ihbody hb) (ihother ho)
  | whileLoop hcondition _ ih =>
    obtain ⟨hc, hb⟩ := List.forall_mem_append.mp hL
    exact .whileLoop (hcondition.imp hc) (ih hb)
  | function hnamed _ ih =>
    rw [literals, Function.literals, literalsAll_eq] at hL
    exact .function hnamed fun s hs => ih s hs fun d hd => hL d (List.mem_flatMap_of_mem hs hd)
  | returnFrom hkeyword hvalue => exact .returnFrom hkeyword (hoption hvalue hL)
  | classOf hname hsuperclass hnamed _ ih =>
    rw [literals, Function.literalsAll_eq] at hL
    refine .classOf hname hsuperclass hnamed fun m hm s hs => ih m hm s hs fun d hd => hL d ?_
    exact List.mem_flatMap_of_mem hm (List.mem_flatMap_of_mem hs hd)

end

/-! ## What derives from lexemes -/

namespace Grammar

/-- The parts of a phrase are lexical. -/
def Phrase.Lexical : Phrase → Prop
  | .expression _ e => e.Lexical Datum.IsRead
  | .optional e => ∀ e' ∈ e, e'.Lexical Datum.IsRead
  | .arguments es => ∀ e ∈ es, e.Lexical Datum.IsRead
  | .parameters names => ∀ p ∈ names, p.IsOf [.identifier]
  | .function f => f.Named ∧ ∀ s ∈ f.body, s.Lexical Datum.IsRead
  | .methods fs => ∀ f ∈ fs, f.Named ∧ ∀ s ∈ f.body, s.Lexical Datum.IsRead
  | .initial s => ∀ s' ∈ s, s'.Lexical Datum.IsRead
  | .statement _ s | .variable s | .declaration s => s.Lexical Datum.IsRead
  | .declarations ss => ∀ s ∈ ss, s.Lexical Datum.IsRead

theorem Level.lexical_combine {level : Level} {left right : Expr Unit} {op : Token}
    {L : Datum → Prop} (hop : op.kind ∈ level.operators) (hlexeme : IsLexeme op)
    (hleft : left.Lexical L) (hright : right.Lexical L) :
    (level.combine left op right).Lexical L := by
  have hbinary : op.kind ∈ Kind.binaryOperators → (Expr.binary left op right).Lexical L :=
    fun hkind => .binary ⟨hkind, hlexeme⟩ hleft hright
  have hlogical : op.kind ∈ Kind.connectives → (Expr.logical left op right).Lexical L :=
    fun hkind => .logical ⟨hkind, hlexeme⟩ hleft hright
  cases level with
  | disjunction | conjunction =>
    refine hlogical ?_
    simp only [operators, List.mem_singleton] at hop
    simp [Kind.connectives, hop]
  | equality | term | factor =>
    refine hbinary ?_
    simp only [operators, List.mem_cons, List.not_mem_nil, or_false] at hop
    rcases hop with hop | hop <;> simp [Kind.binaryOperators, hop]
  | comparison =>
    refine hbinary ?_
    simp only [operators, List.mem_cons, List.not_mem_nil, or_false] at hop
    rcases hop with hop | hop | hop | hop <;> simp [Kind.binaryOperators, hop]
  | _ => cases hop

/-- **What derives from lexemes is lexical.** -/
theorem Derives.lexical {p : Phrase} {u : List Token} (h : Derives p u)
    (hu : ∀ t ∈ u, IsLexeme t) : p.Lexical := by
  induction h with
  -- a token of the phrase is one of the text, so it is a lexeme, and those of a part likewise
  | falseLiteral | trueLiteral => exact .literal (.bool _)
  | nilLiteral => exact .literal .nil
  | literal ht => exact .literal (hu _ (by simp)).isRead
  | superMethod ht hdot hname =>
    exact .superRef (.single ht (hu _ (by simp))) (.single hname (hu _ (by simp)))
  | this ht => exact .thisRef (.single ht (hu _ (by simp)))
  | name ht => exact .nameRef (.single ht (hu _ (by simp)))
  | group _ _ _ ih => exact .group (ih fun t ht => hu t (by simp [ht]))
  | call _ _ _ _ _ ihcallee ihes =>
    exact .call (ihcallee fun t ht => hu t (by simp [ht])) (ihes fun t ht => hu t (by simp [ht]))
  | get _ _ hname ih =>
    exact .get (ih fun t ht => hu t (by simp [ht])) (.single hname (hu _ (by simp)))
  | unary hop _ ih => exact .unary ⟨hop, hu _ (by simp)⟩ (ih fun t ht => hu t (by simp [ht]))
  | binary _ hop _ ihleft ihright =>
    exact Level.lexical_combine hop (hu _ (by simp)) (ihleft fun t ht => hu t (by simp [ht]))
      (ihright fun t ht => hu t (by simp [ht]))
  | assign hname _ _ ih =>
    exact .assign (.single hname (hu _ (by simp))) (ih fun t ht => hu t (by simp [ht]))
  | set _ _ hname _ _ ihobject ihvalue =>
    exact .set (ihobject fun t ht => hu t (by simp [ht])) (.single hname (hu _ (by simp)))
      (ihvalue fun t ht => hu t (by simp [ht]))
  | tighter _ ih => exact ih hu
  | absent | noArguments | noParameters | noMethods | noInitial | noDeclarations =>
    simp [Phrase.Lexical]
  | present _ ih => simpa [Phrase.Lexical] using ih hu
  | lastArgument _ ih => simpa [Phrase.Lexical] using ih hu
  | argument _ _ _ ih ihes =>
    exact List.forall_mem_cons.mpr ⟨ih fun t ht => hu t (by simp [ht]),
      ihes fun t ht => hu t (by simp [ht])⟩
  | lastParameter hname =>
    exact List.forall_mem_singleton.mpr (.single hname (hu _ (by simp)))
  | parameter hname _ _ ih =>
    exact List.forall_mem_cons.mpr ⟨.single hname (hu _ (by simp)),
      ih fun t ht => hu t (by simp [ht])⟩
  | function hname _ _ _ _ _ _ _ ihparams ihbody =>
    exact ⟨⟨.single hname (hu _ (by simp)), ihparams fun t ht => hu t (by simp [ht])⟩,
      ihbody fun t ht => hu t (by simp [ht])⟩
  | method _ _ ihf ihfs =>
    exact List.forall_mem_cons.mpr ⟨ihf fun t ht => hu t (by simp [ht]),
      ihfs fun t ht => hu t (by simp [ht])⟩
  | initialVariable _ ih => simpa [Phrase.Lexical] using ih hu
  | initialExpression _ _ ih =>
    have he := ih fun t ht => hu t (by simp [ht])
    simpa [Phrase.Lexical] using Stmt.Lexical.expression he
  | expressionStatement _ _ ih => exact .expression (ih fun t ht => hu t (by simp [ht]))
  | print _ _ _ ih => exact .print (ih fun t ht => hu t (by simp [ht]))
  | returnFrom hw _ _ ih =>
    exact .returnFrom (.single hw (hu _ (by simp))) (ih fun t ht => hu t (by simp [ht]))
  | block _ _ _ ih => exact .block (ih fun t ht => hu t (by simp [ht]))
  | whileLoop _ _ _ _ _ ihcondition ihbody =>
    exact .whileLoop (ihcondition fun t ht => hu t (by simp [ht]))
      (ihbody fun t ht => hu t (by simp [ht]))
  | forLoop _ _ _ _ _ _ _ _ ihinitial ihcondition ihstep ihbody =>
    exact Stmt.lexical_forLoop (.bool true) (ihinitial fun t ht => hu t (by simp [ht]))
      (ihcondition fun t ht => hu t (by simp [ht])) (ihstep fun t ht => hu t (by simp [ht]))
      (ihbody fun t ht => hu t (by simp [ht]))
  | ifThen _ _ _ _ _ ihcondition ihbody =>
    exact .ifThen (ihcondition fun t ht => hu t (by simp [ht]))
      (ihbody fun t ht => hu t (by simp [ht]))
  | ifElse _ _ _ _ _ _ _ ihcondition ihbody ihother =>
    exact .ifElse (ihcondition fun t ht => hu t (by simp [ht]))
      (ihbody fun t ht => hu t (by simp [ht])) (ihother fun t ht => hu t (by simp [ht]))
  | var _ hname _ => exact .var (.single hname (hu _ (by simp))) (by simp)
  | varInitial _ hname _ _ _ ih =>
    have he : Expr.Lexical Datum.IsRead _ := ih fun t ht => hu t (by simp [ht])
    exact .var (.single hname (hu _ (by simp))) (by simpa using he)
  | «variable» _ ih | statement _ ih => exact ih hu
  | functionDeclaration _ _ ih =>
    obtain ⟨hnamed, hbody⟩ := ih fun t ht => hu t (by simp [ht])
    exact .function hnamed hbody
  | classOf _ hname _ _ _ ih =>
    have hmethods := ih fun t ht => hu t (by simp [ht])
    exact .classOf (.single hname (hu _ (by simp))) (by simp) (fun m hm => (hmethods m hm).1)
      fun m hm => (hmethods m hm).2
  | subclassOf _ hname _ hparent _ _ _ ih =>
    have hmethods := ih fun t ht => hu t (by simp [ht])
    have hsuper := Token.IsOf.single hparent (hu _ (by simp))
    exact .classOf (.single hname (hu _ (by simp))) (by simpa using hsuper)
      (fun m hm => (hmethods m hm).1) fun m hm => (hmethods m hm).2
  | declaration _ _ ih ihss =>
    exact List.forall_mem_cons.mpr ⟨ih fun t ht => hu t (by simp [ht]),
      ihss fun t ht => hu t (by simp [ht])⟩

end Grammar

end LoxLang
