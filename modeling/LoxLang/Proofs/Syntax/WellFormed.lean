import LoxLang.Syntax

/-! # Well-formed programs

What the grammar says of a program that the types of `Expr` and `Stmt` do not: there is no unknown
form in it, a declaration is no body of an `if` or a loop, and the words `this` and `super` are
not names while the references to `this` and `super` are spelled so.  The last of these is about the
texts of the tokens; the others hold of what is read from any tokens (`Stmt.Shaped`).  Of a program
that was not read at all it may still be known that there is no unknown form in it
(`Stmt.Known`). -/

namespace LoxLang

variable {ι : Type}

/-- A token that can be a name: its text is neither of the words that are bound without being
declared. -/
def Token.IsName (t : Token) : Prop := t.lexeme ≠ "this" ∧ t.lexeme ≠ "super"

/-- A token whose text fits its kind, as far as the words `this` and `super` are concerned. -/
structure Token.Spelled (t : Token) : Prop where
  name : t.kind = .identifier → t.IsName
  this : t.kind = .thisWord → t.lexeme = "this"
  super : t.kind = .superWord → t.lexeme = "super"

instance (t : Token) : Decidable t.IsName :=
  inferInstanceAs (Decidable (t.lexeme ≠ "this" ∧ t.lexeme ≠ "super"))

instance (t : Token) : Decidable t.Spelled :=
  decidable_of_iff ((t.kind = .identifier → t.IsName) ∧ (t.kind = .thisWord → t.lexeme = "this") ∧
      (t.kind = .superWord → t.lexeme = "super"))
    ⟨fun h => ⟨h.1, h.2.1, h.2.2⟩, fun h => ⟨h.name, h.this, h.super⟩⟩

/-- The names that a statement declares in the scope where it stands. -/
def Stmt.declares : Stmt ι → List Token
  | .var name _ => [name]
  | .function f => [f.name]
  | .classOf name _ _ => [name]
  | .ifThen _ body | .whileLoop _ body => body.declares
  | .ifElse _ body other => body.declares ++ other.declares
  | _ => []

/-- A well-formed expression. -/
inductive Expr.WellFormed : Expr ι → Prop
  | literal (value : Datum) : WellFormed (.literal value)
  | nameRef {ref : Ref ι} (hname : ref.name.IsName) : WellFormed (.nameRef ref)
  | assign {ref : Ref ι} {value : Expr ι} (hname : ref.name.IsName) (hvalue : value.WellFormed) :
      WellFormed (.assign ref value)
  | unary {op : Token} {operand : Expr ι} (hoperand : operand.WellFormed) :
      WellFormed (.unary op operand)
  | binary {left right : Expr ι} {op : Token} (hleft : left.WellFormed)
      (hright : right.WellFormed) : WellFormed (.binary left op right)
  | logical {left right : Expr ι} {op : Token} (hleft : left.WellFormed)
      (hright : right.WellFormed) : WellFormed (.logical left op right)
  | group {inner : Expr ι} (hinner : inner.WellFormed) : WellFormed (.group inner)
  | call {callee : Expr ι} {paren : Token} {arguments : List (Expr ι)}
      (hcallee : callee.WellFormed) (harguments : ∀ a ∈ arguments, a.WellFormed) :
      WellFormed (.call callee paren arguments)
  | get {object : Expr ι} {name : Token} (hobject : object.WellFormed) :
      WellFormed (.get object name)
  | set {object value : Expr ι} {name : Token} (hobject : object.WellFormed)
      (hvalue : value.WellFormed) : WellFormed (.set object name value)
  | thisRef {ref : Ref ι} (hthis : ref.name.lexeme = "this") : WellFormed (.thisRef ref)
  | superRef {ref : Ref ι} {method : Token} (hsuper : ref.name.lexeme = "super") :
      WellFormed (.superRef ref method)

/-- A well-formed statement. -/
inductive Stmt.WellFormed : Stmt ι → Prop
  | expression {value : Expr ι} (hvalue : value.WellFormed) : WellFormed (.expression value)
  | print {value : Expr ι} (hvalue : value.WellFormed) : WellFormed (.print value)
  | var {name : Token} {initial : Option (Expr ι)} (hname : name.IsName)
      (hinitial : ∀ e ∈ initial, e.WellFormed) : WellFormed (.var name initial)
  | block {body : List (Stmt ι)} (hbody : ∀ s ∈ body, s.WellFormed) : WellFormed (.block body)
  | ifThen {condition : Expr ι} {body : Stmt ι} (hcondition : condition.WellFormed)
      (hbody : body.WellFormed) (hnone : body.declares = []) :
      WellFormed (.ifThen condition body)
  | ifElse {condition : Expr ι} {body other : Stmt ι} (hcondition : condition.WellFormed)
      (hbody : body.WellFormed) (hnone : body.declares = []) (hother : other.WellFormed)
      (hnone' : other.declares = []) : WellFormed (.ifElse condition body other)
  | whileLoop {condition : Expr ι} {body : Stmt ι} (hcondition : condition.WellFormed)
      (hbody : body.WellFormed) (hnone : body.declares = []) :
      WellFormed (.whileLoop condition body)
  | function {declaration : Function ι} (hname : declaration.name.IsName)
      (hparams : ∀ p ∈ declaration.params, p.IsName)
      (hbody : ∀ s ∈ declaration.body, s.WellFormed) : WellFormed (.function declaration)
  | returnFrom {keyword : Token} {value : Option (Expr ι)}
      (hvalue : ∀ e ∈ value, e.WellFormed) : WellFormed (.returnFrom keyword value)
  | classOf {name : Token} {superclass : Option (Ref ι)} {methods : List (Function ι)}
      (hname : name.IsName) (hsuperclass : ∀ r ∈ superclass, r.name.IsName)
      (hparams : ∀ m ∈ methods, ∀ p ∈ m.params, p.IsName)
      (hbodies : ∀ m ∈ methods, ∀ s ∈ m.body, s.WellFormed) :
      WellFormed (.classOf name superclass methods)

/-- An expression of known forms. -/
inductive Expr.Known : Expr ι → Prop
  | literal (value : Datum) : Known (.literal value)
  | nameRef (ref : Ref ι) : Known (.nameRef ref)
  | assign {ref : Ref ι} {value : Expr ι} (hvalue : value.Known) : Known (.assign ref value)
  | unary {op : Token} {operand : Expr ι} (hoperand : operand.Known) : Known (.unary op operand)
  | binary {left right : Expr ι} {op : Token} (hleft : left.Known) (hright : right.Known) :
      Known (.binary left op right)
  | logical {left right : Expr ι} {op : Token} (hleft : left.Known) (hright : right.Known) :
      Known (.logical left op right)
  | group {inner : Expr ι} (hinner : inner.Known) : Known (.group inner)
  | call {callee : Expr ι} {paren : Token} {arguments : List (Expr ι)} (hcallee : callee.Known)
      (harguments : ∀ a ∈ arguments, a.Known) : Known (.call callee paren arguments)
  | get {object : Expr ι} {name : Token} (hobject : object.Known) : Known (.get object name)
  | set {object value : Expr ι} {name : Token} (hobject : object.Known) (hvalue : value.Known) :
      Known (.set object name value)
  | thisRef (ref : Ref ι) : Known (.thisRef ref)
  | superRef (ref : Ref ι) (method : Token) : Known (.superRef ref method)

/-- A statement of known forms. -/
inductive Stmt.Known : Stmt ι → Prop
  | expression {value : Expr ι} (hvalue : value.Known) : Known (.expression value)
  | print {value : Expr ι} (hvalue : value.Known) : Known (.print value)
  | var {name : Token} {initial : Option (Expr ι)} (hinitial : ∀ e ∈ initial, e.Known) :
      Known (.var name initial)
  | block {body : List (Stmt ι)} (hbody : ∀ s ∈ body, s.Known) : Known (.block body)
  | ifThen {condition : Expr ι} {body : Stmt ι} (hcondition : condition.Known)
      (hbody : body.Known) : Known (.ifThen condition body)
  | ifElse {condition : Expr ι} {body other : Stmt ι} (hcondition : condition.Known)
      (hbody : body.Known) (hother : other.Known) : Known (.ifElse condition body other)
  | whileLoop {condition : Expr ι} {body : Stmt ι} (hcondition : condition.Known)
      (hbody : body.Known) : Known (.whileLoop condition body)
  | function {declaration : Function ι} (hbody : ∀ s ∈ declaration.body, s.Known) :
      Known (.function declaration)
  | returnFrom {keyword : Token} {value : Option (Expr ι)} (hvalue : ∀ e ∈ value, e.Known) :
      Known (.returnFrom keyword value)
  | classOf {name : Token} {superclass : Option (Ref ι)} {methods : List (Function ι)}
      (hbodies : ∀ m ∈ methods, ∀ s ∈ m.body, s.Known) : Known (.classOf name superclass methods)

theorem Expr.WellFormed.known {e : Expr ι} (h : e.WellFormed) : e.Known := by
  induction h with
  | literal value => exact .literal value
  | nameRef => exact .nameRef _
  | assign _ _ ih => exact .assign ih
  | unary _ ih => exact .unary ih
  | binary _ _ ihleft ihright => exact .binary ihleft ihright
  | logical _ _ ihleft ihright => exact .logical ihleft ihright
  | group _ ih => exact .group ih
  | call _ _ ihcallee iharguments => exact .call ihcallee iharguments
  | get _ ih => exact .get ih
  | set _ _ ihobject ihvalue => exact .set ihobject ihvalue
  | thisRef => exact .thisRef _
  | superRef => exact .superRef _ _

/-- A statement of known forms, where no branch of an `if` and no body of a loop declares a name. -/
inductive Stmt.Shaped : Stmt ι → Prop
  | expression {value : Expr ι} (hvalue : value.Known) : Shaped (.expression value)
  | print {value : Expr ι} (hvalue : value.Known) : Shaped (.print value)
  | var {name : Token} {initial : Option (Expr ι)} (hinitial : ∀ e ∈ initial, e.Known) :
      Shaped (.var name initial)
  | block {body : List (Stmt ι)} (hbody : ∀ s ∈ body, s.Shaped) : Shaped (.block body)
  | ifThen {condition : Expr ι} {body : Stmt ι} (hcondition : condition.Known)
      (hbody : body.Shaped) (hnone : body.declares = []) : Shaped (.ifThen condition body)
  | ifElse {condition : Expr ι} {body other : Stmt ι} (hcondition : condition.Known)
      (hbody : body.Shaped) (hnone : body.declares = []) (hother : other.Shaped)
      (hnone' : other.declares = []) : Shaped (.ifElse condition body other)
  | whileLoop {condition : Expr ι} {body : Stmt ι} (hcondition : condition.Known)
      (hbody : body.Shaped) (hnone : body.declares = []) : Shaped (.whileLoop condition body)
  | function {declaration : Function ι} (hbody : ∀ s ∈ declaration.body, s.Shaped) :
      Shaped (.function declaration)
  | returnFrom {keyword : Token} {value : Option (Expr ι)} (hvalue : ∀ e ∈ value, e.Known) :
      Shaped (.returnFrom keyword value)
  | classOf {name : Token} {superclass : Option (Ref ι)} {methods : List (Function ι)}
      (hbodies : ∀ m ∈ methods, ∀ s ∈ m.body, s.Shaped) : Shaped (.classOf name superclass methods)

theorem Stmt.Shaped.known {s : Stmt ι} (h : s.Shaped) : s.Known := by
  induction h with
  | expression hvalue => exact .expression hvalue
  | print hvalue => exact .print hvalue
  | var hinitial => exact .var hinitial
  | block _ ih => exact .block ih
  | ifThen hcondition _ _ ih => exact .ifThen hcondition ih
  | ifElse hcondition _ _ _ _ ihbody ihother => exact .ifElse hcondition ihbody ihother
  | whileLoop hcondition _ _ ih => exact .whileLoop hcondition ih
  | function _ ih => exact .function ih
  | returnFrom hvalue => exact .returnFrom hvalue
  | classOf _ ih => exact .classOf ih

theorem Stmt.WellFormed.shaped {s : Stmt ι} (h : s.WellFormed) : s.Shaped := by
  induction h with
  | expression hvalue => exact .expression hvalue.known
  | print hvalue => exact .print hvalue.known
  | var _ hinitial => exact .var fun e he => (hinitial e he).known
  | block _ ih => exact .block ih
  | ifThen hcondition _ hnone ih => exact .ifThen hcondition.known ih hnone
  | ifElse hcondition _ hnone _ hnone' ihbody ihother =>
    exact .ifElse hcondition.known ihbody hnone ihother hnone'
  | whileLoop hcondition _ hnone ih => exact .whileLoop hcondition.known ih hnone
  | function _ _ _ ih => exact .function ih
  | returnFrom hvalue => exact .returnFrom fun e he => (hvalue e he).known
  | classOf _ _ _ _ ih => exact .classOf ih

theorem Stmt.WellFormed.known {s : Stmt ι} (h : s.WellFormed) : s.Known := h.shaped.known

theorem Stmt.known_of_wellFormed {ss : List (Stmt ι)} (h : ∀ s ∈ ss, s.WellFormed) :
    ∀ s ∈ ss, s.Known := fun s hs => (h s hs).known

/-- A function or method with well-formed parameters and body. -/
structure FunctionOf.WellFormed (f : Function ι) : Prop where
  params : ∀ p ∈ f.params, p.IsName
  body : ∀ s ∈ f.body, s.WellFormed

theorem Stmt.WellFormed.methods {name : Token} {superclass : Option (Ref ι)}
    {methods : List (Function ι)} (h : (Stmt.classOf name superclass methods).WellFormed) :
    ∀ m ∈ methods, m.WellFormed := by
  cases h with
  | classOf _ _ hparams hbodies => exact fun m hm => ⟨hparams m hm, hbodies m hm⟩

/-- The names that well-formed statements declare are names. -/
theorem Stmt.WellFormed.isName_of_declares {s : Stmt ι} (h : s.WellFormed) :
    ∀ t ∈ s.declares, t.IsName := by
  induction h with
  | var hname => simpa [declares] using hname
  | function hname => simpa [declares] using hname
  | classOf hname => simpa [declares] using hname
  | ifThen _ _ hnone => simp [declares, hnone]
  | ifElse _ _ hnone _ hnone' => simp [declares, hnone, hnone']
  | whileLoop _ _ hnone => simp [declares, hnone]
  | _ => simp [declares]

/-- A `for` statement declares nothing where it stands. -/
theorem Stmt.wellFormed_forLoop {initial : Option (Stmt ι)} {condition step : Option (Expr ι)}
    {body : Stmt ι} (hinitial : ∀ s ∈ initial, s.WellFormed)
    (hcondition : ∀ e ∈ condition, e.WellFormed) (hstep : ∀ e ∈ step, e.WellFormed)
    (hbody : body.WellFormed) (hnone : body.declares = []) :
    (Stmt.forLoop initial condition step body).WellFormed ∧
      (Stmt.forLoop initial condition step body).declares = [] := by
  have hcond : (condition.getD (.literal (.bool true))).WellFormed := by
    cases condition with
    | none => exact .literal _
    | some e => exact hcondition e rfl
  have hloop : ∀ turn : Stmt ι, turn.WellFormed → turn.declares = [] →
      (Stmt.forLoop initial condition none turn).WellFormed ∧
        (Stmt.forLoop initial condition none turn).declares = [] := by
    intro turn hturn hturn'
    cases initial with
    | none => exact ⟨.whileLoop hcond hturn hturn', hturn'⟩
    | some s =>
      refine ⟨.block ?_, rfl⟩
      simpa using ⟨hinitial s rfl, .whileLoop hcond hturn hturn'⟩
  cases step with
  | none => exact hloop body hbody hnone
  | some e =>
    refine hloop (.block [body, .expression e]) (.block ?_) rfl
    simpa using ⟨hbody, .expression (hstep e rfl)⟩

end LoxLang
