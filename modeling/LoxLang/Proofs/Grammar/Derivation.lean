import LoxLang.Syntax

/-! # The grammar

`Derives phrase tokens` says that the tokens, all of them and in their order, form the phrase.  A
phrase is a part of a program together with the place of the grammar where it stands.  The grammar
is the one of the language, written without reference to the readers:

* the expressions stand on ten levels, and what stands on a tighter level may stand on a looser one
  (`Level.tighter`); a left operand is of the level of its operator and a right operand is
  tighter, so that operators of one level group to the left;
* an assignment is to a name, or to a property at the end of a call chain, and groups to the right;
* a call has at most `itemLimit` arguments and a function at most as many parameters;
* the body of an `if`, a `while` or a `for` is a statement, which a declaration is not;
* a statement is marked as *dangling* if it ends with an `if` that has no `else`.  The first branch
  of an `if` with an `else` may not be dangling, which leaves each `else` to the nearest `if`;
* a `for` statement has the meaning of its loop (`Stmt.forLoop`).
-/

namespace LoxLang
namespace Grammar

/-- The levels of expressions, the loosest first. -/
inductive Level
  | assignment
  | disjunction
  | conjunction
  | equality
  | comparison
  | term
  | factor
  | unary
  | call
  | primary
  deriving DecidableEq, Repr

namespace Level

/-- The next tighter level. There is none above the tightest. -/
def tighter : Level → Level
  | assignment => disjunction
  | disjunction => conjunction
  | conjunction => equality
  | equality => comparison
  | comparison => term
  | term => factor
  | factor => unary
  | unary => call
  | call | primary => primary

/-- The operators between two operands of a level. -/
def operators : Level → List Kind
  | disjunction => [.orWord]
  | conjunction => [.andWord]
  | equality => [.bangEqual, .equalEqual]
  | comparison => [.greater, .greaterEqual, .less, .lessEqual]
  | term => [.minus, .plus]
  | factor => [.slash, .star]
  | assignment | unary | call | primary => []

/-- What an operator of a level makes of its operands. -/
def combine : Level → Expr Unit → Token → Expr Unit → Expr Unit
  | disjunction | conjunction => .logical
  | _ => .binary

end Level

/-- The operators before an operand. -/
def signs : List Kind := [.bang, .minus]

/-- The number of arguments of a call, or parameters of a function, that there may be. -/
def itemLimit : Nat := 255

/-- A part of a program and the place of the grammar where it stands. -/
inductive Phrase
  | expression (level : Level) (e : Expr Unit)
  /-- An expression that may be left out. -/
  | optional (e : Option (Expr Unit))
  /-- Expressions with commas between them. -/
  | arguments (es : List (Expr Unit))
  /-- Names with commas between them. -/
  | parameters (names : List Token)
  /-- A function or method, from its name on. -/
  | function (f : Function Unit)
  | methods (fs : List (Function Unit))
  /-- The first clause of a `for` statement, with its semicolon. -/
  | initial (s : Option (Stmt Unit))
  | statement (dangling : Bool) (s : Stmt Unit)
  /-- The declaration of a variable, which may stand in the first clause of a `for` statement. -/
  | variable (s : Stmt Unit)
  | declaration (s : Stmt Unit)
  | declarations (ss : List (Stmt Unit))

/-- The tokens form the phrase. -/
inductive Derives : Phrase → List Token → Prop
  | falseLiteral {t : Token} (ht : t.kind = .falseWord) :
      Derives (.expression .primary (.literal (.bool false))) [t]
  | trueLiteral {t : Token} (ht : t.kind = .trueWord) :
      Derives (.expression .primary (.literal (.bool true))) [t]
  | nilLiteral {t : Token} (ht : t.kind = .nilWord) :
      Derives (.expression .primary (.literal .nil)) [t]
  | literal {t : Token} (ht : t.kind = .number ∨ t.kind = .text) :
      Derives (.expression .primary (.literal t.literal)) [t]
  | superMethod {t dot name : Token} (ht : t.kind = .superWord) (hdot : dot.kind = .dot)
      (hname : name.kind = .identifier) :
      Derives (.expression .primary (.superRef ⟨(), t⟩ name)) [t, dot, name]
  | this {t : Token} (ht : t.kind = .thisWord) :
      Derives (.expression .primary (.thisRef ⟨(), t⟩)) [t]
  | name {t : Token} (ht : t.kind = .identifier) :
      Derives (.expression .primary (.nameRef ⟨(), t⟩)) [t]
  | group {l r : Token} {e : Expr Unit} {u : List Token} (hl : l.kind = .leftParen)
      (he : Derives (.expression .assignment e) u) (hr : r.kind = .rightParen) :
      Derives (.expression .primary (.group e)) (l :: u ++ [r])
  | call {l r : Token} {callee : Expr Unit} {es : List (Expr Unit)} {u v : List Token}
      (hcallee : Derives (.expression .call callee) u) (hl : l.kind = .leftParen)
      (hes : Derives (.arguments es) v) (hcount : es.length ≤ itemLimit)
      (hr : r.kind = .rightParen) :
      Derives (.expression .call (.call callee r es)) (u ++ l :: v ++ [r])
  | get {dot name : Token} {object : Expr Unit} {u : List Token}
      (hobject : Derives (.expression .call object) u) (hdot : dot.kind = .dot)
      (hname : name.kind = .identifier) :
      Derives (.expression .call (.get object name)) (u ++ [dot, name])
  | unary {op : Token} {e : Expr Unit} {u : List Token} (hop : op.kind ∈ signs)
      (he : Derives (.expression .unary e) u) :
      Derives (.expression .unary (.unary op e)) (op :: u)
  | binary {level : Level} {op : Token} {left right : Expr Unit} {u v : List Token}
      (hleft : Derives (.expression level left) u) (hop : op.kind ∈ level.operators)
      (hright : Derives (.expression level.tighter right) v) :
      Derives (.expression level (level.combine left op right)) (u ++ op :: v)
  | assign {name equals : Token} {value : Expr Unit} {v : List Token}
      (hname : name.kind = .identifier) (hequals : equals.kind = .equal)
      (hvalue : Derives (.expression .assignment value) v) :
      Derives (.expression .assignment (.assign ⟨(), name⟩ value)) (name :: equals :: v)
  | set {dot name equals : Token} {object value : Expr Unit} {u v : List Token}
      (hobject : Derives (.expression .call object) u) (hdot : dot.kind = .dot)
      (hname : name.kind = .identifier) (hequals : equals.kind = .equal)
      (hvalue : Derives (.expression .assignment value) v) :
      Derives (.expression .assignment (.set object name value)) (u ++ dot :: name :: equals :: v)
  | tighter {l : Level} {e : Expr Unit} {u : List Token}
      (he : Derives (.expression l.tighter e) u) : Derives (.expression l e) u
  | absent : Derives (.optional none) []
  | present {e : Expr Unit} {u : List Token} (he : Derives (.expression .assignment e) u) :
      Derives (.optional (some e)) u
  | noArguments : Derives (.arguments []) []
  | lastArgument {e : Expr Unit} {u : List Token} (he : Derives (.expression .assignment e) u) :
      Derives (.arguments [e]) u
  | argument {comma : Token} {e e' : Expr Unit} {es : List (Expr Unit)} {u v : List Token}
      (he : Derives (.expression .assignment e) u) (hcomma : comma.kind = .comma)
      (hes : Derives (.arguments (e' :: es)) v) :
      Derives (.arguments (e :: e' :: es)) (u ++ comma :: v)
  | noParameters : Derives (.parameters []) []
  | lastParameter {name : Token} (hname : name.kind = .identifier) :
      Derives (.parameters [name]) [name]
  | parameter {name comma name' : Token} {names : List Token} {v : List Token}
      (hname : name.kind = .identifier) (hcomma : comma.kind = .comma)
      (hnames : Derives (.parameters (name' :: names)) v) :
      Derives (.parameters (name :: name' :: names)) (name :: comma :: v)
  | function {name l r lb rb : Token} {params : List Token} {body : List (Stmt Unit)}
      {u v : List Token} (hname : name.kind = .identifier) (hl : l.kind = .leftParen)
      (hparams : Derives (.parameters params) u) (hcount : params.length ≤ itemLimit)
      (hr : r.kind = .rightParen) (hlb : lb.kind = .leftBrace)
      (hbody : Derives (.declarations body) v) (hrb : rb.kind = .rightBrace) :
      Derives (.function ⟨name, params, body⟩) (name :: l :: u ++ r :: lb :: v ++ [rb])
  | noMethods : Derives (.methods []) []
  | method {f : Function Unit} {fs : List (Function Unit)} {u v : List Token}
      (hf : Derives (.function f) u) (hfs : Derives (.methods fs) v) :
      Derives (.methods (f :: fs)) (u ++ v)
  | noInitial {semi : Token} (hsemi : semi.kind = .semicolon) : Derives (.initial none) [semi]
  | initialVariable {s : Stmt Unit} {u : List Token} (hs : Derives (.variable s) u) :
      Derives (.initial (some s)) u
  | initialExpression {semi : Token} {e : Expr Unit} {u : List Token}
      (he : Derives (.expression .assignment e) u) (hsemi : semi.kind = .semicolon) :
      Derives (.initial (some (.expression e))) (u ++ [semi])
  | expressionStatement {semi : Token} {e : Expr Unit} {u : List Token}
      (he : Derives (.expression .assignment e) u) (hsemi : semi.kind = .semicolon) :
      Derives (.statement false (.expression e)) (u ++ [semi])
  | print {w semi : Token} {e : Expr Unit} {u : List Token} (hw : w.kind = .printWord)
      (he : Derives (.expression .assignment e) u) (hsemi : semi.kind = .semicolon) :
      Derives (.statement false (.print e)) (w :: u ++ [semi])
  | returnFrom {w semi : Token} {value : Option (Expr Unit)} {u : List Token}
      (hw : w.kind = .returnWord) (hvalue : Derives (.optional value) u)
      (hsemi : semi.kind = .semicolon) :
      Derives (.statement false (.returnFrom w value)) (w :: u ++ [semi])
  | block {lb rb : Token} {body : List (Stmt Unit)} {u : List Token} (hlb : lb.kind = .leftBrace)
      (hbody : Derives (.declarations body) u) (hrb : rb.kind = .rightBrace) :
      Derives (.statement false (.block body)) (lb :: u ++ [rb])
  | whileLoop {w l r : Token} {condition : Expr Unit} {dangling : Bool} {body : Stmt Unit}
      {u v : List Token} (hw : w.kind = .whileWord) (hl : l.kind = .leftParen)
      (hcondition : Derives (.expression .assignment condition) u) (hr : r.kind = .rightParen)
      (hbody : Derives (.statement dangling body) v) :
      Derives (.statement dangling (.whileLoop condition body)) (w :: l :: u ++ r :: v)
  | forLoop {w l semi r : Token} {initial : Option (Stmt Unit)} {condition step : Option (Expr Unit)}
      {dangling : Bool} {body : Stmt Unit} {t u v x : List Token} (hw : w.kind = .forWord)
      (hl : l.kind = .leftParen) (hinitial : Derives (.initial initial) t)
      (hcondition : Derives (.optional condition) u) (hsemi : semi.kind = .semicolon)
      (hstep : Derives (.optional step) v) (hr : r.kind = .rightParen)
      (hbody : Derives (.statement dangling body) x) :
      Derives (.statement dangling (.forLoop initial condition step body))
        (w :: l :: t ++ u ++ semi :: v ++ r :: x)
  | ifThen {w l r : Token} {condition : Expr Unit} {dangling : Bool} {body : Stmt Unit}
      {u v : List Token} (hw : w.kind = .ifWord) (hl : l.kind = .leftParen)
      (hcondition : Derives (.expression .assignment condition) u) (hr : r.kind = .rightParen)
      (hbody : Derives (.statement dangling body) v) :
      Derives (.statement true (.ifThen condition body)) (w :: l :: u ++ r :: v)
  | ifElse {w l r otherwise : Token} {condition : Expr Unit} {dangling : Bool}
      {body other : Stmt Unit} {u v x : List Token} (hw : w.kind = .ifWord)
      (hl : l.kind = .leftParen) (hcondition : Derives (.expression .assignment condition) u)
      (hr : r.kind = .rightParen) (hbody : Derives (.statement false body) v)
      (hotherwise : otherwise.kind = .elseWord) (hother : Derives (.statement dangling other) x) :
      Derives (.statement dangling (.ifElse condition body other))
        (w :: l :: u ++ r :: v ++ otherwise :: x)
  | var {w name semi : Token} (hw : w.kind = .varWord) (hname : name.kind = .identifier)
      (hsemi : semi.kind = .semicolon) : Derives (.variable (.var name none)) [w, name, semi]
  | varInitial {w name equals semi : Token} {e : Expr Unit} {u : List Token}
      (hw : w.kind = .varWord) (hname : name.kind = .identifier) (hequals : equals.kind = .equal)
      (he : Derives (.expression .assignment e) u) (hsemi : semi.kind = .semicolon) :
      Derives (.variable (.var name (some e))) (w :: name :: equals :: u ++ [semi])
  | variable {s : Stmt Unit} {u : List Token} (hs : Derives (.variable s) u) :
      Derives (.declaration s) u
  | functionDeclaration {w : Token} {f : Function Unit} {u : List Token} (hw : w.kind = .funWord)
      (hf : Derives (.function f) u) : Derives (.declaration (.function f)) (w :: u)
  | classOf {w name lb rb : Token} {methods : List (Function Unit)} {u : List Token}
      (hw : w.kind = .classWord) (hname : name.kind = .identifier) (hlb : lb.kind = .leftBrace)
      (hmethods : Derives (.methods methods) u) (hrb : rb.kind = .rightBrace) :
      Derives (.declaration (.classOf name none methods)) (w :: name :: lb :: u ++ [rb])
  | subclassOf {w name less parent lb rb : Token} {methods : List (Function Unit)}
      {u : List Token} (hw : w.kind = .classWord) (hname : name.kind = .identifier)
      (hless : less.kind = .less) (hparent : parent.kind = .identifier)
      (hlb : lb.kind = .leftBrace) (hmethods : Derives (.methods methods) u)
      (hrb : rb.kind = .rightBrace) :
      Derives (.declaration (.classOf name (some ⟨(), parent⟩) methods))
        (w :: name :: less :: parent :: lb :: u ++ [rb])
  | statement {dangling : Bool} {s : Stmt Unit} {u : List Token}
      (hs : Derives (.statement dangling s) u) : Derives (.declaration s) u
  | noDeclarations : Derives (.declarations []) []
  | declaration {s : Stmt Unit} {ss : List (Stmt Unit)} {u v : List Token}
      (hs : Derives (.declaration s) u) (hss : Derives (.declarations ss) v) :
      Derives (.declarations (s :: ss)) (u ++ v)

namespace Derives

/-- A name derives from its own token, on whatever level it stands. -/
theorem of_nameRef {level : Level} {ref : Ref Unit} {u : List Token}
    (h : Derives (.expression level (.nameRef ref)) u) :
    u = [ref.name] ∧ ref.name.kind = .identifier := by
  generalize hp : Phrase.expression level (.nameRef ref) = p at h
  induction h generalizing level with
  | name ht => cases hp; exact ⟨rfl, ht⟩
  | tighter _ ih => cases hp; exact ih rfl
  | binary => rename_i level' _ _ _ _ _ _ _ _ _ _; cases level' <;> cases hp
  | _ => cases hp

/-- A property derives from the call chain of its object, a point and its name, on whatever level
it stands. -/
theorem of_get {level : Level} {object : Expr Unit} {name : Token} {u : List Token}
    (h : Derives (.expression level (.get object name)) u) :
    ∃ v dot, u = v ++ [dot, name] ∧ Derives (.expression .call object) v ∧ dot.kind = .dot ∧
      name.kind = .identifier := by
  generalize hp : Phrase.expression level (.get object name) = p at h
  induction h generalizing level with
  | get hobject hdot hname => cases hp; exact ⟨_, _, rfl, hobject, hdot, hname⟩
  | tighter _ ih => cases hp; exact ih rfl
  | binary => rename_i level' _ _ _ _ _ _ _ _ _ _; cases level' <;> cases hp
  | _ => cases hp

end Derives

end Grammar
end LoxLang
