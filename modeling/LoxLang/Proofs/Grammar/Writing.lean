import LoxLang.Proofs.Grammar.Completeness
import Mathlib.Data.List.Basic

/-! # Writing programs out

A program can be written out as tokens: those that it holds (names, operators, the closing
parenthesis of a call, the word of a `return`) stand where they belong, and the words, brackets and
signs that go with its forms stand between them, on whatever lines.  `Expr.slots` and `Stmt.slots`
say which tokens there are, and `written` places them on lines.

Not every tree can be read back.  `Expr.Grammatical` and `Stmt.Grammatical` say which are
grammatical: held tokens have the kinds that their places ask for; a left operand is at least as
tight as its operator and a right operand is tighter; assignments stand only where assignments may;
there are not too many arguments and parameters; bodies of `if` and `while` are no declarations;
and the first branch of an `if` with an `else` does not end with an `if` without one.  The main
statement is `parse_written`: a grammatical program, written out, parses to itself.  -/

namespace LoxLang

variable {ι : Type}

namespace Grammar

/-! ## Tightness -/

namespace Level

/-- The levels counted from the loosest on. -/
def rank : Level → Nat
  | assignment => 0
  | disjunction => 1
  | conjunction => 2
  | equality => 3
  | comparison => 4
  | term => 5
  | factor => 6
  | unary => 7
  | call => 8
  | primary => 9

/-- A looser level comes before a tighter one. -/
instance : LE Level := ⟨fun l l' => l.rank ≤ l'.rank⟩

instance (l l' : Level) : Decidable (l ≤ l') := inferInstanceAs (Decidable (l.rank ≤ l'.rank))

/-- The level of a binary operator. -/
def ofOperator : Kind → Level
  | .orWord => disjunction
  | .andWord => conjunction
  | .bangEqual | .equalEqual => equality
  | .greater | .greaterEqual | .less | .lessEqual => comparison
  | .minus | .plus => term
  | .slash | .star => factor
  | _ => primary

theorem ofOperator_of_mem {level : Level} {k : Kind} (h : k ∈ level.operators) :
    ofOperator k = level := by
  cases level <;> simp only [operators, List.mem_cons, List.not_mem_nil, or_false] at h <;>
    rcases h with rfl | rfl | rfl | rfl <;> rfl

theorem rank_tighter {l : Level} (h : l.rank < 9) : l.tighter.rank = l.rank + 1 := by
  cases l <;> first | rfl | exact absurd h (by decide)

theorem eq_of_rank_eq {l l' : Level} (h : l.rank = l'.rank) : l = l' := by
  cases l <;> cases l' <;> first | rfl | cases h

end Level

/-- An expression of a level stands on each looser one. -/
theorem Derives.loosen {l l' : Level} (h : l ≤ l') {e : Expr Unit} {u : List Token}
    (he : Derives (.expression l' e) u) : Derives (.expression l e) u := by
  obtain ⟨k, hk⟩ := Nat.exists_eq_add_of_le (show l.rank ≤ l'.rank from h)
  induction k generalizing l with
  | zero =>
    obtain rfl := Level.eq_of_rank_eq hk
    exact he
  | succ k ih =>
    have hbound : l'.rank ≤ 9 := by cases l' <;> decide
    have htighter := Level.rank_tighter (l := l) (by omega)
    refine .tighter (ih ?_ (by omega))
    show l.tighter.rank ≤ l'.rank
    omega

end Grammar

open Grammar

/-! ## Grammatical programs -/

/-- The level that the form of an expression belongs to. -/
def Expr.level : Expr ι → Level
  | .assign _ _ | .set _ _ _ => .assignment
  | .binary _ op _ | .logical _ op _ => Level.ofOperator op.kind
  | .unary _ _ => .unary
  | .call _ _ _ | .get _ _ => .call
  | .literal _ | .nameRef _ | .group _ | .thisRef _ | .superRef _ _ | .unknown _ => .primary

/-- A grammatical expression. -/
inductive Expr.Grammatical : Expr ι → Prop
  | literal (value : Datum) : Grammatical (.literal value)
  | nameRef {ref : Ref ι} (hname : ref.name.kind = .identifier) : Grammatical (.nameRef ref)
  | assign {ref : Ref ι} {value : Expr ι} (hname : ref.name.kind = .identifier)
      (hvalue : value.Grammatical) : Grammatical (.assign ref value)
  | unary {op : Token} {operand : Expr ι} (hop : op.kind ∈ signs)
      (hoperand : operand.Grammatical) (htight : .unary ≤ operand.level) :
      Grammatical (.unary op operand)
  | binary {level : Level} {left right : Expr ι} {op : Token}
      (hlevel : level ∈ [Level.equality, .comparison, .term, .factor])
      (hop : op.kind ∈ level.operators) (hleft : left.Grammatical) (htight : level ≤ left.level)
      (hright : right.Grammatical) (htighter : level.tighter ≤ right.level) :
      Grammatical (.binary left op right)
  | logical {level : Level} {left right : Expr ι} {op : Token}
      (hlevel : level ∈ [Level.disjunction, .conjunction])
      (hop : op.kind ∈ level.operators) (hleft : left.Grammatical) (htight : level ≤ left.level)
      (hright : right.Grammatical) (htighter : level.tighter ≤ right.level) :
      Grammatical (.logical left op right)
  | group {inner : Expr ι} (hinner : inner.Grammatical) : Grammatical (.group inner)
  | call {callee : Expr ι} {paren : Token} {arguments : List (Expr ι)}
      (hcallee : callee.Grammatical) (htight : .call ≤ callee.level)
      (harguments : ∀ a ∈ arguments, a.Grammatical) (hcount : arguments.length ≤ itemLimit)
      (hparen : paren.kind = .rightParen) : Grammatical (.call callee paren arguments)
  | get {object : Expr ι} {name : Token} (hobject : object.Grammatical)
      (htight : .call ≤ object.level) (hname : name.kind = .identifier) :
      Grammatical (.get object name)
  | set {object value : Expr ι} {name : Token} (hobject : object.Grammatical)
      (htight : .call ≤ object.level) (hname : name.kind = .identifier)
      (hvalue : value.Grammatical) : Grammatical (.set object name value)
  | thisRef {ref : Ref ι} (hthis : ref.name.kind = .thisWord) : Grammatical (.thisRef ref)
  | superRef {ref : Ref ι} {method : Token} (hsuper : ref.name.kind = .superWord)
      (hmethod : method.kind = .identifier) : Grammatical (.superRef ref method)

/-- Whether a statement is a declaration. -/
def Stmt.isDeclaration : Stmt ι → Bool
  | .var _ _ | .function _ | .classOf _ _ _ => true
  | _ => false

/-- Whether a statement ends with an `if` that has no `else`. -/
def Stmt.endsOpen : Stmt ι → Bool
  | .ifThen _ _ => true
  | .ifElse _ _ other => other.endsOpen
  | .whileLoop _ body => body.endsOpen
  | _ => false

/-- The name and the parameters of a function or method are grammatical. -/
structure FunctionOf.HasSignature {σ : Type} (f : FunctionOf σ) : Prop where
  name : f.name.kind = .identifier
  params : ∀ p ∈ f.params, p.kind = .identifier
  count : f.params.length ≤ itemLimit

/-- A grammatical statement or declaration. -/
inductive Stmt.Grammatical : Stmt ι → Prop
  | expression {value : Expr ι} (hvalue : value.Grammatical) : Grammatical (.expression value)
  | print {value : Expr ι} (hvalue : value.Grammatical) : Grammatical (.print value)
  | var {name : Token} {initial : Option (Expr ι)} (hname : name.kind = .identifier)
      (hinitial : ∀ e ∈ initial, e.Grammatical) : Grammatical (.var name initial)
  | block {body : List (Stmt ι)} (hbody : ∀ s ∈ body, s.Grammatical) : Grammatical (.block body)
  | ifThen {condition : Expr ι} {body : Stmt ι} (hcondition : condition.Grammatical)
      (hbody : body.Grammatical) (hplain : body.isDeclaration = false) :
      Grammatical (.ifThen condition body)
  | ifElse {condition : Expr ι} {body other : Stmt ι} (hcondition : condition.Grammatical)
      (hbody : body.Grammatical) (hplain : body.isDeclaration = false)
      (hclosed : body.endsOpen = false) (hother : other.Grammatical)
      (hplain' : other.isDeclaration = false) : Grammatical (.ifElse condition body other)
  | whileLoop {condition : Expr ι} {body : Stmt ι} (hcondition : condition.Grammatical)
      (hbody : body.Grammatical) (hplain : body.isDeclaration = false) :
      Grammatical (.whileLoop condition body)
  | function {declaration : Function ι} (hsignature : declaration.HasSignature)
      (hbody : ∀ s ∈ declaration.body, s.Grammatical) : Grammatical (.function declaration)
  | returnFrom {keyword : Token} {value : Option (Expr ι)} (hkeyword : keyword.kind = .returnWord)
      (hvalue : ∀ e ∈ value, e.Grammatical) : Grammatical (.returnFrom keyword value)
  | classOf {name : Token} {superclass : Option (Ref ι)} {methods : List (Function ι)}
      (hname : name.kind = .identifier)
      (hsuperclass : ∀ r ∈ superclass, r.name.kind = .identifier)
      (hsignatures : ∀ m ∈ methods, m.HasSignature)
      (hbodies : ∀ m ∈ methods, ∀ s ∈ m.body, s.Grammatical) :
      Grammatical (.classOf name superclass methods)

/-! ## The tokens of a program -/

/-- A token of a program that is written out: one that the program holds, or one that goes with a
form of it and gets a line when it is written. -/
inductive Slot
  | held (t : Token)
  | fresh (kind : Kind) (lexeme : String) (literal : Datum)

namespace Slot

/-- A word, bracket or sign. -/
abbrev word (kind : Kind) (lexeme : String) : Slot := .fresh kind lexeme .nil

/-- The token for a slot, on the given line unless the program holds it. -/
def token (line : Int) : Slot → Token
  | held t => t
  | fresh kind lexeme literal => ⟨kind, lexeme, literal, line⟩

/-- The tokens for slots, the `i`-th of them on the `i`-th line if the program does not hold it. -/
def place (lines : Nat → Int) (slots : List Slot) : List Token :=
  slots.mapIdx fun i slot => slot.token (lines i)

/-- Items with commas between them. -/
def commas (items : List (List Slot)) : List Slot :=
  (items.intersperse [.word .comma ","]).flatten

end Slot

/-- The token of a literal. -/
def Datum.slot : Datum → Slot
  | .nil => .word .nilWord "nil"
  | .bool true => .word .trueWord "true"
  | .bool false => .word .falseWord "false"
  | .text s => .fresh .text ("\"" ++ s ++ "\"") (.text s)
  | value => .fresh .number value.display value

mutual

/-- The tokens of an expression. -/
def Expr.slots : Expr ι → List Slot
  | .literal value => [value.slot]
  | .nameRef ref => [.held ref.name]
  | .assign ref value => .held ref.name :: .word .equal "=" :: value.slots
  | .unary op operand => .held op :: operand.slots
  | .binary left op right => left.slots ++ .held op :: right.slots
  | .logical left op right => left.slots ++ .held op :: right.slots
  | .group inner => .word .leftParen "(" :: inner.slots ++ [.word .rightParen ")"]
  | .call callee paren arguments =>
    callee.slots ++ .word .leftParen "(" :: Slot.commas (Expr.slotsAll arguments) ++ [.held paren]
  | .get object name => object.slots ++ [.word .dot ".", .held name]
  | .set object name value =>
    object.slots ++ .word .dot "." :: .held name :: .word .equal "=" :: value.slots
  | .thisRef ref => [.held ref.name]
  | .superRef ref method => [.held ref.name, .word .dot ".", .held method]
  | .unknown _ => []

/-- The tokens of each of some expressions. -/
def Expr.slotsAll : List (Expr ι) → List (List Slot)
  | [] => []
  | e :: es => e.slots :: Expr.slotsAll es

end

/-- The tokens of an expression that may be absent. -/
def Expr.slotsOption : Option (Expr ι) → List Slot
  | none => []
  | some e => e.slots

mutual

/-- The tokens of a statement or declaration. -/
def Stmt.slots : Stmt ι → List Slot
  | .expression value => value.slots ++ [.word .semicolon ";"]
  | .print value => .word .printWord "print" :: value.slots ++ [.word .semicolon ";"]
  | .var name none => [.word .varWord "var", .held name, .word .semicolon ";"]
  | .var name (some value) =>
    .word .varWord "var" :: .held name :: .word .equal "=" :: value.slots ++
      [.word .semicolon ";"]
  | .block body => .word .leftBrace "\x7b" :: Stmt.slotsAll body ++ [.word .rightBrace "\x7d"]
  | .ifThen condition body =>
    .word .ifWord "if" :: .word .leftParen "(" :: condition.slots ++
      .word .rightParen ")" :: body.slots
  | .ifElse condition body other =>
    .word .ifWord "if" :: .word .leftParen "(" :: condition.slots ++
      .word .rightParen ")" :: body.slots ++ .word .elseWord "else" :: other.slots
  | .whileLoop condition body =>
    .word .whileWord "while" :: .word .leftParen "(" :: condition.slots ++
      .word .rightParen ")" :: body.slots
  | .function declaration => .word .funWord "fun" :: Function.slots declaration
  | .returnFrom keyword value =>
    .held keyword :: Expr.slotsOption value ++ [.word .semicolon ";"]
  | .classOf name none methods =>
    .word .classWord "class" :: .held name :: .word .leftBrace "\x7b" ::
      Function.slotsAll methods ++ [.word .rightBrace "\x7d"]
  | .classOf name (some superclass) methods =>
    .word .classWord "class" :: .held name :: .word .less "<" :: .held superclass.name ::
      .word .leftBrace "\x7b" :: Function.slotsAll methods ++ [.word .rightBrace "\x7d"]
  | .unknown _ => []

/-- The tokens of statements and declarations. -/
def Stmt.slotsAll : List (Stmt ι) → List Slot
  | [] => []
  | s :: ss => s.slots ++ Stmt.slotsAll ss

/-- The tokens of a function or method, from its name on. -/
def Function.slots : Function ι → List Slot
  | ⟨name, params, body⟩ =>
    .held name :: .word .leftParen "(" :: Slot.commas (params.map fun p => [.held p]) ++
      .word .rightParen ")" :: .word .leftBrace "\x7b" :: Stmt.slotsAll body ++
      [.word .rightBrace "\x7d"]

/-- The tokens of methods. -/
def Function.slotsAll : List (Function ι) → List Slot
  | [] => []
  | f :: fs => Function.slots f ++ Function.slotsAll fs

end

/-- A program written out, the `i`-th of its tokens on the `i`-th of the lines unless the program
holds it. -/
def written (lines : Nat → Int) (program : List (Stmt ι)) : List Token :=
  Slot.place lines (Stmt.slotsAll program)

/-! ## What is written derives -/

namespace Slot

theorem place_cons (lines : Nat → Int) (slot : Slot) (slots : List Slot) :
    place lines (slot :: slots) =
      slot.token (lines 0) :: place (fun i => lines (i + 1)) slots := by
  simp [place, List.mapIdx_cons]

@[simp] theorem place_nil (lines : Nat → Int) : place lines [] = [] := rfl

theorem place_append (lines : Nat → Int) (slots slots' : List Slot) :
    place lines (slots ++ slots') =
      place lines slots ++ place (fun i => lines (i + slots.length)) slots' := by
  simp [place, List.mapIdx_append]

end Slot

theorem Expr.slotsAll_eq (es : List (Expr ι)) : Expr.slotsAll es = es.map Expr.slots := by
  induction es with
  | nil => rfl
  | cons e es ih => rw [slotsAll, ih, List.map_cons]

namespace Grammar

open Slot

/-- However the slots are placed on lines, the tokens derive the phrase. -/
def Spells (p : Phrase) (slots : List Slot) : Prop := ∀ lines, Derives p (place lines slots)

theorem spells_commas_arguments {es : List (Expr Unit)}
    (h : ∀ e ∈ es, Spells (.expression .assignment e) e.slots) :
    Spells (.arguments es) (commas (es.map Expr.slots)) := by
  intro lines
  induction es generalizing lines with
  | nil => exact .noArguments
  | cons e es ih =>
    have he := h e List.mem_cons_self
    cases es with
    | nil => simpa [commas] using Derives.lastArgument (he lines)
    | cons e' es =>
      have hes := ih fun e'' he'' => h e'' (List.mem_cons_of_mem e he'')
      rw [commas, List.map_cons, List.map_cons, List.intersperse_cons_cons, List.flatten_cons,
        List.flatten_cons, place_append, List.singleton_append, place_cons]
      exact .argument (he _) rfl (hes _)

theorem spells_commas_parameters {names : List Token} (h : ∀ p ∈ names, p.kind = .identifier) :
    Spells (.parameters names) (commas (names.map fun p => [.held p])) := by
  intro lines
  induction names generalizing lines with
  | nil => exact .noParameters
  | cons name names ih =>
    have hname := h name List.mem_cons_self
    cases names with
    | nil => exact .lastParameter hname
    | cons name' names =>
      have hnames := ih fun p hp => h p (List.mem_cons_of_mem name hp)
      rw [commas, List.map_cons, List.map_cons, List.intersperse_cons_cons, List.flatten_cons,
        List.flatten_cons, List.singleton_append, place_cons, List.singleton_append, place_cons]
      exact .parameter hname rfl (hnames _)

theorem spells_literal (value : Datum) :
    Spells (.expression .primary (.literal value)) [value.slot] := by
  intro lines
  cases value with
  | nil => exact .nilLiteral rfl
  | bool b => cases b with
    | true => exact .trueLiteral rfl
    | false => exact .falseLiteral rfl
  | number x => exact .literal (t := ⟨_, _, .number x, _⟩) (.inl rfl)
  | text s => exact .literal (t := ⟨_, _, .text s, _⟩) (.inr rfl)
  | integer n => exact .literal (t := ⟨_, _, .integer n, _⟩) (.inl rfl)

theorem Spells.loosen {l l' : Level} {e : Expr Unit} {slots : List Slot}
    (h : Spells (.expression l' e) slots) (hl : l ≤ l') : Spells (.expression l e) slots :=
  fun lines => (h lines).loosen hl

/-- The loosest level comes before all. -/
theorem Level.assignment_le (l : Level) : Level.assignment ≤ l := Nat.zero_le l.rank

/-- A grammatical expression derives on the level of its form. -/
theorem spells_expression {e : Expr Unit} (h : e.Grammatical) :
    Spells (.expression e.level e) e.slots := by
  induction h with
  | literal value => exact spells_literal value
  | nameRef hname => exact fun _ => .name hname
  | assign hname _ ih =>
    intro lines
    rw [Expr.slots, place_cons, place_cons]
    exact .assign hname rfl (ih.loosen (Level.assignment_le _) _)
  | unary hop _ htight ih =>
    intro lines
    rw [Expr.slots, place_cons]
    exact .unary hop (ih.loosen htight _)
  | @binary level left right op hlevel hop _ htight _ htighter ihleft ihright =>
    intro lines
    rw [Expr.slots, place_append, place_cons, Expr.level, Level.ofOperator_of_mem hop]
    have hderives lines' :=
      Derives.binary (ihleft.loosen htight lines) hop (ihright.loosen htighter lines')
    simp only [List.mem_cons, List.not_mem_nil, or_false] at hlevel
    rcases hlevel with rfl | rfl | rfl | rfl <;> exact hderives _
  | @logical level left right op hlevel hop _ htight _ htighter ihleft ihright =>
    intro lines
    rw [Expr.slots, place_append, place_cons, Expr.level, Level.ofOperator_of_mem hop]
    have hderives lines' :=
      Derives.binary (ihleft.loosen htight lines) hop (ihright.loosen htighter lines')
    simp only [List.mem_cons, List.not_mem_nil, or_false] at hlevel
    rcases hlevel with rfl | rfl <;> exact hderives _
  | group _ ih =>
    intro lines
    rw [Expr.slots, List.cons_append, place_cons, place_append, place_cons]
    exact .group rfl (ih.loosen (Level.assignment_le _) _) rfl
  | call _ htight _ hcount hparen ih iharguments =>
    intro lines
    have hes := spells_commas_arguments fun a ha =>
      (iharguments a ha).loosen (Level.assignment_le _)
    have hderives lines lines' (line line' : Int) :=
      Derives.call (l := Slot.token line (.word .leftParen "(")) (ih.loosen htight lines) rfl
        (hes lines') hcount (r := Slot.token line' (.held _)) hparen
    rw [Expr.slots, Expr.slotsAll_eq, place_append, place_append, place_cons, place_cons]
    exact hderives _ _ _ _
  | get _ htight hname ih =>
    intro lines
    rw [Expr.slots, place_append, place_cons, place_cons]
    exact .get (ih.loosen htight _) rfl hname
  | set _ htight hname _ ihobject ihvalue =>
    intro lines
    rw [Expr.slots, place_append, place_cons, place_cons, place_cons]
    exact .set (ihobject.loosen htight _) rfl hname rfl (ihvalue.loosen (Level.assignment_le _) _)
  | thisRef hthis => exact fun _ => .this hthis
  | superRef hsuper hmethod => exact fun _ => .superMethod hsuper rfl hmethod

theorem spells_assignment {e : Expr Unit} (h : e.Grammatical) :
    Spells (.expression .assignment e) e.slots :=
  (spells_expression h).loosen (Level.assignment_le _)

theorem spells_optional {value : Option (Expr Unit)} (h : ∀ e ∈ value, e.Grammatical) :
    Spells (.optional value) (Expr.slotsOption value) := by
  intro lines
  cases value with
  | none => exact .absent
  | some e => exact .present (spells_assignment (h e rfl) lines)

/-- What a grammatical statement or declaration is spelled as: a declaration, and unless it can be
nothing else also a statement. -/
structure SpellsBoth (s : Stmt Unit) : Prop where
  declaration : Spells (.declaration s) s.slots
  statement : s.isDeclaration = false → Spells (.statement s.endsOpen s) s.slots

namespace SpellsBoth

theorem ofStatement {s : Stmt Unit} (h : Spells (.statement s.endsOpen s) s.slots) :
    SpellsBoth s :=
  ⟨fun lines => .statement (h lines), fun _ => h⟩

theorem ofDeclaration {s : Stmt Unit} (hs : s.isDeclaration = true)
    (h : Spells (.declaration s) s.slots) : SpellsBoth s :=
  ⟨h, fun hplain => absurd (hs.symm.trans hplain) (by decide)⟩

end SpellsBoth

theorem spells_declarations {body : List (Stmt Unit)} (h : ∀ s ∈ body, SpellsBoth s) :
    Spells (.declarations body) (Stmt.slotsAll body) := by
  intro lines
  induction body generalizing lines with
  | nil => exact .noDeclarations
  | cons s body ih =>
    rw [List.forall_mem_cons] at h
    rw [Stmt.slotsAll, place_append]
    exact .declaration (h.1.declaration _) (ih h.2 _)

theorem spells_function {f : Function Unit} (h : f.HasSignature)
    (hbody : ∀ s ∈ f.body, SpellsBoth s) : Spells (.function f) (Function.slots f) := by
  obtain ⟨name, params, body⟩ := f
  have hderives lines lines' (line₁ line₂ line₃ line₄ : Int) :
      Derives (.function ⟨name, params, body⟩)
        (name :: Slot.token line₁ (.word .leftParen "(") ::
          place lines (commas (params.map fun p => [.held p])) ++
          Slot.token line₂ (.word .rightParen ")") :: Slot.token line₃ (.word .leftBrace "\x7b") ::
          place lines' (Stmt.slotsAll body) ++ [Slot.token line₄ (.word .rightBrace "\x7d")]) :=
    .function h.name rfl (spells_commas_parameters h.params lines) h.count rfl rfl
      (spells_declarations hbody lines') rfl
  intro lines
  simpa only [Function.slots, place_cons, place_append, place_nil, List.cons_append,
    List.append_assoc] using! hderives _ _ _ _ _ _

theorem spells_methods {methods : List (Function Unit)} (h : ∀ m ∈ methods, m.HasSignature)
    (hbodies : ∀ m ∈ methods, ∀ s ∈ m.body, SpellsBoth s) :
    Spells (.methods methods) (Function.slotsAll methods) := by
  intro lines
  induction methods generalizing lines with
  | nil => exact .noMethods
  | cons m methods ih =>
    rw [List.forall_mem_cons] at h hbodies
    rw [Function.slotsAll, place_append]
    exact .method (spells_function h.1 hbodies.1 _) (ih h.2 hbodies.2 _)

theorem spells_var {name : Token} {initial : Option (Expr Unit)} (hname : name.kind = .identifier)
    (hinitial : ∀ e ∈ initial, e.Grammatical) :
    Spells (.declaration (.var name initial)) (Stmt.var name initial).slots := by
  intro lines
  cases initial with
  | none => exact .variable (.var rfl hname rfl)
  | some value =>
    rw [Stmt.slots, List.cons_append, List.cons_append, List.cons_append, place_cons, place_cons,
      place_cons, place_append]
    exact .variable (.varInitial rfl hname rfl (spells_assignment (hinitial value rfl) _) rfl)

theorem spells_class {name : Token} {superclass : Option (Ref Unit)}
    {methods : List (Function Unit)} (hname : name.kind = .identifier)
    (hsuperclass : ∀ r ∈ superclass, r.name.kind = .identifier)
    (hmethods : Spells (.methods methods) (Function.slotsAll methods)) :
    Spells (.declaration (.classOf name superclass methods))
      (Stmt.classOf name superclass methods).slots := by
  intro lines
  cases superclass with
  | none =>
    rw [Stmt.slots, List.cons_append, List.cons_append, List.cons_append, place_cons, place_cons,
      place_cons, place_append]
    exact .classOf rfl hname rfl (hmethods _) rfl
  | some superclass =>
    rw [Stmt.slots, List.cons_append, List.cons_append, List.cons_append, List.cons_append,
      List.cons_append, place_cons, place_cons, place_cons, place_cons, place_cons, place_append]
    exact .subclassOf rfl hname rfl (hsuperclass superclass rfl) rfl (hmethods _) rfl

/-- A grammatical statement is spelled as its slots say.  It is dangling if it ends open. -/
theorem spells_statement {s : Stmt Unit} (h : s.Grammatical) : SpellsBoth s := by
  induction h with
  | expression hvalue =>
    refine .ofStatement fun lines => ?_
    rw [Stmt.slots, place_append]
    exact .expressionStatement (spells_assignment hvalue _) rfl
  | print hvalue =>
    refine .ofStatement fun lines => ?_
    rw [Stmt.slots, List.cons_append, place_cons, place_append]
    exact .print rfl (spells_assignment hvalue _) rfl
  | var hname hinitial => exact .ofDeclaration rfl (spells_var hname hinitial)
  | block _ ih =>
    refine .ofStatement fun lines => ?_
    rw [Stmt.slots, List.cons_append, place_cons, place_append]
    exact .block rfl (spells_declarations ih _) rfl
  | ifThen hcondition _ hplain ih =>
    refine .ofStatement fun lines => ?_
    rw [Stmt.slots, List.cons_append, List.cons_append, place_cons, place_cons, place_append,
      place_cons]
    exact .ifThen rfl rfl (spells_assignment hcondition _) rfl (ih.statement hplain _)
  | @ifElse condition body other hcondition _ hplain hclosed _ hplain' ih ih' =>
    have hbody := hclosed ▸ ih.statement hplain
    have hderives lines lines' lines'' (line₁ line₂ line₃ line₄ : Int) :
        Derives (.statement other.endsOpen (.ifElse condition body other))
          (Slot.token line₁ (.word .ifWord "if") :: Slot.token line₂ (.word .leftParen "(") ::
            place lines condition.slots ++ Slot.token line₃ (.word .rightParen ")") ::
            place lines' body.slots ++ Slot.token line₄ (.word .elseWord "else") ::
            place lines'' other.slots) :=
      .ifElse rfl rfl (spells_assignment hcondition lines) rfl (hbody lines') rfl
        (ih'.statement hplain' lines'')
    refine .ofStatement fun lines => ?_
    simpa only [Stmt.endsOpen, Stmt.slots, place_cons, place_append, List.cons_append,
      List.append_assoc] using hderives _ _ _ _ _ _ _
  | whileLoop hcondition _ hplain ih =>
    refine .ofStatement fun lines => ?_
    rw [Stmt.slots, List.cons_append, List.cons_append, place_cons, place_cons, place_append,
      place_cons]
    exact .whileLoop rfl rfl (spells_assignment hcondition _) rfl (ih.statement hplain _)
  | function hsignature _ ih =>
    refine .ofDeclaration rfl fun lines => ?_
    rw [Stmt.slots, place_cons]
    exact .functionDeclaration rfl (spells_function hsignature ih _)
  | returnFrom hkeyword hvalue =>
    refine .ofStatement fun lines => ?_
    rw [Stmt.slots, List.cons_append, place_cons, place_append]
    exact .returnFrom hkeyword (spells_optional hvalue _) rfl
  | classOf hname hsuperclass hsignatures _ ih =>
    exact .ofDeclaration rfl (spells_class hname hsuperclass (spells_methods hsignatures ih))

end Grammar

/-- **Reading undoes writing.**  A grammatical program, written out on any lines and followed by
the end of the source, parses without an error and to itself. -/
theorem parse_written {program : List (Stmt Unit)} (h : ∀ s ∈ program, s.Grammatical)
    (lines : Nat → Int) {eof : Token} (heof : eof.kind = .eof) {depth : Nat}
    (hdepth : (written lines program).length + 3 ≤ depth) :
    parse depth (written lines program ++ [eof]) = .ok ⟨program, []⟩ :=
  have hderives := spells_declarations (fun s hs => spells_statement (h s hs)) lines
  parse_of_derives hderives heof [] hdepth

/-- The program `class B < A { m(n) { if (n) { print -(n - 1); } else this.x = f(n, nil); } }`. -/
def updatingMethod : List (Stmt Unit) :=
  let name (lexeme : String) : Token := ⟨.identifier, lexeme, .nil, 1⟩
  let n : Expr Unit := .nameRef ⟨(), name "n"⟩
  [.classOf (name "B") (some ⟨(), name "A"⟩) [⟨name "m", [name "n"],
    [.ifElse n
      (.block [.print (.unary ⟨.minus, "-", .nil, 2⟩
        (.group (.binary n ⟨.minus, "-", .nil, 2⟩ (.literal (.number 1)))))])
      (.expression (.set (.thisRef ⟨(), ⟨.thisWord, "this", .nil, 3⟩⟩) (name "x")
        (.call (.nameRef ⟨(), name "f"⟩) ⟨.rightParen, ")", .nil, 4⟩ [n, .literal .nil])))]⟩]]

/-- Written with each token on a line of its own, it parses to itself. -/
theorem parse_written_updatingMethod :
    (∀ s ∈ updatingMethod, s.Grammatical) ∧
      parse 41 (written (fun i => (i : Int)) updatingMethod ++ [⟨.eof, "", .nil, 38⟩]) =
        .ok ⟨updatingMethod, []⟩ := by
  have hn : (Expr.nameRef ⟨(), ⟨.identifier, "n", .nil, 1⟩⟩ : Expr Unit).Grammatical := .nameRef rfl
  have hdifference : (Expr.binary (.nameRef ⟨(), ⟨.identifier, "n", .nil, 1⟩⟩)
      ⟨.minus, "-", .nil, 2⟩ (.literal (.number 1)) : Expr Unit).Grammatical :=
    .binary (show .term ∈ _ by decide) (by decide) hn (by decide) (.literal (.number 1)) (by decide)
  have hprint : (Stmt.print (.unary ⟨.minus, "-", .nil, 2⟩ (.group (.binary
      (.nameRef ⟨(), ⟨.identifier, "n", .nil, 1⟩⟩) ⟨.minus, "-", .nil, 2⟩
        (.literal (.number 1))))) : Stmt Unit).Grammatical :=
    .print (.unary (by decide) (.group hdifference) (by decide))
  have hcall : (Expr.call (.nameRef ⟨(), ⟨.identifier, "f", .nil, 1⟩⟩)
      ⟨.rightParen, ")", .nil, 4⟩
        [.nameRef ⟨(), ⟨.identifier, "n", .nil, 1⟩⟩, .literal .nil] : Expr Unit).Grammatical :=
    .call (.nameRef rfl) (by decide)
      (List.forall_mem_cons.mpr ⟨hn, List.forall_mem_singleton.mpr (.literal .nil)⟩) (by decide) rfl
  have hupdate : (Stmt.expression (.set (.thisRef ⟨(), ⟨.thisWord, "this", .nil, 3⟩⟩)
      ⟨.identifier, "x", .nil, 1⟩ (.call (.nameRef ⟨(), ⟨.identifier, "f", .nil, 1⟩⟩)
        ⟨.rightParen, ")", .nil, 4⟩
        [.nameRef ⟨(), ⟨.identifier, "n", .nil, 1⟩⟩, .literal .nil])) : Stmt Unit).Grammatical :=
    .expression (.set (.thisRef rfl) (by decide) rfl hcall)
  have hbody := Stmt.Grammatical.ifElse hn (.block (List.forall_mem_singleton.mpr hprint)) rfl rfl
    hupdate rfl
  have hprogram : ∀ s ∈ updatingMethod, s.Grammatical :=
    List.forall_mem_singleton.mpr (.classOf rfl (by simp)
      (List.forall_mem_singleton.mpr ⟨rfl, by simp, by decide⟩)
      (List.forall_mem_singleton.mpr (List.forall_mem_singleton.mpr hbody)))
  exact ⟨hprogram, parse_written hprogram _ rfl (by decide)⟩

end LoxLang
