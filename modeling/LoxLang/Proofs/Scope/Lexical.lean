import LoxLang.Proofs.Scope.Findings

/-! # Static scope

What a program says about its names and its jumps by its form alone.  `sitesOf` lists the places of
a program where a name is used or declared, where a function is left and where a class inherits,
each with all that lies around it: the blocks and functions, each with the statements that stand
before the one around the place, the classes, and the initializer of a variable.  From that one
reads off

* the local scopes around the place with the names that each has there (`Whereabouts.scopes`), and
  so how many scopes lie between a reference and the innermost one that has its name
  (`Site.binding?`);
* the rules that the place breaks (`Site.errors`).

Nothing here goes over the program with a state, and no place depends on what is found at another. -/

namespace LoxLang

variable {ι : Type}

/-- What statements stand in. -/
inductive BodyOf (ι : Type)
  | block
  | function (f : Function ι) (isMethod : Bool)

/-- The names that a body begins with. -/
def BodyOf.params : BodyOf ι → List Token
  | .block => []
  | .function f _ => f.params

/-- A step on the way outward from a place of a program. -/
inductive Enclosure (ι : Type)
  /-- The statement `current` of a body, with the statements before it. -/
  | body (owner : BodyOf ι) (earlier : List (Stmt ι)) (current : Stmt ι)
  /-- The methods of a class, which names a superclass or does not. -/
  | methods (derived : Bool)
  /-- The initializer of a variable. -/
  | initializer (name : Token)

/-- What lies around a place of a program, from there outward. -/
abbrev Whereabouts (ι : Type) := List (Enclosure ι)

/-- The texts of names. -/
def lexemes (names : List Token) : List String := names.map Token.lexeme

/-- The local scopes that a step outward leaves, innermost first, each with its names at the place:
in a body the parameters and what the statements declare up to and with the one around the place, so
that a function, a class and a variable have their own names inside them. -/
def Enclosure.scopes : Enclosure ι → List (List String)
  | .body owner earlier current =>
    [lexemes (owner.params ++ Stmt.declaresAll (earlier ++ [current]))]
  | .methods true => [["this"], ["super"]]
  | .methods false => [["this"]]
  | .initializer _ => []

namespace Whereabouts

/-- The local scopes around a place, innermost first. -/
def scopes (around : Whereabouts ι) : List (List String) := around.flatMap Enclosure.scopes

/-- The number of scopes between a place and the innermost one that has a name. -/
def hops? (name : String) (around : Whereabouts ι) : Option Nat :=
  around.scopes.findIdx? (fun names => names.contains name)

/-- The names that were declared in the innermost scope before the statement around the place. -/
def declaredBefore : Whereabouts ι → List String
  | .body owner earlier _ :: _ => lexemes (owner.params ++ Stmt.declaresAll earlier)
  | _ => []

/-- The innermost function around a place, and whether it is a method. -/
def function? (around : Whereabouts ι) : Option (Function ι × Bool) :=
  around.findSome? fun
    | .body (.function f isMethod) _ _ => some (f, isMethod)
    | .body .block _ _ | .methods _ | .initializer _ => none

/-- Whether the innermost class around a place names a superclass. -/
def class? (around : Whereabouts ι) : Option Bool :=
  around.findSome? fun
    | .methods derived => some derived
    | .body _ _ _ | .initializer _ => none

/-- Whether a place is in the initializer of a local variable of the given name. -/
def isInitializerOf (name : String) : Whereabouts ι → Bool
  | .initializer declared :: outer => declared.lexeme == name && !(scopes outer).isEmpty
  | _ => false

end Whereabouts

/-- What there is at a place of a program. -/
inductive Occurrence (ι : Type)
  | reference (use : RefUse) (ref : Ref ι)
  /-- The declaration of a variable, function or class. -/
  | declaration (name : Token)
  /-- A parameter, behind others. -/
  | parameter (earlier : List Token) (name : Token)
  | returnFrom (keyword : Token) (value : Option (Expr ι))
  /-- The name of a class and that of its superclass. -/
  | inheritance (name parent : Token)

/-- A place of a program: what is there and what lies around it. -/
structure Site (ι : Type) where
  occurrence : Occurrence ι
  around : Whereabouts ι

namespace Site

/-- The token that stands for a place. -/
def token (site : Site ι) : Token :=
  match site.occurrence with
  | .reference _ ref => ref.name
  | .declaration name | .parameter _ name => name
  | .returnFrom keyword _ => keyword
  | .inheritance _ parent => parent

/-- Whether a place breaks a rule. -/
def breaks (site : Site ι) (rule : ScopeFault) : Bool :=
  match rule, site.occurrence with
  | .alreadyDeclared, .declaration name => site.around.declaredBefore.contains name.lexeme
  | .alreadyDeclared, .parameter earlier name => (lexemes earlier).contains name.lexeme
  | .readInOwnInitializer, .reference .read ref => site.around.isInitializerOf ref.name.lexeme
  | .returnOutsideFunction, .returnFrom _ _ => site.around.function?.isNone
  | .valueFromInitializer, .returnFrom _ value =>
    value.isSome && site.around.function?.any fun f => f.2 && f.1.isInitializer
  | .thisOutsideClass, .reference .this _ => site.around.class?.isNone
  | .superOutsideClass, .reference .super _ => site.around.class?.isNone
  | .superWithoutSuperclass, .reference .super _ => site.around.class? == some false
  | .inheritsFromItself, .inheritance name parent => parent.lexeme == name.lexeme
  | _, _ => false

/-- All rules about names and jumps. -/
def rules : List ScopeFault :=
  [.alreadyDeclared, .readInOwnInitializer, .returnOutsideFunction, .valueFromInitializer,
    .thisOutsideClass, .superOutsideClass, .superWithoutSuperclass, .inheritsFromItself]

/-- The rules that a place breaks, each with its token. -/
def errors (site : Site ι) : List ScopeError :=
  (rules.filter site.breaks).map fun rule => ⟨rule, site.token⟩

section
variable (around : Whereabouts ι)

/-- A place where only one rule can be broken. -/
theorem errors_of_breaks {site : Site ι} {rule : ScopeFault} {broken : Bool}
    (h : ∀ r, site.breaks r = (r == rule && broken)) :
    site.errors = if broken then [⟨rule, site.token⟩] else [] := by
  have hbreaks : site.breaks = fun r => r == rule && broken := funext h
  rw [errors, hbreaks]
  cases broken <;> cases rule <;> rfl

theorem errors_read (ref : Ref ι) :
    errors ⟨.reference .read ref, around⟩ =
      if around.isInitializerOf ref.name.lexeme then [⟨.readInOwnInitializer, ref.name⟩]
      else [] :=
  errors_of_breaks fun r => by cases r <;> rfl

theorem errors_this (ref : Ref ι) :
    errors ⟨.reference .this ref, around⟩ =
      if around.class?.isNone then [⟨.thisOutsideClass, ref.name⟩] else [] :=
  errors_of_breaks fun r => by cases r <;> rfl

theorem errors_super (ref : Ref ι) :
    errors ⟨.reference .super ref, around⟩ =
      if around.class?.isNone then [⟨.superOutsideClass, ref.name⟩]
      else if around.class? == some false then [⟨.superWithoutSuperclass, ref.name⟩] else [] := by
  have hbreaks : breaks ⟨.reference .super ref, around⟩ = fun r =>
      r == .superOutsideClass && around.class?.isNone ||
        r == .superWithoutSuperclass && around.class? == some false :=
    funext fun r => by cases r <;> simp [breaks]
  rw [errors, hbreaks]
  rcases around.class? with _ | _ | _ <;> rfl

theorem errors_declaration (name : Token) :
    errors ⟨.declaration name, around⟩ =
      if around.declaredBefore.contains name.lexeme then [⟨.alreadyDeclared, name⟩] else [] :=
  errors_of_breaks fun r => by cases r <;> rfl

theorem errors_parameter (earlier : List Token) (name : Token) :
    errors ⟨.parameter earlier name, around⟩ =
      if (lexemes earlier).contains name.lexeme then [⟨.alreadyDeclared, name⟩] else [] :=
  errors_of_breaks fun r => by cases r <;> rfl

theorem errors_returnFrom (keyword : Token) (value : Option (Expr ι)) :
    errors ⟨.returnFrom keyword value, around⟩ =
      if around.function?.isNone then [⟨.returnOutsideFunction, keyword⟩]
      else if value.isSome && around.function?.any (fun f => f.2 && f.1.isInitializer) then
        [⟨.valueFromInitializer, keyword⟩]
      else [] := by
  have hbreaks : breaks ⟨.returnFrom keyword value, around⟩ = fun r =>
      r == .returnOutsideFunction && around.function?.isNone ||
        r == .valueFromInitializer &&
          (value.isSome && around.function?.any (fun f => f.2 && f.1.isInitializer)) :=
    funext fun r => by cases r <;> simp [breaks]
  rw [errors, hbreaks]
  cases around.function? with
  | none => cases value <;> rfl
  | some f =>
    rw [Option.isNone_some, Option.any_some]
    generalize (value.isSome && (f.2 && f.1.isInitializer)) = broken
    cases broken <;> rfl

theorem errors_inheritance (name parent : Token) :
    errors ⟨.inheritance name parent, around⟩ =
      if parent.lexeme == name.lexeme then [⟨.inheritsFromItself, parent⟩] else [] :=
  errors_of_breaks fun r => by cases r <;> rfl

end

/-- The binding of a reference, if some scope around it has its name. -/
def binding? (site : Site Label) : Option Binding :=
  match site.occurrence with
  | .reference use ref =>
    (site.around.hops? ref.name.lexeme).map fun hops =>
      ⟨ref.label, use, ref.name, hops, site.around.function?.isNone⟩
  | _ => none

end Site

/-- The places of an expression. -/
def Expr.sites (around : Whereabouts ι) (e : Expr ι) : List (Site ι) :=
  e.references.map fun r => ⟨.reference r.1 r.2, around⟩

/-- The places of an expression that may be absent. -/
def Expr.sitesOption (around : Whereabouts ι) : Option (Expr ι) → List (Site ι)
  | none => []
  | some e => e.sites around

/-- The places of parameters behind others. -/
def parameterSites (around : Whereabouts ι) (earlier : List Token) : List Token → List (Site ι)
  | [] => []
  | name :: names =>
    ⟨.parameter earlier name, around⟩ :: parameterSites around (earlier ++ [name]) names

mutual

/-- The places of a statement. -/
def Stmt.sites (around : Whereabouts ι) : Stmt ι → List (Site ι)
  | .expression value | .print value => value.sites around
  | .var name initial =>
    ⟨.declaration name, around⟩ :: Expr.sitesOption (.initializer name :: around) initial
  | .block body => Stmt.sitesAll .block around [] body
  | .ifThen condition body | .whileLoop condition body =>
    condition.sites around ++ body.sites around
  | .ifElse condition body other =>
    condition.sites around ++ body.sites around ++ other.sites around
  | .function f =>
    ⟨.declaration f.name, around⟩ :: Function.sites false around f
  | .returnFrom keyword value =>
    ⟨.returnFrom keyword value, around⟩ :: Expr.sitesOption around value
  | .classOf name none methods =>
    ⟨.declaration name, around⟩ :: Function.sitesAll (.methods false :: around) methods
  | .classOf name (some parent) methods =>
    ⟨.declaration name, around⟩ :: ⟨.inheritance name parent.name, around⟩ ::
      ⟨.reference .read parent, around⟩ :: Function.sitesAll (.methods true :: around) methods
  | .unknown _ => []

/-- The places of the statements of a body, behind others of it. -/
def Stmt.sitesAll (owner : BodyOf ι) (around : Whereabouts ι) (earlier : List (Stmt ι)) :
    List (Stmt ι) → List (Site ι)
  | [] => []
  | s :: ss =>
    s.sites (.body owner earlier s :: around) ++ Stmt.sitesAll owner around (earlier ++ [s]) ss

/-- The places of a function or method: its parameters and its body. -/
def Function.sites (isMethod : Bool) (around : Whereabouts ι) : Function ι → List (Site ι)
  | ⟨name, params, body⟩ =>
    parameterSites around [] params ++
      Stmt.sitesAll (.function ⟨name, params, body⟩ isMethod) around [] body

/-- The places of methods. -/
def Function.sitesAll (around : Whereabouts ι) : List (Function ι) → List (Site ι)
  | [] => []
  | m :: ms => Function.sites true around m ++ Function.sitesAll around ms

end

/-- The places of a program, in the order in which the program is gone over. -/
def sitesOf (program : List (Stmt ι)) : List (Site ι) := program.flatMap (Stmt.sites [])

end LoxLang
