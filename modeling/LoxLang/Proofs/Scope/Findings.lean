import LoxLang.Proofs.Syntax.WellFormed
import LoxLang.Scope.Binder

/-! # What there is to find in a program

The references of a program, each with the scopes that are open where it stands, and the rules
about names and jumps that the program breaks, all in the order in which the binding pass comes to
them.  Everything here is a function of the program and of the place where it stands; there is no
state that is passed on, no limit of nesting, and no table.

For each open scope we note, besides the names it has so far, the names it gets anywhere: a
function that is made in a scope may be called when the scope has got more names than it had where
the function stands. -/

namespace LoxLang

open Binder (Surroundings FunctionContext ClassContext)

variable {ι : Type}

/-- A local scope as it is open at some point of a program. -/
structure OpenScope where
  /-- The names declared so far, and whether they are defined yet. -/
  declared : Bindings Bool
  /-- The names declared anywhere in the scope. -/
  whole : List String

namespace OpenScope

/-- A scope at its beginning, in which the given names will be declared. -/
def fresh (names : List Token) : OpenScope := ⟨Bindings.empty, names.map Token.lexeme⟩

/-- A scope in which a word has a meaning, and nothing else. -/
def ofWord (word : String) : OpenScope := ⟨Bindings.empty.insert word true, [word]⟩

/-- Whether a name is declared, defined or not. -/
def has (scope : OpenScope) (name : String) : Bool := scope.declared.contains name

/-- Says of a name whether it is defined. -/
def mark (name : String) (defined : Bool) (scope : OpenScope) : OpenScope :=
  ⟨scope.declared.insert name defined, scope.whole⟩

end OpenScope

/-- The local scopes that are open at a point of a program, innermost first. -/
abbrev Context := List OpenScope

namespace Context

/-- Says of a name in the innermost scope whether it is defined. -/
def mark (name : String) (defined : Bool) : Context → Context
  | [] => []
  | scope :: outer => scope.mark name defined :: outer

/-- Declares and defines a name. -/
def introduce (name : Token) (context : Context) : Context := context.mark name.lexeme true

/-- Declares and defines names in their order. -/
def introduceAll (names : List Token) (context : Context) : Context :=
  names.foldl (fun context name => context.introduce name) context

/-- Whether a name is declared in the innermost scope and not defined yet. -/
def isPending (name : String) (context : Context) : Bool :=
  context.head?.any (fun scope => scope.declared.get? name == some false)

/-- The number of scopes to leave on the way to the innermost one that declares a name. -/
def hops? (name : String) (context : Context) : Option Nat :=
  context.findIdx? (fun scope => scope.has name)

end Context

/-- A reference at its place in a program. -/
structure Use (ι : Type) where
  ref : Ref ι
  kind : RefUse
  around : Surroundings
  context : Context

/-- Something that the binding pass finds. -/
inductive Finding (ι : Type)
  | use (u : Use ι)
  | error (e : ScopeError)

namespace Use

/-- The number of scopes to leave on the way to the variable, if it is a local one. -/
def hops? (u : Use ι) : Option Nat := u.context.hops? u.ref.name.lexeme

/-- Whether the name is declared in the innermost scope and not defined yet. -/
def isPending (u : Use ι) : Bool := u.context.isPending u.ref.name.lexeme

/-- The rules that a reference breaks at its place. -/
def errors (u : Use ι) : List ScopeError :=
  match u.kind, u.around.classBody with
  | .read, _ => if u.isPending then [⟨.readInOwnInitializer, u.ref.name⟩] else []
  | .this, .outside => [⟨.thisOutsideClass, u.ref.name⟩]
  | .super, .outside => [⟨.superOutsideClass, u.ref.name⟩]
  | .super, .plain => [⟨.superWithoutSuperclass, u.ref.name⟩]
  | _, _ => []

/-- What is found at a reference. The word `this` means nothing outside a class. -/
def findings (u : Use ι) : List (Finding ι) :=
  u.errors.map .error ++
    if u.kind = .this ∧ u.around.classBody = .outside then [] else [.use u]

end Use

mutual

/-- The references of an expression, with what each of them does. -/
def Expr.references : Expr ι → List (RefUse × Ref ι)
  | .literal _ => []
  | .nameRef ref => [(.read, ref)]
  | .assign ref value => value.references ++ [(.assign, ref)]
  | .unary _ operand => operand.references
  | .binary left _ right | .logical left _ right => left.references ++ right.references
  | .group inner => inner.references
  | .call callee _ arguments => callee.references ++ Expr.referencesAll arguments
  | .get object _ => object.references
  | .set object _ value => value.references ++ object.references
  | .thisRef ref => [(.this, ref)]
  | .superRef ref _ => [(.super, ref)]
  | .unknown _ => []

/-- The references of expressions. -/
def Expr.referencesAll : List (Expr ι) → List (RefUse × Ref ι)
  | [] => []
  | e :: es => e.references ++ Expr.referencesAll es

end

theorem Expr.referencesAll_eq (es : List (Expr ι)) :
    Expr.referencesAll es = es.flatMap Expr.references := by
  induction es with
  | nil => rfl
  | cons e es ih => rw [referencesAll, ih, List.flatMap_cons]

/-- In a well-formed expression the references to `this` and `super` are spelled so. -/
theorem Expr.WellFormed.references_word {e : Expr ι} (h : e.WellFormed) :
    ∀ r ∈ e.references, (r.1 = .this → r.2.name.lexeme = "this") ∧
      (r.1 = .super → r.2.name.lexeme = "super") := by
  induction h with
  | call _ _ ihcallee iharguments =>
    intro r hr
    rw [Expr.references, Expr.referencesAll_eq, List.mem_append, List.mem_flatMap] at hr
    rcases hr with hr | ⟨a, ha, hr⟩
    · exact ihcallee r hr
    · exact iharguments a ha r hr
  | assign _ _ ih => exact List.forall_mem_append.mpr ⟨ih, by simp⟩
  | unary _ ih | group _ ih | get _ ih => exact ih
  | binary _ _ ihleft ihright | logical _ _ ihleft ihright =>
    exact List.forall_mem_append.mpr ⟨ihleft, ihright⟩
  | set _ _ ihobject ihvalue => exact List.forall_mem_append.mpr ⟨ihvalue, ihobject⟩
  | thisRef hthis => simpa [Expr.references] using hthis
  | superRef hsuper => simpa [Expr.references] using hsuper
  | _ => simp [Expr.references]

/-- What is found in an expression. -/
def Expr.visit (around : Surroundings) (context : Context) (e : Expr ι) : List (Finding ι) :=
  e.references.flatMap fun r => Use.findings ⟨r.2, r.1, around, context⟩

namespace Expr

variable (around : Surroundings) (context : Context)

@[simp] theorem visit_literal (value : Datum) :
    (literal value : Expr ι).visit around context = [] := rfl

@[simp] theorem visit_nameRef (ref : Ref ι) :
    (nameRef ref).visit around context = Use.findings ⟨ref, .read, around, context⟩ :=
  List.flatMap_singleton ..

@[simp] theorem visit_assign (ref : Ref ι) (value : Expr ι) :
    (assign ref value).visit around context =
      value.visit around context ++ [.use ⟨ref, .assign, around, context⟩] :=
  List.flatMap_append

@[simp] theorem visit_unary (op : Token) (operand : Expr ι) :
    (unary op operand).visit around context = operand.visit around context := rfl

@[simp] theorem visit_binary (left : Expr ι) (op : Token) (right : Expr ι) :
    (binary left op right).visit around context =
      left.visit around context ++ right.visit around context :=
  List.flatMap_append

@[simp] theorem visit_logical (left : Expr ι) (op : Token) (right : Expr ι) :
    (logical left op right).visit around context =
      left.visit around context ++ right.visit around context :=
  List.flatMap_append

@[simp] theorem visit_group (inner : Expr ι) :
    (group inner).visit around context = inner.visit around context := rfl

@[simp] theorem visit_call (callee : Expr ι) (paren : Token) (arguments : List (Expr ι)) :
    (call callee paren arguments).visit around context =
      callee.visit around context ++ arguments.flatMap fun a => a.visit around context := by
  simp [visit, references, referencesAll_eq, List.flatMap_assoc]

@[simp] theorem visit_get (object : Expr ι) (name : Token) :
    (get object name).visit around context = object.visit around context := rfl

@[simp] theorem visit_set (object : Expr ι) (name : Token) (value : Expr ι) :
    (set object name value).visit around context =
      value.visit around context ++ object.visit around context :=
  List.flatMap_append

@[simp] theorem visit_thisRef (ref : Ref ι) :
    (thisRef ref).visit around context = Use.findings ⟨ref, .this, around, context⟩ :=
  List.flatMap_singleton ..

@[simp] theorem visit_superRef (ref : Ref ι) (method : Token) :
    (superRef ref method).visit around context = Use.findings ⟨ref, .super, around, context⟩ :=
  List.flatMap_singleton ..

end Expr

/-- What is found in an expression that may be absent. -/
def Expr.visitOption (around : Surroundings) (context : Context) :
    Option (Expr ι) → List (Finding ι)
  | none => []
  | some e => e.visit around context

/-- The error of declaring a name in a scope that has it. -/
def Context.redeclared (name : Token) (context : Context) : List (Finding ι) :=
  if context.head?.any (fun scope => scope.has name.lexeme) then
    [.error ⟨.alreadyDeclared, name⟩]
  else []

/-- The errors of declaring names one after another. -/
def Context.redeclaredAll (context : Context) : List Token → List (Finding ι)
  | [] => []
  | name :: names =>
    context.redeclared name ++ Context.redeclaredAll (context.introduce name) names

/-- The rules that a `return` breaks at its place. -/
def returnErrors (around : Surroundings) (keyword : Token) (value : Option (Expr ι)) :
    List (Finding ι) :=
  (if around.function = .outside then [.error ⟨.returnOutsideFunction, keyword⟩] else []) ++
    if value.isSome ∧ around.function = .initializer then
      [.error ⟨.valueFromInitializer, keyword⟩]
    else []

/-- The names that statements declare in the scope where they stand. -/
def Stmt.declaresAll (body : List (Stmt ι)) : List Token := body.flatMap Stmt.declares

/-- The names of the scope of a function. -/
def FunctionOf.scopeNames (f : Function ι) : List Token := f.params ++ Stmt.declaresAll f.body

/-- The kind of function that a method is. -/
def FunctionOf.methodContext (f : Function ι) : FunctionContext :=
  if f.isInitializer then .initializer else .method

mutual

/-- What is found in a statement. -/
def Stmt.visit (around : Surroundings) (context : Context) : Stmt ι → List (Finding ι)
  | .expression value | .print value => value.visit around context
  | .var name initial =>
    context.redeclared name ++ Expr.visitOption around (context.mark name.lexeme false) initial
  | .block body => Stmt.visitAll around (.fresh (Stmt.declaresAll body) :: context) body
  | .ifThen condition body | .whileLoop condition body =>
    condition.visit around context ++ body.visit around context
  | .ifElse condition body other =>
    condition.visit around context ++ body.visit around context ++
      other.visit around (context.introduceAll body.declares)
  | .function f =>
    context.redeclared f.name ++ Function.visit around .function (context.introduce f.name) f
  | .returnFrom keyword value =>
    returnErrors around keyword value ++ Expr.visitOption around context value
  | .classOf name none methods =>
    context.redeclared name ++
      Function.visitMethods ⟨around.function, .plain⟩
        (.ofWord "this" :: context.introduce name) methods
  | .classOf name (some parent) methods =>
    context.redeclared name ++
      (if parent.name.lexeme = name.lexeme then [.error ⟨.inheritsFromItself, parent.name⟩]
        else []) ++
      Use.findings ⟨parent, .read, around, context.introduce name⟩ ++
      Function.visitMethods ⟨around.function, .derived⟩
        (.ofWord "this" :: .ofWord "super" :: context.introduce name) methods
  | .unknown _ => []

/-- What is found in statements, each of which sees the names declared by those before it. -/
def Stmt.visitAll (around : Surroundings) (context : Context) :
    List (Stmt ι) → List (Finding ι)
  | [] => []
  | s :: ss =>
    s.visit around context ++ Stmt.visitAll around (context.introduceAll s.declares) ss

/-- What is found in a function; the parameters and the body share one scope. -/
def Function.visit (around : Surroundings) (kind : FunctionContext) (context : Context) :
    Function ι → List (Finding ι)
  | ⟨name, params, body⟩ =>
    let inner := OpenScope.fresh (FunctionOf.scopeNames ⟨name, params, body⟩) :: context
    Context.redeclaredAll inner params ++
      Stmt.visitAll ⟨kind, around.classBody⟩ (Context.introduceAll params inner) body

/-- What is found in methods. -/
def Function.visitMethods (around : Surroundings) (context : Context) :
    List (Function ι) → List (Finding ι)
  | [] => []
  | m :: ms =>
    Function.visit around m.methodContext context m ++ Function.visitMethods around context ms

end

/-- What is found in a program. -/
def visitProgram (program : List (Stmt ι)) : List (Finding ι) :=
  Stmt.visitAll ⟨.outside, .outside⟩ [] program

/-- Outside all local scopes nothing is declared. -/
theorem Context.introduceAll_nil (names : List Token) : Context.introduceAll names [] = [] := by
  induction names with
  | nil => rfl
  | cons name names ih => exact ih

/-- What is found in a statement outside all blocks does not depend on those before it. -/
theorem visitProgram_append (program more : List (Stmt ι)) :
    visitProgram (program ++ more) = visitProgram program ++ visitProgram more := by
  induction program with
  | nil => rfl
  | cons s ss ih =>
    simp only [visitProgram, List.cons_append, Stmt.visitAll, Context.introduceAll_nil] at ih ⊢
    rw [ih, List.append_assoc]

namespace Finding

/-- The uses among findings. -/
def use? : Finding ι → Option (Use ι)
  | .use u => some u
  | .error _ => none

/-- The errors among findings. -/
def error? : Finding ι → Option ScopeError
  | .use _ => none
  | .error e => some e

end Finding

end LoxLang
