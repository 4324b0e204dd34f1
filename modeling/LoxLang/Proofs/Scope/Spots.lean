import LoxLang.Proofs.Scope.Findings
import Mathlib.Logic.Relation

/-! # Where the binding pass comes

The binding pass goes down a program, from each expression and statement to those that it is made
of.  A spot is one of them together with what surrounds it and with the scopes that are open when
the pass comes to it.  Here, too, everything is a function of the program and of the place where it
stands: `Spot.next` says to which spots the pass goes on from a spot, and `Spot.Reaches` to which it
comes in the end. -/

namespace LoxLang

open Binder (Surroundings FunctionContext ClassContext)

variable {ι : Type}

/-- An expression or a statement. -/
inductive Code (ι : Type)
  | expression (e : Expr ι)
  | statement (s : Stmt ι)

/-- An expression or a statement at its place in a program. -/
structure Spot (ι : Type) where
  code : Code ι
  around : Surroundings
  context : Context

/-- The parts of an expression, in the order in which their references are bound. -/
def Expr.parts : Expr ι → List (Expr ι)
  | .assign _ value => [value]
  | .unary _ operand => [operand]
  | .binary left _ right | .logical left _ right => [left, right]
  | .group inner => [inner]
  | .call callee _ arguments => callee :: arguments
  | .get object _ => [object]
  | .set object _ value => [value, object]
  | .literal _ | .nameRef _ | .thisRef _ | .superRef _ _ | .unknown _ => []

/-- Statements that follow each other, each of which sees the names declared by those before it. -/
def Stmt.spotsAll (around : Surroundings) (context : Context) : List (Stmt ι) → List (Spot ι)
  | [] => []
  | s :: ss =>
    ⟨.statement s, around, context⟩ :: Stmt.spotsAll around (context.introduceAll s.declares) ss

/-- The statements of a function. -/
def FunctionOf.spots (around : Surroundings) (kind : FunctionContext) (context : Context)
    (f : Function ι) : List (Spot ι) :=
  Stmt.spotsAll ⟨kind, around.classBody⟩
    (Context.introduceAll f.params (.fresh f.scopeNames :: context)) f.body

/-- What a statement is made of.  The name of a superclass is an expression in it. -/
def Stmt.spots (around : Surroundings) (context : Context) : Stmt ι → List (Spot ι)
  | .expression value | .print value => [⟨.expression value, around, context⟩]
  | .var name initial =>
    initial.toList.map fun e => ⟨.expression e, around, context.mark name.lexeme false⟩
  | .block body => Stmt.spotsAll around (.fresh (Stmt.declaresAll body) :: context) body
  | .ifThen condition body | .whileLoop condition body =>
    [⟨.expression condition, around, context⟩, ⟨.statement body, around, context⟩]
  | .ifElse condition body other =>
    [⟨.expression condition, around, context⟩, ⟨.statement body, around, context⟩,
      ⟨.statement other, around, context.introduceAll body.declares⟩]
  | .function f => f.spots around .function (context.introduce f.name)
  | .returnFrom _ value => value.toList.map fun e => ⟨.expression e, around, context⟩
  | .classOf name none methods =>
    methods.flatMap fun m => m.spots ⟨around.function, .plain⟩ m.methodContext
      (.ofWord "this" :: context.introduce name)
  | .classOf name (some parent) methods =>
    ⟨.expression (.nameRef parent), around, context.introduce name⟩ ::
      methods.flatMap fun m => m.spots ⟨around.function, .derived⟩ m.methodContext
        (.ofWord "this" :: .ofWord "super" :: context.introduce name)
  | .unknown _ => []

namespace Spot

/-- The spots to which the pass goes on from one. -/
def next (p : Spot ι) : List (Spot ι) :=
  match p.code with
  | .expression e => e.parts.map fun part => ⟨.expression part, p.around, p.context⟩
  | .statement s => s.spots p.around p.context

/-- From a spot the pass comes to another. -/
def Reaches : Spot ι → Spot ι → Prop := Relation.ReflTransGen fun p q => q ∈ p.next

/-- A spot is one of a program. -/
def IsOf (program : List (Stmt ι)) (p : Spot ι) : Prop :=
  ∃ root ∈ Stmt.spotsAll ⟨.outside, .outside⟩ [] program, root.Reaches p

/-- A spot is in the body of a function or method. -/
def Inside (p : Spot ι) : Prop := p.around.function ≠ .outside

end Spot

/-- Statements see the names declared by those before them. -/
theorem Stmt.spotsAll_append (around : Surroundings) (context : Context) (ss more : List (Stmt ι)) :
    Stmt.spotsAll around context (ss ++ more) =
      Stmt.spotsAll around context ss ++
        Stmt.spotsAll around (context.introduceAll (Stmt.declaresAll ss)) more := by
  induction ss generalizing context with
  | nil => rfl
  | cons s ss ih =>
    have hnames : context.introduceAll (Stmt.declaresAll (s :: ss)) =
        (context.introduceAll s.declares).introduceAll (Stmt.declaresAll ss) := List.foldl_append
    rw [List.cons_append, spotsAll, ih, spotsAll, List.cons_append, hnames]

theorem Stmt.around_of_mem_spotsAll {around : Surroundings} {context : Context}
    {ss : List (Stmt ι)} {p : Spot ι} (hp : p ∈ Stmt.spotsAll around context ss) :
    p.around = around := by
  induction ss generalizing context with
  | nil => cases hp
  | cons s ss ih =>
    rcases List.mem_cons.mp hp with rfl | hp
    · rfl
    · exact ih hp

theorem Stmt.inside_spotsAll {around : Surroundings} (haround : around.function ≠ .outside)
    {context : Context} {ss : List (Stmt ι)} {p : Spot ι}
    (hp : p ∈ Stmt.spotsAll around context ss) : p.Inside := by
  rw [Spot.Inside, Stmt.around_of_mem_spotsAll hp]
  exact haround

theorem FunctionOf.inside_spots {f : Function ι} {around : Surroundings} {kind : FunctionContext}
    {context : Context} (hkind : kind ≠ .outside) {p : Spot ι}
    (hp : p ∈ f.spots around kind context) : p.Inside :=
  Stmt.inside_spotsAll hkind hp

theorem FunctionOf.methodContext_ne (f : Function ι) : f.methodContext ≠ .outside := by
  unfold methodContext
  split <;> nofun

theorem Stmt.inside_spots {around : Surroundings} (haround : around.function ≠ .outside)
    {context : Context} {s : Stmt ι} {p : Spot ι} (hp : p ∈ s.spots around context) :
    p.Inside := by
  have hmethods : ∀ {outer : Surroundings} {c : Context} {ms : List (Function ι)},
      p ∈ (ms.flatMap fun m => m.spots outer m.methodContext c) → p.Inside := by
    intro outer c ms hp
    obtain ⟨m, _, hp⟩ := List.mem_flatMap.mp hp
    exact FunctionOf.inside_spots m.methodContext_ne hp
  cases s with
  | expression value | print value =>
    obtain rfl := List.mem_singleton.mp hp
    exact haround
  | var name value | returnFrom name value =>
    obtain ⟨e, _, rfl⟩ := List.mem_map.mp hp
    exact haround
  | block body => exact inside_spotsAll haround hp
  | ifThen condition body | whileLoop condition body | ifElse condition body other =>
    rw [spots] at hp
    simp only [List.mem_cons, List.not_mem_nil, or_false] at hp
    rcases hp with rfl | rfl | rfl <;> exact haround
  | function f =>
    have hkind : FunctionContext.function ≠ .outside := nofun
    exact FunctionOf.inside_spots hkind hp
  | classOf name superclass methods =>
    cases superclass with
    | none => exact hmethods hp
    | some parent =>
      rcases List.mem_cons.mp hp with rfl | hp
      · exact haround
      · exact hmethods hp
  | unknown form => cases hp

/-- Inside a function the pass stays inside functions. -/
theorem Spot.Inside.next {p q : Spot ι} (h : p.Inside) (hq : q ∈ p.next) : q.Inside := by
  obtain ⟨code, around, context⟩ := p
  cases code with
  | expression e =>
    obtain ⟨part, _, rfl⟩ := List.mem_map.mp hq
    exact h
  | statement s => exact Stmt.inside_spots h hq

theorem Spot.Inside.reaches {p q : Spot ι} (h : p.Inside) (hq : p.Reaches q) : q.Inside := by
  induction hq with
  | refl => exact h
  | tail _ hnext ih => exact ih.next hnext

end LoxLang
