import LoxLang.Syntax

/-! # Labels of references

Two references may look the same and yet mean different variables, so what is known about a
reference is kept under a label. `Program.label` numbers the references of a program from a given
number upward and says which number is the next free one: programs labelled one after another
from where the last one ended never share a label. -/

namespace LoxLang

/-- The labels of references. -/
abbrev Label := Nat

variable {ι : Type}

/-- Gives a reference the label `next`. -/
def Ref.relabel (next : Label) (ref : Ref ι) : Ref Label × Label := (⟨next, ref.name⟩, next + 1)

mutual

/-- Numbers the references of an expression from `next` upward. -/
def Expr.relabel (next : Label) : Expr ι → Expr Label × Label
  | .literal value => (.literal value, next)
  | .nameRef ref =>
    let (ref, next) := ref.relabel next
    (.nameRef ref, next)
  | .assign ref value =>
    let (ref, next) := ref.relabel next
    let (value, next) := value.relabel next
    (.assign ref value, next)
  | .unary op operand =>
    let (operand, next) := operand.relabel next
    (.unary op operand, next)
  | .binary left op right =>
    let (left, next) := left.relabel next
    let (right, next) := right.relabel next
    (.binary left op right, next)
  | .logical left op right =>
    let (left, next) := left.relabel next
    let (right, next) := right.relabel next
    (.logical left op right, next)
  | .group inner =>
    let (inner, next) := inner.relabel next
    (.group inner, next)
  | .call callee paren arguments =>
    let (callee, next) := callee.relabel next
    let (arguments, next) := Expr.relabelAll next arguments
    (.call callee paren arguments, next)
  | .get object name =>
    let (object, next) := object.relabel next
    (.get object name, next)
  | .set object name value =>
    let (object, next) := object.relabel next
    let (value, next) := value.relabel next
    (.set object name value, next)
  | .thisRef ref =>
    let (ref, next) := ref.relabel next
    (.thisRef ref, next)
  | .superRef ref method =>
    let (ref, next) := ref.relabel next
    (.superRef ref method, next)
  | .unknown form => (.unknown form, next)

/-- Numbers the references of expressions in their order. -/
def Expr.relabelAll (next : Label) : List (Expr ι) → List (Expr Label) × Label
  | [] => ([], next)
  | e :: es =>
    let (e, next) := e.relabel next
    let (es, next) := Expr.relabelAll next es
    (e :: es, next)

end

/-- Numbers the references of an expression that may be absent. -/
def Expr.relabelOption (next : Label) : Option (Expr ι) → Option (Expr Label) × Label
  | none => (none, next)
  | some e =>
    let (e, next) := e.relabel next
    (some e, next)

mutual

/-- Numbers the references of a statement from `next` upward. -/
def Stmt.relabel (next : Label) : Stmt ι → Stmt Label × Label
  | .expression value =>
    let (value, next) := value.relabel next
    (.expression value, next)
  | .print value =>
    let (value, next) := value.relabel next
    (.print value, next)
  | .var name initial =>
    let (initial, next) := Expr.relabelOption next initial
    (.var name initial, next)
  | .block body =>
    let (body, next) := Stmt.relabelAll next body
    (.block body, next)
  | .ifThen condition body =>
    let (condition, next) := condition.relabel next
    let (body, next) := body.relabel next
    (.ifThen condition body, next)
  | .ifElse condition body other =>
    let (condition, next) := condition.relabel next
    let (body, next) := body.relabel next
    let (other, next) := other.relabel next
    (.ifElse condition body other, next)
  | .whileLoop condition body =>
    let (condition, next) := condition.relabel next
    let (body, next) := body.relabel next
    (.whileLoop condition body, next)
  | .function declaration =>
    let (declaration, next) := Function.relabel next declaration
    (.function declaration, next)
  | .returnFrom keyword value =>
    let (value, next) := Expr.relabelOption next value
    (.returnFrom keyword value, next)
  | .classOf name none methods =>
    let (methods, next) := Function.relabelAll next methods
    (.classOf name none methods, next)
  | .classOf name (some superclass) methods =>
    let (superclass, next) := superclass.relabel next
    let (methods, next) := Function.relabelAll next methods
    (.classOf name (some superclass) methods, next)
  | .unknown form => (.unknown form, next)

/-- Numbers the references of statements in their order. -/
def Stmt.relabelAll (next : Label) : List (Stmt ι) → List (Stmt Label) × Label
  | [] => ([], next)
  | s :: ss =>
    let (s, next) := s.relabel next
    let (ss, next) := Stmt.relabelAll next ss
    (s :: ss, next)

/-- Numbers the references of a function. -/
def Function.relabel (next : Label) : Function ι → Function Label × Label
  | ⟨name, params, body⟩ =>
    let (body, next) := Stmt.relabelAll next body
    (⟨name, params, body⟩, next)

/-- Numbers the references of functions in their order. -/
def Function.relabelAll (next : Label) : List (Function ι) → List (Function Label) × Label
  | [] => ([], next)
  | f :: fs =>
    let (f, next) := Function.relabel next f
    let (fs, next) := Function.relabelAll next fs
    (f :: fs, next)

end

end LoxLang
