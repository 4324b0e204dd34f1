import LoxLang.Syntax

/-! # Induction on programs

Arguments, blocks and bodies are lists of expressions and statements.  The principles here give,
for each such list, the hypothesis for all its members; with them a proof by induction on an
expression or a statement has one case for each of its forms. -/

namespace LoxLang

variable {ι : Type}

namespace Expr

section
variable {motive : Expr ι → Prop}
  (literal : ∀ value, motive (.literal value))
  (nameRef : ∀ ref, motive (.nameRef ref))
  (assign : ∀ ref value, motive value → motive (.assign ref value))
  (unary : ∀ op operand, motive operand → motive (.unary op operand))
  (binary : ∀ left op right, motive left → motive right → motive (.binary left op right))
  (logical : ∀ left op right, motive left → motive right → motive (.logical left op right))
  (group : ∀ inner, motive inner → motive (.group inner))
  (call : ∀ callee paren arguments, motive callee → (∀ a ∈ arguments, motive a) →
    motive (.call callee paren arguments))
  (get : ∀ object name, motive object → motive (.get object name))
  (set : ∀ object name value, motive object → motive value → motive (.set object name value))
  (thisRef : ∀ ref, motive (.thisRef ref))
  (superRef : ∀ ref method, motive (.superRef ref method))
  (unknown : ∀ form, motive (.unknown form))

include literal nameRef assign unary binary logical group call get set thisRef superRef unknown

@[elab_as_elim]
theorem inductionOn (e : Expr ι) : motive e :=
  Expr.rec (motive_1 := motive) (motive_2 := fun es => ∀ e ∈ es, motive e)
    literal nameRef assign unary binary logical group call get set thisRef superRef unknown
    (List.forall_mem_nil _) (fun _ _ he hes => List.forall_mem_cons.mpr ⟨he, hes⟩) e

end

end Expr

namespace Stmt

section
variable {motive : Stmt ι → Prop}
  (expression : ∀ value, motive (.expression value))
  (print : ∀ value, motive (.print value))
  (var : ∀ name initial, motive (.var name initial))
  (block : ∀ body, (∀ s ∈ body, motive s) → motive (.block body))
  (ifThen : ∀ condition body, motive body → motive (.ifThen condition body))
  (ifElse : ∀ condition body other, motive body → motive other →
    motive (.ifElse condition body other))
  (whileLoop : ∀ condition body, motive body → motive (.whileLoop condition body))
  (function : ∀ declaration : Function ι, (∀ s ∈ declaration.body, motive s) →
    motive (.function declaration))
  (returnFrom : ∀ keyword value, motive (.returnFrom keyword value))
  (classOf : ∀ name superclass (methods : List (Function ι)),
    (∀ m ∈ methods, ∀ s ∈ m.body, motive s) → motive (.classOf name superclass methods))
  (unknown : ∀ form, motive (.unknown form))

include expression print var block ifThen ifElse whileLoop function returnFrom classOf unknown

@[elab_as_elim]
theorem inductionOn (s : Stmt ι) : motive s :=
  Stmt.rec (motive_1 := motive) (motive_2 := fun ss => ∀ s ∈ ss, motive s)
    (motive_3 := fun f => ∀ s ∈ f.body, motive s)
    (motive_4 := fun ms => ∀ m ∈ ms, ∀ s ∈ m.body, motive s)
    expression print var block ifThen ifElse whileLoop function returnFrom classOf unknown
    (List.forall_mem_nil _) (fun _ _ hs hss => List.forall_mem_cons.mpr ⟨hs, hss⟩)
    (fun _ _ _ hbody => hbody)
    (List.forall_mem_nil _) (fun _ _ hm hms => List.forall_mem_cons.mpr ⟨hm, hms⟩) s

end

end Stmt

end LoxLang
