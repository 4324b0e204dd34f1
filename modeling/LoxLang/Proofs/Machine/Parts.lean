import LoxLang.Proofs.Machine.Moments

/-! # Part by part

An expression is evaluated by evaluating its parts in their order, unless what is known so far ends
it early, and then doing with their values what its form asks for (`evaluate_eq`).  A statement that
begins with an expression goes on with the value of that (`execute_eq`).  So for each part there is
one action that is what is left to do after it. -/

namespace LoxLang

open Machine

section
variable (S : Setting) (depth : Nat) (env : Env)

/-! ## Expressions -/

/-- How an expression ends before its next part is evaluated, if it does. -/
def Expr.early? : Expr Label → List Value → Option (Action Value)
  | .logical _ op _, [left] =>
    if left.isTruthy == (op.kind == .orWord) then some (pure left) else none
  | .set _ name _, [object] =>
    match object with
    | .object _ _ => none
    | _ => some (Action.fail .fieldOfNoObject name)
  | _, _ => none

/-- What is done with the values of all parts of an expression. -/
def Expr.finish : Expr Label → List Value → Action Value
  | .literal value, [] => pure (.datum value)
  | .nameRef ref, [] | .thisRef ref, [] => S.access.read env ref
  | .superRef ref method, [] => Action.superMethod S.access env ref method
  | .assign ref _, [value] => do
    S.access.assign env ref value
    return value
  | .unary op _, [operand] => Action.ofExcept (operand.unary op)
  | .binary _ op _, [left, right] => Action.ofExcept (left.binary op right)
  | .logical _ _ _, [_, right] => pure right
  | .group _, [value] => pure value
  | .call _ paren _, callee :: arguments =>
    match callee.callee? with
    | none => Action.fail .notCallable paren
    | some callee =>
      if arguments.length = callee.arity then Machine.call S depth callee arguments
      else Action.fail (.wrongArgumentCount callee.arity arguments.length) paren
  | .get _ name, [object] =>
    match object with
    | .object id c => Action.property id c name
    | _ => Action.fail .propertyOfNoObject name
  | .set _ name _, [.object id _, value] => do
    Action.setField id name.lexeme value
    return value
  | .unknown form, _ => throw (.fault (.unknownExpression form))
  | _, _ => throw (.fault .misplacedSuper)

/-- What is left to do when the first parts of an expression have values. -/
def Expr.rest (e : Expr Label) : List (Expr Label) → List Value → Action Value
  | [], values => e.finish S depth env values
  | part :: parts, values =>
    match e.early? values with
    | some ended => ended
    | none => do
      let value ← evaluate S depth env part
      e.rest parts (values ++ [value])

theorem Expr.goesOn_iff {e : Expr Label} {values : List Value} :
    e.GoesOn values ↔ e.early? values = none := by
  unfold GoesOn early?
  split
  · simp
  · rename_i object
    cases object <;> simp
  · rename_i hlogical hset
    refine iff_of_true trivial ?_
    split
    · exact absurd rfl (hlogical _ _ _ _ rfl)
    · exact absurd rfl (hset _ _ _ _ rfl)
    · rfl

theorem Expr.rest_cons {e part : Expr Label} {values : List Value} (hgoes : e.GoesOn values)
    (parts : List (Expr Label)) :
    e.rest S depth env (part :: parts) values =
      evaluate S depth env part >>= fun value => e.rest S depth env parts (values ++ [value]) := by
  rw [rest, goesOn_iff.mp hgoes]

/-- Several parts of an expression are evaluated before it goes on with the others. -/
theorem Expr.rest_mapM {e : Expr Label} {earlier : List (Expr Label)} (parts : List (Expr Label))
    {values : List Value} (hgoes : ∀ more, more.length < earlier.length → e.GoesOn (values ++ more)) :
    e.rest S depth env (earlier ++ parts) values =
      earlier.mapM (evaluate S depth env) >>= fun more =>
        e.rest S depth env parts (values ++ more) := by
  induction earlier generalizing values with
  | nil => simp
  | cons part earlier ih =>
    have hnow : e.GoesOn values := by simpa using hgoes [] (by simp)
    rw [List.cons_append, rest_cons S depth env hnow, List.mapM_cons]
    simp only [bind_assoc, pure_bind]
    refine bind_congr fun v => ?_
    rw [ih fun more hmore => by simpa using hgoes (v :: more) (by simpa using hmore)]
    simp

/-- **An expression is evaluated part by part.** -/
theorem evaluate_eq (e : Expr Label) :
    evaluate S (depth + 1) env e = e.rest S depth env e.operands [] := by
  unfold evaluate evaluateOuter
  cases e with
  | logical left op right =>
    refine bind_congr fun v => ?_
    simp only [Expr.rest, Expr.early?, List.nil_append]
    split
    · rfl
    · exact (bind_pure _).symm
  | set object name value =>
    refine bind_congr fun v => ?_
    cases v <;> rfl
  | call callee paren arguments =>
    rw [Expr.operands, Expr.rest_cons S depth env (by trivial)]
    refine bind_congr fun v => ?_
    have h : (Expr.call callee paren arguments).rest S depth env (arguments ++ []) [v] = _ :=
      Expr.rest_mapM S depth env [] fun _ _ => trivial
    rw [List.append_nil] at h
    rw [List.nil_append, h]
    rfl
  | group inner => exact (bind_pure _).symm
  | get object name =>
    refine bind_congr fun v => ?_
    cases v <;> rfl
  | _ => rfl

/-! ## Statements -/

/-- How a statement goes on that begins with an expression, when that has a value. -/
def Stmt.goOn : Stmt Label → Value → Action Completion
  | .expression _, _ => return .normal
  | .print _, v => do
    Action.print v
    return .normal
  | .var name _, v => do
    Action.define env name.lexeme v
    return .normal
  | .ifThen _ body, v => if v.isTruthy then execute S depth env body else return .normal
  | .ifElse _ body other, v =>
    if v.isTruthy then execute S depth env body else execute S depth env other
  | .returnFrom _ _, v => return .returned v
  | .classOf name (some parent) methods, v =>
    match v with
    | .classOf c => do
      makeClass env name (some c) methods
      return .normal
    | _ => Action.fail .superclassNotClass parent.name
  | _, _ => return .normal

/-- **A statement that begins with an expression goes on with its value.** -/
theorem execute_eq {s : Stmt Label} {e : Expr Label} (hfirst : s.first? = some e) :
    execute S (depth + 1) env s = evaluate S depth env e >>= s.goOn S depth env := by
  unfold execute executeOuter
  cases s with
  | var name initial => cases initial <;> cases hfirst; rfl
  | returnFrom keyword value => cases value <;> cases hfirst; rfl
  | classOf name superclass methods =>
    cases superclass with
    | none => cases hfirst
    | some parent =>
      cases hfirst
      refine bind_congr fun v => ?_
      cases v <;> rfl
  | expression | print | ifThen | ifElse => cases hfirst; rfl
  | _ => cases hfirst

end

end LoxLang
