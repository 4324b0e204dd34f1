import LoxLang.Machine.Evaluate
import LoxLang.Proofs.Computation
import Mathlib.Logic.Relation

/-! # Moments of a run

While a program runs, the evaluator begins one task after another, each on the machine as it is at
that moment: an expression or a statement in an environment, a call, the body of a function.
`Starts` says which tasks a task begins itself, and on which machine; there is one case for each
place where the evaluator calls itself, with what was done before it in the same task.  The moments
of a run are those that come about in this way from the statements of the program (`Begins`). -/

namespace LoxLang

open Machine

/-- What the evaluator sets out to do, with the levels of nesting that are left for it. -/
inductive Task
  | evaluate (depth : Nat) (env : Env) (e : Expr Label)
  | call (depth : Nat) (callee : Callee) (arguments : List Value)
  | invoke (depth : Nat) (f : Closure) (arguments : List Value)
  | execute (depth : Nat) (env : Env) (s : Stmt Label)

variable {ι : Type}

/-- The parts of an expression, in the order in which they are evaluated. -/
def Expr.operands : Expr ι → List (Expr ι)
  | .assign _ value => [value]
  | .unary _ operand => [operand]
  | .binary left _ right | .logical left _ right => [left, right]
  | .group inner => [inner]
  | .call callee _ arguments => callee :: arguments
  | .get object _ => [object]
  | .set object _ value => [object, value]
  | .literal _ | .nameRef _ | .thisRef _ | .superRef _ _ | .unknown _ => []

/-- Whether one more part of an expression is evaluated when those before it have the values. -/
def Expr.GoesOn : Expr ι → List Value → Prop
  | .logical _ op _, [left] => left.isTruthy ≠ (op.kind == .orWord)
  | .set _ _ _, [object] => ∃ id c, object = .object id c
  | _, _ => True

/-- The expression that is evaluated first when a statement is executed, unless it is a loop. -/
def Stmt.first? : Stmt ι → Option (Expr ι)
  | .expression e | .print e | .var _ (some e) | .returnFrom _ (some e) => some e
  | .ifThen condition _ | .ifElse condition _ _ => some condition
  | .classOf _ (some parent) _ => some (.nameRef parent)
  | _ => none

/-- The branch of an `if` that is taken. -/
def Stmt.branch? (truth : Bool) : Stmt ι → Option (Stmt ι)
  | .ifThen _ body => if truth then some body else none
  | .ifElse _ body other => if truth then some body else some other
  | _ => none

section
variable (S : Setting)

/-- One turn of a loop, which takes one from the rounds that are left: the condition holds, and the
body does not return. -/
def Turn (depth : Nat) (env : Env) (condition : Expr Label) (body : Stmt Label)
    (before after : Nat × Machine) : Prop :=
  ∃ v m₁, before.1 = after.1 + 1 ∧ evaluate S depth env condition before.2 = .ok v m₁ ∧
    v.isTruthy ∧ execute S depth env body m₁ = .ok .normal after.2

/-- A task begins another one on a machine. -/
inductive Starts : Task × Machine → Task × Machine → Prop
  | operand {depth : Nat} {env : Env} {e part : Expr Label} {earlier later : List (Expr Label)}
      {values : List Value} {m m' : Machine} (hparts : e.operands = earlier ++ part :: later)
      (hvalues : earlier.mapM (evaluate S depth env) m = .ok values m') (hgoes : e.GoesOn values) :
      Starts (.evaluate (depth + 1) env e, m) (.evaluate depth env part, m')
  | call {depth : Nat} {env : Env} {callee : Expr Label} {paren : Token}
      {arguments : List (Expr Label)} {v : Value} {called : Callee} {values : List Value}
      {m m₁ m' : Machine} (hcallee : evaluate S depth env callee m = .ok v m₁)
      (hvalues : arguments.mapM (evaluate S depth env) m₁ = .ok values m')
      (hcalled : v.callee? = some called) (hlength : values.length = called.arity) :
      Starts (.evaluate (depth + 1) env (.call callee paren arguments), m)
        (.call depth called values, m')
  | function {depth : Nat} {f : Closure} {values : List Value} {m : Machine} :
      Starts (.call (depth + 1) (.function f) values, m) (.invoke depth f values, m)
  | initializer {depth : Nat} {c : ClassValue} {method f : Closure} {object : Value}
      {values : List Value} {m m₁ m' : Machine} (hobject : Action.newObject c m = .ok object m₁)
      (hmethod : c.initializer? = some method)
      (htake : Action.takeMethod object method m₁ = .ok f m') :
      Starts (.call (depth + 1) (.classOf c) values, m) (.invoke depth f values, m')
  | body {depth : Nat} {f : Closure} {values : List Value} {vars : List (String × Value)}
      {env : Env} {earlier later : List (Stmt Label)} {s : Stmt Label} {m m₁ m' : Machine}
      (hvars : matchArguments f.declaration.params values = .ok vars)
      (henter : Action.enter (Bindings.ofList vars) f.env m = .ok env m₁)
      (hbody : f.declaration.body = earlier ++ s :: later)
      (hearlier : runAll (execute S depth env) earlier m₁ = .ok .normal m') :
      Starts (.invoke (depth + 1) f values, m) (.execute depth env s, m')
  | first {depth : Nat} {env : Env} {s : Stmt Label} {e : Expr Label} {m : Machine}
      (hfirst : s.first? = some e) :
      Starts (.execute (depth + 1) env s, m) (.evaluate depth env e, m)
  | branch {depth : Nat} {env : Env} {s taken : Stmt Label} {condition : Expr Label} {v : Value}
      {m m' : Machine} (hfirst : s.first? = some condition)
      (hcondition : evaluate S depth env condition m = .ok v m')
      (hbranch : s.branch? v.isTruthy = some taken) :
      Starts (.execute (depth + 1) env s, m) (.execute depth env taken, m')
  | block {depth : Nat} {env inner : Env} {earlier later : List (Stmt Label)} {s : Stmt Label}
      {m m₁ m' : Machine} (henter : Action.enter Bindings.empty env m = .ok inner m₁)
      (hearlier : runAll (execute S depth inner) earlier m₁ = .ok .normal m') :
      Starts (.execute (depth + 1) env (.block (earlier ++ s :: later)), m)
        (.execute depth inner s, m')
  | condition {depth : Nat} {env : Env} {condition : Expr Label} {body : Stmt Label}
      {m m' : Machine} {left : Nat} (hturns : Relation.ReflTransGen
        (Turn S depth env condition body) (S.rounds, m) (left + 1, m')) :
      Starts (.execute (depth + 1) env (.whileLoop condition body), m)
        (.evaluate depth env condition, m')
  | turn {depth : Nat} {env : Env} {condition : Expr Label} {body : Stmt Label} {v : Value}
      {m m₁ m' : Machine} {left : Nat} (hturns : Relation.ReflTransGen
        (Turn S depth env condition body) (S.rounds, m) (left + 1, m₁))
      (hcondition : evaluate S depth env condition m₁ = .ok v m') (htrue : v.isTruthy) :
      Starts (.execute (depth + 1) env (.whileLoop condition body), m)
        (.execute depth env body, m')

/-- A task is begun on a machine while a program runs. -/
def Begins (depth : Nat) (program : List (Stmt Label)) (start : Machine) (t : Task)
    (m : Machine) : Prop :=
  ∃ earlier s later m₁, program = earlier ++ s :: later ∧
    runProgram S depth earlier start = .ok () m₁ ∧
    Relation.ReflTransGen (Starts S) (.execute depth globalEnv s, m₁) (t, m)

/-- The function that a program calls without arguments in its last statement, and the machine on
which it does. -/
def lastCalled? (depth : Nat) (program : List (Stmt Label)) (m : Machine) :
    Option (Closure × Machine) :=
  match program.getLast? with
  | some (.expression (.call callee _ [])) =>
    match runProgram S (depth + 5) program.dropLast m with
    | .ok _ m₁ =>
      match evaluate S (depth + 3) globalEnv callee m₁ with
      | .ok (.function f) m₂ => some (f, m₂)
      | _ => none
    | _ => none
  | _ => none

variable {S} {depth : Nat}

/-- A call begins the body of the function. -/
theorem begins_lastCalled {program : List (Stmt Label)} {f : Closure} {m m' : Machine}
    (h : lastCalled? S depth program m = some (f, m')) (hparams : f.declaration.params = []) :
    Begins S (depth + 5) program m (.invoke (depth + 2) f []) m' := by
  unfold lastCalled? at h
  split at h
  · rename_i callee paren hlast
    split at h
    · rename_i m₁ hran
      split at h
      · rename_i f m₂ hcallee
        cases h
        have hcall : Starts S (.evaluate (depth + 4) globalEnv (.call callee paren []), m₁)
            (.call (depth + 3) (.function f) [], m') :=
          .call hcallee rfl rfl (congrArg List.length hparams).symm
        obtain ⟨earlier, rfl⟩ := List.getLast?_eq_some_iff.mp hlast
        rw [List.dropLast_concat] at hran
        exact ⟨earlier, _, [], m₁, rfl, hran, .tail (.tail (.single (.first rfl)) hcall) .function⟩
      · cases h
    · cases h
  · cases h

theorem runProgram_cons (s : Stmt Label) (ss : List (Stmt Label)) (m : Machine) :
    runProgram S depth (s :: ss) m = (do
      let _ ← execute S depth globalEnv s
      runProgram S depth ss) m :=
  congrFun (bind_assoc ..) m

/-- A moment of a run is one of its first statement, or of the run of the others. -/
theorem Begins.cons {s : Stmt Label} {ss : List (Stmt Label)} {t : Task}
    {m m' : Machine} (h : Begins S depth (s :: ss) m t m') :
    Relation.ReflTransGen (Starts S) (.execute depth globalEnv s, m) (t, m') ∨
      ∃ c m₁, execute S depth globalEnv s m = .ok c m₁ ∧ Begins S depth ss m₁ t m' := by
  obtain ⟨earlier, s', later, n, hprogram, hran, hstarts⟩ := h
  cases earlier with
  | nil =>
    cases hprogram
    cases hran
    exact .inl hstarts
  | cons first earlier =>
    cases hprogram
    rw [runProgram_cons] at hran
    obtain ⟨c, m₁, hc, hran⟩ := EStateM.bind_eq_ok.mp hran
    exact .inr ⟨c, m₁, hc, earlier, s', later, n, rfl, hran, hstarts⟩

theorem begins_of_starts {s : Stmt Label} {ss : List (Stmt Label)} {t : Task} {m m' : Machine}
    (h : Relation.ReflTransGen (Starts S) (.execute depth globalEnv s, m) (t, m')) :
    Begins S depth (s :: ss) m t m' := ⟨[], s, ss, m, rfl, rfl, h⟩

theorem begins_of_later {s : Stmt Label} {ss : List (Stmt Label)} {t : Task} {c : Completion}
    {m m' m₁ : Machine} (hc : execute S depth globalEnv s m = .ok c m₁)
    (h : Begins S depth ss m₁ t m') : Begins S depth (s :: ss) m t m' := by
  obtain ⟨earlier, s', later, n, rfl, hran, hstarts⟩ := h
  refine ⟨s :: earlier, s', later, n, rfl, ?_, hstarts⟩
  rw [runProgram_cons, EStateM.bind_ok hc]
  exact hran

/-- A program is executed to its end, or up to a statement that does not complete. -/
theorem runProgram_cases (S : Setting) (depth : Nat) (program : List (Stmt Label)) (m : Machine) :
    (∃ m', runProgram S depth program m = .ok () m') ∨
      ∃ earlier s later m₁ h m', program = earlier ++ s :: later ∧
        runProgram S depth earlier m = .ok () m₁ ∧
        execute S depth globalEnv s m₁ = .error h m' ∧
        runProgram S depth program m = .error h m' := by
  induction program generalizing m with
  | nil => exact .inl ⟨m, rfl⟩
  | cons first rest ih =>
    cases hc : execute S depth globalEnv first m with
    | error h m' =>
      refine .inr ⟨[], first, rest, m, h, m', rfl, rfl, hc, ?_⟩
      rw [runProgram_cons, EStateM.bind_error hc]
    | ok c m₁ =>
      have hrest : ∀ ss, runProgram S depth (first :: ss) m = runProgram S depth ss m₁ := fun ss => by
        rw [runProgram_cons, EStateM.bind_ok hc]
      rcases ih m₁ with ⟨m', hran⟩ | ⟨earlier, s, later, m₂, h, m', rfl, hran, hhalt, hend⟩
      · exact .inl ⟨m', (hrest rest).trans hran⟩
      · exact .inr ⟨first :: earlier, s, later, m₂, h, m', rfl, (hrest _).trans hran, hhalt,
          (hrest _).trans hend⟩

end

end LoxLang
