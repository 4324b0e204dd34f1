import LoxLang.Proofs.Computation
import LoxLang.Proofs.Machine.Evaluator

/-! # The limit of loops

A loop that goes round too often is stopped, which says nothing of what it would have come to.  A
run that is not stopped so has kept below the limit in each of its loops, and does the same under
every limit that is higher (`prolongs_runProgram`).  The limit is thus only a bound to a run, and
has no part in what comes of one that ends. -/

namespace LoxLang

open Machine

/-- The second action does what the first does, unless the first is stopped because a loop goes
round too often. -/
def Action.Prolongs {α : Type} (x y : Action α) : Prop :=
  ∀ m, (∃ m', x m = .error (.fault .outOfRounds) m') ∨ y m = x m

namespace Action.Prolongs

section
variable {α β : Type} {x y : Action α} {f g : α → Action β}

theorem refl (x : Action α) : Prolongs x x := fun _ => .inr rfl

theorem bind (h : Prolongs x y) (hf : ∀ a, Prolongs (f a) (g a)) :
    Prolongs (x >>= f) (y >>= g) := by
  intro m
  rcases h m with ⟨m', hout⟩ | hsame
  · exact .inl ⟨m', EStateM.bind_error hout⟩
  · rw [EStateM.bind_apply, EStateM.bind_apply, hsame]
    cases x m with
    | ok a m' => exact hf a m'
    | error halt m' => exact .inr rfl

/-- Only the second part is prolonged. -/
theorem bind_right (x : Action α) (hf : ∀ a, Prolongs (f a) (g a)) :
    Prolongs (x >>= f) (x >>= g) := (refl x).bind hf

/-- Only the first part is prolonged. -/
theorem bind_left (h : Prolongs x y) (f : α → Action β) : Prolongs (x >>= f) (y >>= f) :=
  h.bind fun a => refl (f a)

theorem mapM {f g : α → Action β} (l : List α) (h : ∀ a, Prolongs (f a) (g a)) :
    Prolongs (l.mapM f) (l.mapM g) := by
  induction l with
  | nil => exact refl _
  | cons a l ih =>
    rw [List.mapM_cons, List.mapM_cons]
    exact (h a).bind fun b => ih.bind_left _

end

variable {test test' : Action Bool} {body body' : Action Completion}

theorem runAll {σ : Type} {run run' : σ → Action Completion} (ss : List σ)
    (h : ∀ s, Prolongs (run s) (run' s)) : Prolongs (runAll run ss) (Machine.runAll run' ss) := by
  induction ss with
  | nil => exact refl _
  | cons s ss ih =>
    refine (h s).bind fun c => ?_
    cases c with
    | normal => exact ih
    | returned value => exact refl _

/-- A loop that has ended goes round as often under a higher limit. -/
theorem runWhile (htest : Prolongs test test') (hbody : Prolongs body body') {rounds rounds' : Nat}
    (hrounds : rounds ≤ rounds') :
    Prolongs (runWhile test body rounds) (Machine.runWhile test' body' rounds') := by
  induction rounds generalizing rounds' with
  | zero => exact fun m => .inl ⟨m, rfl⟩
  | succ rounds ih =>
    cases rounds' with
    | zero => exact absurd hrounds (Nat.not_succ_le_zero rounds)
    | succ rounds' =>
      refine htest.bind fun b => ?_
      cases b with
      | false => exact refl _
      | true =>
        refine hbody.bind fun c => ?_
        cases c with
        | normal => exact ih (Nat.le_of_succ_le_succ hrounds)
        | returned value => exact refl _

end Action.Prolongs

/-- One evaluator does what the other does, unless the other is stopped because a loop goes round
too often. -/
structure Machine.Evaluator.Prolongs (E E' : Evaluator) : Prop where
  evaluate : ∀ env e, Action.Prolongs (E.evaluate env e) (E'.evaluate env e)
  call : ∀ callee as, Action.Prolongs (E.call callee as) (E'.call callee as)
  invoke : ∀ f as, Action.Prolongs (E.invoke f as) (E'.invoke f as)
  execute : ∀ env s, Action.Prolongs (E.execute env s) (E'.execute env s)

namespace Machine.Evaluator.Prolongs

variable {E E' : Evaluator} (h : Prolongs E E') (access : Access) (clock : Nat → Float)
  {rounds rounds' : Nat}

section
include h

theorem evaluateOuter (env : Env) (e : Expr Label) :
    Action.Prolongs ((next ⟨access, clock, rounds⟩ E).evaluate env e)
      ((next ⟨access, clock, rounds'⟩ E').evaluate env e) := by
  cases e with
  | literal _ | nameRef _ | thisRef _ | superRef _ _ | unknown _ => exact .refl _
  | assign ref value => exact (h.evaluate env value).bind_left _
  | unary op operand => exact (h.evaluate env operand).bind_left _
  | binary left op right =>
    exact (h.evaluate env left).bind fun _ => (h.evaluate env right).bind_left _
  | logical left op right =>
    refine (h.evaluate env left).bind fun v => ?_
    split
    · exact .refl _
    · exact h.evaluate env right
  | group inner => exact h.evaluate env inner
  | call callee paren arguments =>
    refine (h.evaluate env callee).bind fun v => ?_
    refine (Action.Prolongs.mapM arguments (h.evaluate env)).bind fun as => ?_
    cases v.callee? with
    | none => exact .refl _
    | some callee =>
      dsimp only
      split
      · exact h.call callee as
      · exact .refl _
  | get object name => exact (h.evaluate env object).bind_left _
  | set object name value =>
    refine (h.evaluate env object).bind fun v => ?_
    cases v with
    | object id c => exact (h.evaluate env value).bind_left _
    | _ => exact .refl _

theorem callOuter (callee : Callee) (as : List Value) :
    Action.Prolongs ((next ⟨access, clock, rounds⟩ E).call callee as)
      ((next ⟨access, clock, rounds'⟩ E').call callee as) := by
  cases callee with
  | clock => exact .refl _
  | function f => exact h.invoke f as
  | classOf c =>
    refine .bind_right _ fun object => ?_
    cases c.initializer? with
    | none => exact .refl _
    | some method => exact .bind_right _ fun f => (h.invoke f as).bind_left _

theorem invokeOuter (f : Closure) (as : List Value) :
    Action.Prolongs (invokeOuter E.execute f as) (Machine.invokeOuter E'.execute f as) :=
  .bind_right _ fun _ => .bind_right _ fun env =>
    (Action.Prolongs.runAll f.declaration.body (h.execute env)).bind_left _

theorem executeOuter (hrounds : rounds ≤ rounds') (env : Env) (s : Stmt Label) :
    Action.Prolongs ((next ⟨access, clock, rounds⟩ E).execute env s)
      ((next ⟨access, clock, rounds'⟩ E').execute env s) := by
  cases s with
  | expression value | print value => exact (h.evaluate env value).bind_left _
  | var name initial =>
    cases initial with
    | none => exact .refl _
    | some e => exact (h.evaluate env e).bind_left _
  | block body => exact .bind_right _ fun inner => .runAll body (h.execute inner)
  | ifThen condition body =>
    refine (h.evaluate env condition).bind fun v => ?_
    split
    · exact h.execute env body
    · exact .refl _
  | ifElse condition body other =>
    refine (h.evaluate env condition).bind fun v => ?_
    split
    · exact h.execute env body
    · exact h.execute env other
  | whileLoop condition body =>
    exact .runWhile ((h.evaluate env condition).bind_left _) (h.execute env body) hrounds
  | function f => exact .refl _
  | returnFrom keyword value =>
    cases value with
    | none => exact .refl _
    | some e => exact (h.evaluate env e).bind_left _
  | classOf name superclass methods =>
    cases superclass with
    | none => exact .refl _
    | some parent => exact (h.evaluate env (.nameRef parent)).bind_left _
  | unknown form => exact .refl _

/-- What holds of the evaluators for the parts holds of those for the whole. -/
theorem next (hrounds : rounds ≤ rounds') :
    Prolongs (next ⟨access, clock, rounds⟩ E) (Evaluator.next ⟨access, clock, rounds'⟩ E') where
  evaluate := h.evaluateOuter access clock
  call := h.callOuter access clock
  invoke := h.invokeOuter
  execute := h.executeOuter access clock hrounds

end

/-- **A higher limit of loops changes nothing** but for loops that go round too often for the lower
one. -/
theorem machine (hrounds : rounds ≤ rounds') (depth : Nat) :
    Prolongs (machine ⟨access, clock, rounds⟩ depth)
      (Evaluator.machine ⟨access, clock, rounds'⟩ depth) := by
  induction depth with
  | zero => exact ⟨fun _ _ => .refl _, fun _ _ => .refl _, fun _ _ => .refl _, fun _ _ => .refl _⟩
  | succ depth ih => exact ih.next access clock hrounds

end Machine.Evaluator.Prolongs

theorem prolongs_runProgram (access : Access) (clock : Nat → Float) {rounds rounds' : Nat}
    (hrounds : rounds ≤ rounds') (depth : Nat) (program : List (Stmt Label)) :
    Action.Prolongs (runProgram ⟨access, clock, rounds⟩ depth program)
      (runProgram ⟨access, clock, rounds'⟩ depth program) := by
  have hexecute := (Evaluator.Prolongs.machine access clock hrounds depth).execute globalEnv
  unfold runProgram
  induction program with
  | nil => exact .refl _
  | cons s program ih => exact ((hexecute s).bind_left _).bind fun _ => ih

end LoxLang
