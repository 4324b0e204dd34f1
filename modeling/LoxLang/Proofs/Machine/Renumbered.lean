import LoxLang.Proofs.Machine.Evaluator
import LoxLang.Proofs.Machine.Pairing

/-! # Running a program on machines that differ in numbers

A program runs by places on two machines that are alike up to numbers, with clocks that show the same
from now on.  Both runs take the same steps, and what they make goes together; so they print the
same and end in the same way (`agree_runProgram`).  What one machine holds more than the other has
no part in it.  All four parts of the evaluators are proved together, level by level
(`agreeing_byPlace`). -/

namespace LoxLang

open Machine

/-- Two evaluators take the same steps with the same code in environments that go together. -/
structure Machine.Evaluator.Agreeing (clock clock' : Nat → Float) (E E' : Evaluator) : Prop where
  evaluate : ∀ {p : Pairing} {env env' : Env} (e : Expr Label), p.Envs env env' →
    Agree (renumbering clock clock') p (Value.Alike (renumbering clock clock'))
      (E.evaluate env e) (E'.evaluate env' e)
  call : ∀ {p : Pairing} {callee callee' : Callee} {as as' : List Value},
    callee.Alike (renumbering clock clock') p callee' →
    List.Forall₂ (Value.Alike (renumbering clock clock') p) as as' →
    Agree (renumbering clock clock') p (Value.Alike (renumbering clock clock'))
      (E.call callee as) (E'.call callee' as')
  invoke : ∀ {p : Pairing} {f f' : Closure} {as as' : List Value}, f.SameCode p f' →
    List.Forall₂ (Value.Alike (renumbering clock clock') p) as as' →
    Agree (renumbering clock clock') p (Value.Alike (renumbering clock clock'))
      (E.invoke f as) (E'.invoke f' as')
  execute : ∀ {p : Pairing} {env env' : Env} (s : Stmt Label), p.Envs env env' →
    Agree (renumbering clock clock') p (Completion.Alike (renumbering clock clock'))
      (E.execute env s) (E'.execute env' s)

namespace Machine.Evaluator

variable {clock clock' : Nat → Float}

/-- No level is left: both stop there. -/
theorem agreeing_exhausted : Agreeing clock clock' exhausted exhausted where
  evaluate _ _ := agree_fault .tooDeep
  call _ _ := agree_fault .tooDeep
  invoke _ _ := agree_fault .tooDeep
  execute _ _ := agree_fault .tooDeep

namespace Agreeing

variable {E E' : Evaluator} (h : Agreeing clock clock' E E') (rounds : Nat) {p : Pairing}
  {env env' : Env}
include h

theorem executeAll (ss : List (Stmt Label)) (henv : p.Envs env env') :
    Agree (renumbering clock clock') p (Completion.Alike (renumbering clock clock'))
      (runAll (fun s => E.execute env s) ss) (runAll (fun s => E'.execute env' s) ss) :=
  agree_runAll (List.forall₂_same.mpr fun s _ => h.execute s henv)

theorem evaluateOuter (e : Expr Label) (henv : p.Envs env env') :
    Agree (renumbering clock clock') p (Value.Alike (renumbering clock clock'))
      ((next ⟨.byPlace, clock, rounds⟩ E).evaluate env e)
      ((next ⟨.byPlace, clock', rounds⟩ E').evaluate env' e) := by
  cases e with
  | literal value => exact agree_value (.datum value)
  | nameRef ref | thisRef ref => exact Pairing.agree_read _ ref henv
  | assign ref value =>
    refine (h.evaluate value henv).bind fun q v v' hgrows hv => ?_
    exact (Pairing.agree_assign _ ref (henv.mono hgrows) hv).bind
      fun r _ _ hgrows' _ => agree_value (hv.mono hgrows')
  | unary op operand => exact agree_unary (h.evaluate operand henv) op
  | binary left op right => exact agree_binary (h.evaluate left henv) (h.evaluate right henv) op
  | logical left op right => exact agree_logical (h.evaluate left henv) (h.evaluate right henv) _
  | group inner => exact h.evaluate inner henv
  | call callee paren arguments =>
    exact agree_call (h.evaluate callee henv)
      (agree_mapM (List.forall₂_same.mpr fun a _ => h.evaluate a henv) Value.Alike.mono)
      (fun _ _ _ _ _ _ hc has => h.call hc has) paren
  | get object name => exact agree_getProperty Pairing.takes_renumbering (h.evaluate object henv) name
  | set object name value =>
    exact agree_setProperty (h.evaluate object henv) (h.evaluate value henv) name
  | superRef ref method =>
    exact agree_superMethod Pairing.takes_renumbering (Pairing.agree_parent _ ref henv) method
  | unknown form => exact agree_fault _

theorem callOuter {callee callee' : Callee} {as as' : List Value}
    (hcallee : callee.Alike (renumbering clock clock') p callee')
    (has : List.Forall₂ (Value.Alike (renumbering clock clock') p) as as') :
    Agree (renumbering clock clock') p (Value.Alike (renumbering clock clock'))
      ((next ⟨.byPlace, clock, rounds⟩ E).call callee as)
      ((next ⟨.byPlace, clock', rounds⟩ E').call callee' as') := by
  cases hcallee with
  | clock =>
    -- the first reading from now on, and those after it
    refine agree_readClock fun n n' hreadings => ⟨hreadings 0, fun i => ?_⟩
    have hnext := hreadings (1 + i)
    rwa [← Nat.add_assoc, ← Nat.add_assoc] at hnext
  | function hf => exact h.invoke hf.2 has
  | classOf hc =>
    exact agree_makeObject Pairing.takes_renumbering
      (fun q f f' hgrows hf => h.invoke hf.2 (has.imp fun _ _ hv => hv.mono hgrows)) hc

theorem invokeOuter {f f' : Closure} {as as' : List Value} (hf : f.SameCode p f')
    (has : List.Forall₂ (Value.Alike (renumbering clock clock') p) as as') :
    Agree (renumbering clock clock') p (Value.Alike (renumbering clock clock'))
      (invokeOuter E.execute f as) (invokeOuter E'.execute f' as') := by
  unfold Machine.invokeOuter
  rw [hf.declaration]
  refine (agree_matchArguments (fun name => name) (List.forall₂_same.mpr fun _ _ => rfl) has).bind
    fun q vars vars' hgrows hvars => ?_
  refine (Pairing.agree_enter (.ofList Function.injective_id hvars) (hf.env.mono hgrows)).bind
    fun r env env' hgrows' henv => ?_
  refine (h.executeAll f.declaration.body henv).bind fun s c c' hgrows'' hc => ?_
  have hf := ((hf.mono hgrows).mono hgrows').mono hgrows''
  exact agree_resultOf hf.isInitializer (Pairing.agree_getAt hf.env 0 "this") hc

theorem executeOuter (s : Stmt Label) (henv : p.Envs env env') :
    Agree (renumbering clock clock') p (Completion.Alike (renumbering clock clock'))
      ((next ⟨.byPlace, clock, rounds⟩ E).execute env s)
      ((next ⟨.byPlace, clock', rounds⟩ E').execute env' s) := by
  cases s with
  | expression value => exact (h.evaluate value henv).done
  | print value => exact agree_printed (h.evaluate value henv)
  | var name initial =>
    cases initial with
    | none => exact (Pairing.agree_define henv name.lexeme Value.alike_nil).done
    | some e =>
      refine (h.evaluate e henv).bind fun q v v' hgrows hv => ?_
      exact (Pairing.agree_define (henv.mono hgrows) name.lexeme hv).done
  | block body =>
    refine (Pairing.agree_enter (Bindings.matches_empty _ _) henv).bind
      fun q inner inner' _ hinner => ?_
    exact h.executeAll body hinner
  | ifThen condition body =>
    exact agree_branch (h.evaluate condition henv) (h.execute body henv)
      (agree_pure fun _ _ => .normal)
  | ifElse condition body other =>
    exact agree_branch (h.evaluate condition henv) (h.execute body henv) (h.execute other henv)
  | whileLoop condition body =>
    exact agree_runWhile (agree_test (h.evaluate condition henv)) (h.execute body henv) rounds
  | function f =>
    refine agree_freshId.bind fun q id id' hgrows hid => ?_
    have hfunction : Value.Alike (renumbering clock clock') q (.function ⟨id, f, env, false⟩)
        (.function ⟨id', f, env', false⟩) := .function ⟨hid, rfl, henv.mono hgrows, rfl⟩
    exact (Pairing.agree_define (henv.mono hgrows) f.name.lexeme hfunction).done
  | returnFrom keyword value =>
    cases value with
    | none => exact agree_pure fun _ _ => .returned Value.alike_nil
    | some e => exact agree_returned (h.evaluate e henv)
  | classOf name superclass methods =>
    cases superclass with
    | none => exact (Pairing.agree_makeClass henv name .none methods).done
    | some parent =>
      refine (h.evaluate (.nameRef parent) henv).bind fun q v v' hgrows hv => ?_
      cases hv with
      | classOf hc =>
        exact (Pairing.agree_makeClass (henv.mono hgrows) name (.some hc) methods).done
      | _ => exact agree_fail _ rfl
  | unknown form => exact agree_fault _

/-- What holds of the evaluators for the parts holds of those for the whole. -/
theorem next : Agreeing clock clock' (next ⟨.byPlace, clock, rounds⟩ E)
    (next ⟨.byPlace, clock', rounds⟩ E') where
  evaluate e henv := h.evaluateOuter rounds e henv
  call hcallee has := h.callOuter rounds hcallee has
  invoke hf has := h.invokeOuter hf has
  execute s henv := h.executeOuter rounds s henv

end Agreeing

/-- **The evaluators take the same steps**, however many levels are left. -/
theorem agreeing_byPlace (clock clock' : Nat → Float) (rounds depth : Nat) :
    Agreeing clock clock' (machine ⟨.byPlace, clock, rounds⟩ depth)
      (machine ⟨.byPlace, clock', rounds⟩ depth) := by
  induction depth with
  | zero =>
    rw [machine_zero, machine_zero]
    exact agreeing_exhausted
  | succ depth ih =>
    rw [machine_succ, machine_succ]
    exact ih.next rounds

end Machine.Evaluator

/-- **A program runs in the same way on machines that are alike up to numbers**, and they are alike
again afterwards. -/
theorem agree_runProgram (clock clock' : Nat → Float) (rounds depth : Nat)
    (program : List (Stmt Label)) {p : Pairing} {m m' : Machine}
    (hm : m.Alike (renumbering clock clock') p m') :
    Abreast (renumbering clock clock') p (fun _ _ _ => True)
      (runProgram ⟨.byPlace, clock, rounds⟩ depth program m)
      (runProgram ⟨.byPlace, clock', rounds⟩ depth program m') := by
  have hglobals : p.Envs globalEnv globalEnv :=
    .cons (Store.Renumbered.globals hm.store) .nil
  refine agree_forM (List.forall₂_same.mpr fun s _ => ?_) p m m' (.refl p) hm
  exact ((Evaluator.agreeing_byPlace clock clock' rounds depth).execute s hglobals).bind
    fun _ _ _ _ _ => agree_pure fun _ _ => trivial

end LoxLang
