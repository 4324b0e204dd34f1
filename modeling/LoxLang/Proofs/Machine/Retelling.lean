import LoxLang.Machine.Evaluate
import LoxLang.Proofs.Machine.Follows

/-! # Retelling a run

A changed program does on a changed machine what it does without the change, if references that are
changed lead where the others do.  So the lines on which a program stands are seen in its runtime
errors only, the labels of its references only in where these lead, and what was printed before a
run stays in front of what the run prints.  All four parts of the evaluator are proved together, by
induction on the levels of nesting that are left (`follows`). -/

namespace LoxLang

open LoxLang.Action Machine

variable {α β σ τ : Type} {χ : Change} {before : String}

/-- The same completion, changed. -/
def Machine.Completion.change (χ : Change) : Completion → Completion
  | normal => .normal
  | returned v => .returned (v.change χ)

/-! ## Sequences -/

theorem follows_runAll {change : σ → τ} {run : σ → Action Completion} {run' : τ → Action Completion}
    {ss : List σ} (h : ∀ s ∈ ss, Follows χ before (Completion.change χ) (run s) (run' (change s))) :
    Follows χ before (Completion.change χ) (runAll run ss) (runAll run' (ss.map change)) := by
  induction ss with
  | nil => exact follows_pure Completion.normal
  | cons s ss ih =>
    refine (h s List.mem_cons_self).bind fun c => ?_
    cases c with
    | normal => exact ih fun s' hs' => h s' (List.mem_cons_of_mem s hs')
    | returned v => exact follows_pure (Completion.returned v)

theorem follows_runWhile {test test' : Action Bool} {body body' : Action Completion}
    (htest : Follows χ before (fun b => b) test test')
    (hbody : Follows χ before (Completion.change χ) body body') (rounds : Nat) :
    Follows χ before (Completion.change χ) (runWhile test body rounds)
      (runWhile test' body' rounds) := by
  induction rounds with
  | zero => exact follows_fault _
  | succ rounds ih =>
    refine htest.bind fun b => ?_
    cases b with
    | false => exact follows_pure Completion.normal
    | true =>
      refine hbody.bind fun c => ?_
      cases c with
      | normal => exact ih
      | returned v => exact follows_pure (Completion.returned v)

/-! ## Functions and classes -/

theorem follows_resultOf (f : Closure) (c : Completion) :
    Follows χ before (Value.change χ) (resultOf f c) (resultOf (f.change χ) (c.change χ)) := by
  unfold resultOf
  by_cases h : f.isInitializer
  · have h' : (f.change χ).isInitializer := h
    rw [if_pos h, if_pos h']
    exact follows_getAt f.env 0 "this"
  · have h' : ¬(f.change χ).isInitializer := h
    rw [if_neg h, if_neg h']
    cases c with
    | normal => exact follows_pure Value.nil
    | returned v => exact follows_pure v

section
variable (hχ : χ.Lawful)
include hχ

theorem matchArguments_map (params : List Token) (arguments : List Value) :
    matchArguments (params.map χ.token) (arguments.map (Value.change χ)) =
      (matchArguments params arguments).map (List.map fun p => (p.1, p.2.change χ)) := by
  induction params generalizing arguments with
  | nil => rfl
  | cons p params ih =>
    cases arguments with
    | nil =>
      rw [List.map_cons, List.map_nil, matchArguments, matchArguments, hχ.lexeme]
      rfl
    | cons a arguments =>
      rw [List.map_cons, List.map_cons, matchArguments, matchArguments, ih, hχ.lexeme]
      cases matchArguments params arguments <;> rfl

theorem follows_makeMethods (env : Env) (ms : List (Function Label)) :
    Follows χ before (Bindings.change χ.prunes (Closure.change χ)) (makeMethods env ms)
      (makeMethods env (ms.map (Function.map χ.label χ.token))) := by
  unfold makeMethods
  refine Follows.bind (follows_mapM (p := fun p : String × Closure => (p.1, p.2.change χ))
    fun m _ => follows_freshId.bind fun n => ?_) fun pairs => ?_
  · have hname : (Function.map χ.label χ.token m).name.lexeme = m.name.lexeme := by
      rw [Function.map_eq, hχ.lexeme]
    rw [FunctionOf.isInitializer_map hχ, hname]
    exact follows_pure (m.name.lexeme, (⟨n, m, env, m.isInitializer⟩ : Closure))
  · rw [← Bindings.change_ofList χ.prunes]
    exact follows_pure (Bindings.ofList pairs)

/-- Making a class is followed by making it changed. -/
theorem follows_makeClass (env : Env) (name : Token) (parent : Option ClassValue)
    (methods : List (Function Label)) :
    Follows χ before (fun a => a) (makeClass env name parent methods)
      (makeClass env (χ.token name) (parent.map (ClassValue.change χ))
        (methods.map (Function.map χ.label χ.token))) := by
  have hrest : ∀ methodEnv above, Follows χ before (fun a => a)
      (do
        let methods ← makeMethods methodEnv methods
        let own : ClassLevel := ⟨← Action.freshId, name.lexeme, methods⟩
        Action.define env name.lexeme (.classOf ⟨own, above⟩))
      (do
        let methods ← makeMethods methodEnv (methods.map (Function.map χ.label χ.token))
        let own : ClassLevel := ⟨← Action.freshId, (χ.token name).lexeme, methods⟩
        Action.define env (χ.token name).lexeme (.classOf ⟨own, above.map (ClassLevel.change χ)⟩)) := by
    intro methodEnv above
    rw [hχ.lexeme]
    refine (follows_makeMethods hχ methodEnv methods).bind fun ms => ?_
    refine follows_freshId.bind fun n => ?_
    exact follows_define env name.lexeme (.classOf ⟨⟨n, name.lexeme, ms⟩, above⟩)
  unfold makeClass
  cases parent with
  | none => exact hrest env []
  | some c =>
    exact (follows_enterWord "super" (.classOf c) env).bind
      fun methodEnv => hrest methodEnv c.lineage

end

/-! ## The parts of the evaluator -/

/-- Evaluation with `depth` levels left follows itself. -/
def EvaluationFollows (χ : Change) (before : String) (S S' : Setting)
    (depth : Nat) : Prop :=
  ∀ (env : Env) (e : Expr Label),
    Follows χ before (Value.change χ) (evaluate S depth env e)
      (evaluate S' depth env (e.map χ.label χ.token))

/-- Calls with `depth` levels left follow themselves. -/
def CallsFollow (χ : Change) (before : String) (S S' : Setting)
    (depth : Nat) : Prop :=
  ∀ (callee : Callee) (arguments : List Value),
    Follows χ before (Value.change χ) (call S depth callee arguments)
      (call S' depth (callee.change χ) (arguments.map (Value.change χ)))

/-- Executions of functions with `depth` levels left follow themselves. -/
def InvocationFollows (χ : Change) (before : String) (S S' : Setting)
    (depth : Nat) : Prop :=
  ∀ (f : Closure) (arguments : List Value),
    Follows χ before (Value.change χ) (invoke S depth f arguments)
      (invoke S' depth (f.change χ) (arguments.map (Value.change χ)))

/-- Executions of statements with `depth` levels left follow themselves. -/
def ExecutionFollows (χ : Change) (before : String) (S S' : Setting)
    (depth : Nat) : Prop :=
  ∀ (env : Env) (s : Stmt Label),
    Follows χ before (Completion.change χ) (execute S depth env s)
      (execute S' depth env (s.map χ.label χ.token))

section
variable (hχ : χ.Lawful)
  {S S' : Setting} (hS : S.Follows χ before S') {depth : Nat}

include hχ hS in
theorem evaluationFollows_succ
    (heval : EvaluationFollows χ before S S' depth)
    (hcall : CallsFollow χ before S S' depth) :
    EvaluationFollows χ before S S' (depth + 1) := by
  intro env e
  cases e with
  | literal value => exact follows_pure (Value.datum value)
  | nameRef ref | thisRef ref => exact hS.access.read env ref
  | assign ref value =>
    exact (heval env value).bind fun v =>
      (hS.access.assign env ref v).bind fun _ => follows_pure v
  | unary op operand =>
    exact (heval env operand).bind fun v => follows_ofExcept (Value.unary_change hχ op v)
  | binary left op right =>
    exact (heval env left).bind fun v => (heval env right).bind fun w =>
      follows_ofExcept (Value.binary_change hχ op v w)
  | logical left op right =>
    refine (heval env left).bind fun v => ?_
    rw [Value.isTruthy_change, hχ.kind]
    split
    · exact follows_pure v
    · exact heval env right
  | group inner => exact heval env inner
  | call callee paren arguments =>
    rw [Expr.map, Expr.mapAll_eq]
    refine (heval env callee).bind fun v => ?_
    refine (follows_mapM fun a _ => heval env a).bind fun vs => ?_
    -- what can be called, and with how many arguments, does not change
    rw [Value.callee?_change, List.length_map]
    cases v.callee? with
    | none => exact follows_fail _ paren
    | some c =>
      simp only [Option.map_some, Callee.arity_change]
      split
      · exact hcall c vs
      · exact follows_fail _ paren
  | get object name =>
    refine (heval env object).bind fun v => ?_
    cases v with
    | object id c => exact follows_property hχ id c name
    | _ => exact follows_fail _ name
  | set object name value =>
    refine (heval env object).bind fun v => ?_
    cases v with
    | object id c =>
      refine (heval env value).bind fun w => ?_
      rw [hχ.lexeme]
      exact (follows_setField id name.lexeme w).bind fun _ => follows_pure w
    | _ => exact follows_fail _ name
  | superRef ref method => exact follows_superMethod hS.access hχ env ref method
  | unknown form => exact follows_fault _

include hS in
theorem callsFollow_succ
    (hinvoke : InvocationFollows χ before S S' depth) :
    CallsFollow χ before S S' (depth + 1) := by
  intro callee arguments
  cases callee with
  | clock => exact follows_readClock hS.clock
  | function f => exact hinvoke f arguments
  | classOf c =>
    refine (follows_newObject c).bind fun object => ?_
    rw [ClassValue.initializer?_change]
    cases c.initializer? with
    | some method =>
      refine (follows_takeMethod object method).bind fun f => ?_
      exact (hinvoke f arguments).bind fun _ => follows_pure object
    | none => exact follows_pure object

include hχ in
theorem invocationFollows_succ
    (hexec : ExecutionFollows χ before S S' depth) :
    InvocationFollows χ before S S' (depth + 1) := by
  intro f arguments
  have hdeclaration : (f.change χ).declaration = Function.map χ.label χ.token f.declaration := rfl
  unfold invoke invokeOuter
  rw [hdeclaration, Function.map_eq]
  refine (follows_ofAccess (matchArguments_map hχ f.declaration.params arguments)).bind
    fun vars => ?_
  -- changing the values that parameters get commutes with giving them
  rw [← Bindings.change_ofList χ.prunes]
  refine (follows_enter (Bindings.ofList vars) f.env).bind fun env => ?_
  exact (follows_runAll fun s _ => hexec env s).bind fun c => follows_resultOf f c

include hχ hS in
theorem executionFollows_succ
    (heval : EvaluationFollows χ before S S' depth)
    (hexec : ExecutionFollows χ before S S' depth) :
    ExecutionFollows χ before S S' (depth + 1) := by
  intro env s
  cases s with
  | expression value =>
    exact (heval env value).bind fun _ => follows_pure Completion.normal
  | print value =>
    exact (heval env value).bind fun v =>
      (follows_print hχ v).bind fun _ => follows_pure Completion.normal
  | var name initial =>
    cases initial with
    | none =>
      have hdefine : Follows χ before (fun a => a) (define env name.lexeme .nil)
          (define env (χ.token name).lexeme .nil) := by
        rw [hχ.lexeme]
        exact follows_define env name.lexeme .nil
      exact hdefine.bind fun _ => follows_pure Completion.normal
    | some e =>
      refine (heval env e).bind fun v => ?_
      rw [hχ.lexeme]
      exact (follows_define env name.lexeme v).bind fun _ => follows_pure Completion.normal
  | block body =>
    rw [Stmt.map, Stmt.mapAll_eq]
    have henter : Follows χ before (fun env => env) _ _ := follows_enter Bindings.empty env
    rw [Bindings.change_empty] at henter
    refine henter.bind fun inner => ?_
    exact follows_runAll fun s _ => hexec inner s
  | ifThen condition body =>
    refine (heval env condition).bind fun v => ?_
    rw [Value.isTruthy_change]
    split
    · exact hexec env body
    · exact follows_pure Completion.normal
  | ifElse condition body other =>
    refine (heval env condition).bind fun v => ?_
    rw [Value.isTruthy_change]
    split
    · exact hexec env body
    · exact hexec env other
  | whileLoop condition body =>
    unfold execute executeOuter
    rw [hS.rounds]
    refine follows_runWhile ((heval env condition).bind fun v => ?_) (hexec env body) _
    rw [Value.isTruthy_change]
    exact follows_pure v.isTruthy
  | function declaration =>
    have hname : (Function.map χ.label χ.token declaration).name.lexeme = declaration.name.lexeme := by
      rw [Function.map_eq, hχ.lexeme]
    refine follows_freshId.bind fun n => ?_
    rw [hname]
    exact (follows_define env declaration.name.lexeme
      (.function ⟨n, declaration, env, false⟩)).bind fun _ => follows_pure Completion.normal
  | returnFrom keyword value =>
    cases value with
    | none => exact follows_pure (Completion.returned .nil)
    | some e => exact (heval env e).bind fun v => follows_pure (Completion.returned v)
  | classOf name superclass methods =>
    rw [Stmt.map, Function.mapAll_eq]
    cases superclass with
    | none =>
      exact (follows_makeClass hχ env name none methods).bind fun _ =>
        follows_pure Completion.normal
    | some parent =>
      refine (heval env (.nameRef parent)).bind fun v => ?_
      cases v with
      | classOf c =>
        exact (follows_makeClass hχ env name (some c) methods).bind fun _ =>
          follows_pure Completion.normal
      | _ => exact follows_fail _ parent.name
  | unknown form => exact follows_fault _

/-! ## Whole runs -/

include hχ hS in
/-- **Evaluation does the same after the change**, whatever nesting it is allowed. -/
theorem follows (depth : Nat) :
    EvaluationFollows χ before S S' depth ∧ CallsFollow χ before S S' depth ∧
      InvocationFollows χ before S S' depth ∧ ExecutionFollows χ before S S' depth := by
  induction depth with
  | zero =>
    exact ⟨fun _ _ => follows_fault _, fun _ _ => follows_fault _, fun _ _ => follows_fault _,
      fun _ _ => follows_fault _⟩
  | succ depth ih =>
    obtain ⟨heval, hcall, hinvoke, hexec⟩ := ih
    exact ⟨evaluationFollows_succ hχ hS heval hcall, callsFollow_succ hS hinvoke,
      invocationFollows_succ hχ hexec, executionFollows_succ hχ hS heval hexec⟩

include hχ hS in
/-- A changed program runs as it does without the change. -/
theorem follows_runProgram (program : List (Stmt Label)) :
    Follows χ before (fun a => a) (runProgram S depth program)
      (runProgram S' depth (program.map (Stmt.map χ.label χ.token))) := by
  induction program with
  | nil => exact follows_pure ()
  | cons s ss ih =>
    have hexec : ExecutionFollows χ before S S' depth := (follows hχ hS depth).2.2.2
    exact ((hexec globalEnv s).bind fun _ => follows_pure (p := fun a => a) ()).bind fun _ => ih

end

section
variable (table : BindingTable) (clock : Nat → Float) (rounds depth : Nat)
  (program : List (Stmt Label)) (m : Machine)

theorem lawful_unlined : (Change.ofToken Token.unlined).Lawful :=
  ⟨Token.lexeme_unlined, Token.kind_unlined⟩

/-- A setting gives a program without its lines what it gives it with them. -/
theorem Setting.follows_unlined (before : String) :
    Setting.Follows (.ofToken Token.unlined) before ⟨.byHops table, clock, rounds⟩
      ⟨.byHops table, clock, rounds⟩ :=
  ⟨Access.follows_byHops lawful_unlined fun _ => rfl, rfl, rfl⟩

/-- In one setting a program without its lines runs as it does with them. -/
theorem follows_unlined (before : String) :
    Follows (.ofToken Token.unlined) before (fun a => a)
      (runProgram ⟨.byHops table, clock, rounds⟩ depth program)
      (runProgram ⟨.byHops table, clock, rounds⟩ depth
        (program.map (Stmt.map id Token.unlined))) :=
  follows_runProgram lawful_unlined (Setting.follows_unlined table clock rounds before) program

/-- A program with tokens on other lines ends in the same way and leaves the same machine, up to
lines. -/
theorem retell_runProgram_map {φ : Token → Token} (hφ : ∀ t, (φ t).unlined = t.unlined) :
    retell (.ofToken Token.unlined) "" (fun a => a)
        (runProgram ⟨.byHops table, clock, rounds⟩ depth (program.map (Stmt.map id φ)) m) =
      retell (.ofToken Token.unlined) "" (fun a => a)
        (runProgram ⟨.byHops table, clock, rounds⟩ depth program m) := by
  have hprogram : (program.map (Stmt.map id φ)).map (Stmt.map id Token.unlined) =
      program.map (Stmt.map id Token.unlined) := by
    have hcomp : Token.unlined ∘ φ = Token.unlined := funext hφ
    simp only [List.map_map, Function.comp_def, Stmt.map_map, id_eq]
    rw [show (fun t => Token.unlined (φ t)) = Token.unlined from hcomp]
    rfl
  have hchanged := follows_unlined table clock rounds depth (program.map (Stmt.map id φ)) "" m
  rw [hprogram] at hchanged
  exact hchanged.symm.trans (follows_unlined table clock rounds depth program "" m)

/-- A run only adds to what was printed. -/
theorem exists_printed_runProgram :
    ∃ printed, (machineOf (runProgram ⟨.byHops table, clock, rounds⟩ depth program m)).output =
      m.output ++ printed :=
  Follows.exists_printed (follows_unlined table clock rounds depth program) m

/-- The execution of a statement only adds to what was printed. -/
theorem exists_printed_execute (env : Env) (s : Stmt Label) :
    ∃ printed, (machineOf (execute ⟨.byHops table, clock, rounds⟩ depth env s m)).output =
      m.output ++ printed :=
  Follows.exists_printed (fun before => (follows lawful_unlined
    (Setting.follows_unlined table clock rounds before) depth).2.2.2 env s) m

end

end LoxLang
