import LoxLang.Proofs.Computation
import LoxLang.Proofs.Scope.Binding
import LoxLang.Proofs.Syntax.Map

/-! # The binding pass does not look at what it has found

What a step of the binding pass does is an `Effect`: the fault that stops it if one does, the
scopes that it leaves open, and the errors and bindings that it adds.  The effect depends on the
scopes that are open and on nothing else, neither on the errors nor on the table so far; and with
tokens on other lines it is the same effect at these tokens (`Uniform`).  No property of the program
is needed: it may be one that no text has. -/

namespace LoxLang

/-- The same error at a changed token. -/
def ScopeError.map (φ : Token → Token) (e : ScopeError) : ScopeError := ⟨e.fault, φ e.place⟩

/-- The same binding of a changed token. -/
def Binding.map (φ : Token → Token) (b : Binding) : Binding := { b with name := φ b.name }

namespace Binder

/-- What a step of the pass does. -/
structure Effect where
  fault : Option Fault
  scopes : List (Bindings Bool)
  errors : List ScopeError
  bindings : List Binding

namespace Effect

/-- The end of a step with an effect, after errors and bindings that were found before it. -/
def result (e : Effect) (errors : List ScopeError) (table : BindingTable) :
    EStateM.Result Fault State Unit :=
  let s : State := ⟨e.scopes, errors ++ e.errors, table.recordAll e.bindings⟩
  match e.fault with
  | none => .ok () s
  | some f => .error f s

/-- The same effect at changed tokens. -/
def map (φ : Token → Token) (e : Effect) : Effect :=
  { e with errors := e.errors.map (ScopeError.map φ), bindings := e.bindings.map (Binding.map φ) }

/-- One effect after another. -/
def andThen (e e' : Effect) : Effect :=
  ⟨e'.fault, e'.scopes, e.errors ++ e'.errors, e.bindings ++ e'.bindings⟩

theorem map_andThen (φ : Token → Token) (e e' : Effect) :
    (e.andThen e').map φ = (e.map φ).andThen (e'.map φ) := by
  simp [map, andThen]

theorem result_andThen (e e' : Effect) (errors : List ScopeError) (table : BindingTable) :
    (e.andThen e').result errors table =
      e'.result (errors ++ e.errors) (table.recordAll e.bindings) := by
  simp [result, andThen, BindingTable.recordAll_append, List.append_assoc]

end Effect

/-- A step has an effect where the given scopes are open, whatever was found before. -/
def Does (x : Pass Unit) (scopes : List (Bindings Bool)) (e : Effect) : Prop :=
  ∀ errors table, x ⟨scopes, errors, table⟩ = e.result errors table

/-- The second step does what the first one does, at changed tokens. -/
def Uniform (φ : Token → Token) (x y : Pass Unit) : Prop :=
  ∀ scopes, ∃ e, Does x scopes e ∧ Does y scopes (e.map φ)

/-! ## One step after another -/

section
variable {φ : Token → Token} {x y x' y' : Pass Unit} {scopes : List (Bindings Bool)}

theorem does_modify {f : State → State} {scopes' : List (Bindings Bool)} {es : List ScopeError}
    {bs : List Binding}
    (h : ∀ errors table, f ⟨scopes, errors, table⟩ =
      ⟨scopes', errors ++ es, table.recordAll bs⟩) :
    Does (modify f) scopes ⟨none, scopes', es, bs⟩ := fun errors table => by
  rw [EStateM.modify_apply, h]
  rfl

theorem Does.bind {e e' : Effect} (hx : Does x scopes e) (hfault : e.fault = none)
    (hy : Does y e.scopes e') : Does (do x; y) scopes (e.andThen e') := fun errors table => by
  have hok : x ⟨scopes, errors, table⟩ =
      .ok () ⟨e.scopes, errors ++ e.errors, table.recordAll e.bindings⟩ := by
    rw [hx, Effect.result, hfault]
  rw [EStateM.bind_ok hok, hy, Effect.result_andThen]

theorem Does.bind_fault {e : Effect} {f : Fault} (hx : Does x scopes e)
    (hfault : e.fault = some f) : Does (do x; y) scopes e := fun errors table => by
  have herror : x ⟨scopes, errors, table⟩ =
      .error f ⟨e.scopes, errors ++ e.errors, table.recordAll e.bindings⟩ := by
    rw [hx, Effect.result, hfault]
  rw [EStateM.bind_error herror, Effect.result, hfault]

theorem Uniform.bind (hx : Uniform φ x x') (hy : Uniform φ y y') :
    Uniform φ (do x; y) (do x'; y') := by
  intro scopes
  obtain ⟨e, hxe, hxe'⟩ := hx scopes
  cases hfault : e.fault with
  | some f => exact ⟨e, hxe.bind_fault hfault, hxe'.bind_fault hfault⟩
  | none =>
    obtain ⟨e', hye, hye'⟩ := hy e.scopes
    refine ⟨e.andThen e', hxe.bind hfault hye, ?_⟩
    rw [Effect.map_andThen]
    exact hxe'.bind hfault hye'

/-- A step that finds nothing does the same whatever the tokens. -/
theorem uniform_quiet (after : List (Bindings Bool) → List (Bindings Bool)) {f : State → State}
    (h : ∀ s, f s = { s with scopes := after s.scopes }) :
    Uniform φ (modify f) (modify f) := by
  intro scopes
  have hdoes : Does (modify f) scopes ⟨none, after scopes, [], []⟩ :=
    does_modify fun errors table => by
      rw [h, List.append_nil]
      rfl
  exact ⟨_, hdoes, hdoes⟩

theorem uniform_pure : Uniform φ (pure ()) (pure ()) :=
  uniform_quiet (f := fun s => s) (fun scopes => scopes) fun _ => rfl

theorem uniform_throw (f : Fault) : Uniform φ (throw f) (throw f) := by
  intro scopes
  have hdoes : Does (throw f) scopes ⟨some f, scopes, [], []⟩ := fun errors table => by
    rw [Effect.result, List.append_nil]
    rfl
  exact ⟨_, hdoes, hdoes⟩

/-- What is done by the open scopes is done by the open scopes only. -/
theorem uniform_get {f g : State → Pass Unit}
    (h : ∀ s, Uniform φ (f s) (g s))
    (hf : ∀ s s' : State, s.scopes = s'.scopes → f s = f s')
    (hg : ∀ s s' : State, s.scopes = s'.scopes → g s = g s') :
    Uniform φ (get >>= f) (get >>= g) := by
  intro scopes
  obtain ⟨e, hx, hy⟩ := h ⟨scopes, [], BindingTable.empty⟩ scopes
  refine ⟨e, fun errors table => ?_, fun errors table => ?_⟩
  · have hsame : f ⟨scopes, errors, table⟩ = f ⟨scopes, [], BindingTable.empty⟩ := hf _ _ rfl
    exact (congrFun hsame _).trans (hx errors table)
  · have hsame : g ⟨scopes, errors, table⟩ = g ⟨scopes, [], BindingTable.empty⟩ := hg _ _ rfl
    exact (congrFun hsame _).trans (hy errors table)

theorem Uniform.ite {p q : Prop} [Decidable p] [Decidable q] (hpq : q ↔ p) (hx : Uniform φ x x')
    (hy : Uniform φ y y') : Uniform φ (if p then x else y) (if q then x' else y') := by
  by_cases hp : p
  · rw [if_pos hp, if_pos (hpq.mpr hp)]
    exact hx
  · rw [if_neg hp, if_neg fun hq => hp (hpq.mp hq)]
    exact hy

theorem Uniform.inScope (h : Uniform φ x x') : Uniform φ (inScope x) (inScope x') :=
  (uniform_quiet (fun scopes => Bindings.empty :: scopes) fun _ => rfl).bind
    (h.bind (uniform_quiet List.tail fun _ => rfl))

/-- Steps that are uniform for each member of a list and its image are so for the lists. -/
theorem Uniform.forM {α β : Type} {change : α → β} {run : α → Pass Unit} {run' : β → Pass Unit}
    {as : List α} (h : ∀ a ∈ as, Uniform φ (run a) (run' (change a))) :
    Uniform φ (as.forM run) ((as.map change).forM run') := by
  induction as with
  | nil => exact uniform_pure
  | cons a as ih =>
    exact (h a List.mem_cons_self).bind (ih fun a' ha' => h a' (List.mem_cons_of_mem a ha'))

end

/-! ## The single steps -/

section
variable {φ : Token → Token} (hφ : ∀ t, (φ t).lexeme = t.lexeme)

theorem uniform_report (fault : ScopeFault) (place : Token) :
    Uniform φ (report fault place) (report fault (φ place)) := fun scopes =>
  ⟨⟨none, scopes, [⟨fault, place⟩], []⟩, does_modify fun _ _ => rfl, does_modify fun _ _ => rfl⟩

theorem uniform_mark (name : String) (defined : Bool) :
    Uniform φ (mark name defined) (mark name defined) :=
  uniform_quiet (List.modifyHead (Bindings.insert name defined)) fun s => by
      obtain ⟨scopes, errors, table⟩ := s
      cases scopes <;> rfl

include hφ

theorem uniform_declare (name : Token) : Uniform φ (declare name) (declare (φ name)) := by
  have hreport := (uniform_report (φ := φ) .alreadyDeclared name).bind
    (uniform_mark name.lexeme false)
  unfold declare
  rw [hφ]
  refine uniform_get (fun s => ?_) (fun s s' h => by rw [h]) fun s s' h => by rw [h]
  exact .ite Iff.rfl hreport (uniform_mark name.lexeme false)

theorem uniform_introduce (name : Token) : Uniform φ (introduce name) (introduce (φ name)) := by
  have h := (uniform_declare hφ name).bind (uniform_mark name.lexeme true)
  unfold introduce
  rwa [hφ]

theorem uniform_bind (around : Surroundings) (use : RefUse) (ref : Ref Label) :
    Uniform φ (bind around use ref) (bind around use (ref.map id φ)) := by
  intro scopes
  have hname : (ref.map id φ).name.lexeme = ref.name.lexeme := hφ ref.name
  unfold Binder.bind
  rw [hname]
  cases hfind : scopes.findIdx? (fun scope => scope.contains ref.name.lexeme) with
  | none =>
    refine ⟨⟨none, scopes, [], []⟩, does_modify fun _ _ => ?_, does_modify fun _ _ => ?_⟩ <;>
      · simp only [hfind, List.map_nil, List.append_nil]
        rfl
  | some hops =>
    refine ⟨⟨none, scopes, [], [⟨ref.label, use, ref.name, hops, around.function = .outside⟩]⟩,
      does_modify fun _ _ => ?_, does_modify fun _ _ => ?_⟩ <;>
      · simp only [hfind, List.map_nil, List.append_nil]
        rfl

theorem uniform_readName (around : Surroundings) (ref : Ref Label) :
    Uniform φ (readName around ref) (readName around (ref.map id φ)) := by
  have hname : (ref.map id φ).name.lexeme = ref.name.lexeme := hφ ref.name
  have hbind := uniform_bind hφ around .read ref
  unfold readName
  rw [hname]
  refine uniform_get (fun s => ?_) (fun s s' h => by rw [h]) fun s s' h => by rw [h]
  exact .ite Iff.rfl ((uniform_report .readInOwnInitializer ref.name).bind hbind) hbind

/-! ## Expressions and statements -/

theorem uniform_expression (depth : Nat) (around : Surroundings) (e : Expr Label) :
    Uniform φ (expression around depth e) (expression around depth (e.map id φ)) := by
  induction depth generalizing e with
  | zero => exact uniform_throw _
  | succ depth ih =>
    cases e with
    | literal value => exact uniform_pure
    | nameRef ref => exact uniform_readName hφ around ref
    | thisRef ref =>
      exact .ite Iff.rfl (uniform_report .thisOutsideClass ref.name)
        (uniform_bind hφ around .this ref)
    | superRef ref method =>
      have hbind := uniform_bind hφ around .super ref
      rw [Expr.map, expression, expression]
      cases around.classBody with
      | outside => exact (uniform_report .superOutsideClass ref.name).bind hbind
      | plain => exact (uniform_report .superWithoutSuperclass ref.name).bind hbind
      | derived => exact uniform_pure.bind hbind
    | assign ref value => exact (ih value).bind (uniform_bind hφ around .assign ref)
    | unary _ e | group e | get e _ => exact ih e
    | binary left _ right | logical left _ right => exact (ih left).bind (ih right)
    | call callee paren arguments =>
      rw [Expr.map, Expr.mapAll_eq]
      exact (ih callee).bind (Uniform.forM fun a _ => ih a)
    | set object _ value => exact (ih value).bind (ih object)
    | unknown form => exact uniform_throw _

theorem uniform_function {f : Function Label} {depth : Nat} (around : Surroundings)
    (kind : FunctionContext)
    (h : ∀ s ∈ f.body, ∀ around,
      Uniform φ (statement depth around s) (statement depth around (s.map id φ))) :
    Uniform φ (function around kind (statement depth) f)
      (function around kind (statement depth) (Function.map id φ f)) := by
  have hparams : Uniform φ (f.params.forM introduce) ((f.params.map φ).forM introduce) :=
    Uniform.forM fun p _ => uniform_introduce hφ p
  rw [Function.map_eq]
  exact (hparams.bind (Uniform.forM fun s hs => h s hs _)).inScope

theorem uniform_methods {ms : List (Function Label)} {depth : Nat} (around : Surroundings)
    (h : ∀ m ∈ ms, ∀ s ∈ m.body, ∀ around,
      Uniform φ (statement depth around s) (statement depth around (s.map id φ))) :
    Uniform φ (methods around (statement depth) ms)
      (methods around (statement depth) (Function.mapAll id φ ms)) := by
  rw [Function.mapAll_eq]
  refine ((uniform_mark "this" true).bind (Uniform.forM fun m hm => ?_)).inScope
  have hkind : FunctionOf.isInitializer (Function.map id φ m) = m.isInitializer := by
    simp [Function.map_eq, FunctionOf.isInitializer, hφ]
  rw [hkind]
  exact uniform_function hφ around _ (h m hm)

theorem uniform_initial (depth : Nat) (around : Surroundings) (initial : Option (Expr Label)) :
    Uniform φ (initial.forM fun e => expression around depth e)
      ((initial.map (Expr.map id φ)).forM fun e => expression around depth e) := by
  cases initial with
  | none => exact uniform_pure
  | some e => exact uniform_expression hφ depth around e

omit hφ in
/-- A broken rule, if it is broken, and then a step. -/
theorem Uniform.afterReport {x x' : Pass Unit} (h : Uniform φ x x') {p q : Prop} [Decidable p]
    [Decidable q] (hpq : q ↔ p) (fault : ScopeFault) (place : Token) :
    Uniform φ (do
        if p then report fault place
        x)
      (do
        if q then report fault (φ place)
        x') :=
  (Uniform.ite hpq ((uniform_report fault place).bind h) h : Uniform φ
    (if p then (do report fault place; x) else x)
    (if q then (do report fault (φ place); x') else x'))

theorem uniform_statement (depth : Nat) (around : Surroundings) (s : Stmt Label) :
    Uniform φ (statement depth around s) (statement depth around (s.map id φ)) := by
  induction depth generalizing s around with
  | zero => exact uniform_throw _
  | succ depth ih =>
    cases s with
    | expression value | print value => exact uniform_expression hφ depth around value
    | var name initial =>
      rw [Stmt.map, statement, statement, hφ]
      exact (uniform_declare hφ name).bind
        ((uniform_initial hφ depth around initial).bind (uniform_mark name.lexeme true))
    | block body =>
      rw [Stmt.map, Stmt.mapAll_eq]
      exact (Uniform.forM fun s _ => ih around s).inScope
    | ifThen condition body | whileLoop condition body =>
      exact (uniform_expression hφ depth around condition).bind (ih around body)
    | ifElse condition body other =>
      exact (uniform_expression hφ depth around condition).bind
        ((ih around body).bind (ih around other))
    | function declaration =>
      have hname : (Function.map id φ declaration).name = φ declaration.name := by
        rw [Function.map_eq]
      rw [Stmt.map, statement, statement, hname]
      exact (uniform_introduce hφ declaration.name).bind
        (uniform_function hφ around .function fun s _ around => ih around s)
    | returnFrom keyword value =>
      refine Uniform.afterReport ?_ Iff.rfl .returnOutsideFunction keyword
      cases value with
      | none => exact uniform_pure
      | some e =>
        exact (uniform_expression hφ depth around e).afterReport Iff.rfl .valueFromInitializer
          keyword
    | classOf name superclass ms =>
      have hname := uniform_introduce hφ name
      have hmethods (around : Surroundings) : Uniform φ (methods around (statement depth) ms)
          (methods around (statement depth) (Function.mapAll id φ ms)) :=
        uniform_methods hφ around fun _ _ s _ around => ih around s
      cases superclass with
      | none => exact hname.bind (hmethods { around with classBody := .plain })
      | some parent =>
        have hself : (parent.map id φ).name.lexeme = (φ name).lexeme ↔
            parent.name.lexeme = name.lexeme := by
          rw [Ref.map, hφ, hφ]
        have hsuper := (uniform_mark (φ := φ) "super" true).bind
          (hmethods { around with classBody := .derived })
        refine hname.bind (Uniform.afterReport ?_ hself .inheritsFromItself parent.name)
        exact (uniform_readName hφ around parent).bind hsuper.inScope
    | unknown form => exact uniform_throw _

end

/-- The pass over a program yields the effect that it has outside all scopes. -/
theorem Does.bindProgram_eq {depth : Nat} {program : List (Stmt Label)} {e : Effect}
    (h : Does (program.forM fun s => statement depth ⟨.outside, .outside⟩ s) [] e)
    (table : BindingTable) :
    bindProgram depth program table = ⟨table.recordAll e.bindings, e.errors, e.fault⟩ := by
  unfold bindProgram
  rw [h, Effect.result]
  cases hfault : e.fault <;> rfl

end Binder

/-- **The binding pass adds to the table what it adds to any other**: there are a fault or none,
errors and bindings that belong to the program, and with other lines the same ones at its tokens. -/
theorem bindProgram_uniform {φ : Token → Token} (hφ : ∀ t, (φ t).lexeme = t.lexeme) (depth : Nat)
    (program : List (Stmt Label)) :
    ∃ fault errors bindings, ∀ table,
      bindProgram depth program table = ⟨table.recordAll bindings, errors, fault⟩ ∧
      bindProgram depth (program.map (Stmt.map id φ)) table =
        ⟨table.recordAll (bindings.map (Binding.map φ)), errors.map (ScopeError.map φ), fault⟩ := by
  have hrun : Binder.Uniform φ
      (program.forM fun s => Binder.statement depth ⟨.outside, .outside⟩ s)
      ((program.map (Stmt.map id φ)).forM fun s =>
        Binder.statement depth ⟨.outside, .outside⟩ s) :=
    Binder.Uniform.forM fun s _ => Binder.uniform_statement hφ depth _ s
  obtain ⟨e, hx, hy⟩ := hrun []
  exact ⟨e.fault, e.errors, e.bindings, fun table =>
    ⟨hx.bindProgram_eq table, hy.bindProgram_eq table⟩⟩

end LoxLang
