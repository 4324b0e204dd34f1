import LoxLang.Proofs.Scope.Findings
import LoxLang.Proofs.Syntax.Induction
import Mathlib.Data.List.Basic

/-! # Programs up to marks and places

`Stmt.map g φ` changes the marks of references by `g` and the tokens by `φ`.  Two cases of it
matter: leaving out the labels of a labelled program, and leaving out the lines on which its tokens
stand.  What there is to find in a program depends on neither, if `φ` keeps the texts of tokens. -/

namespace LoxLang

open Binder (Surroundings FunctionContext)

variable {ι κ : Type}

/-- A token without its line. -/
def Token.unlined (t : Token) : Token := { t with line := 0 }

@[simp] theorem Token.kind_unlined (t : Token) : t.unlined.kind = t.kind := rfl

@[simp] theorem Token.lexeme_unlined (t : Token) : t.unlined.lexeme = t.lexeme := rfl

/-- Changes the mark and the token of a reference. -/
def Ref.map (g : ι → κ) (φ : Token → Token) (ref : Ref ι) : Ref κ := ⟨g ref.label, φ ref.name⟩

mutual

/-- Changes the marks and the tokens of an expression. -/
def Expr.map (g : ι → κ) (φ : Token → Token) : Expr ι → Expr κ
  | .literal value => .literal value
  | .nameRef ref => .nameRef (ref.map g φ)
  | .assign ref value => .assign (ref.map g φ) (value.map g φ)
  | .unary op operand => .unary (φ op) (operand.map g φ)
  | .binary left op right => .binary (left.map g φ) (φ op) (right.map g φ)
  | .logical left op right => .logical (left.map g φ) (φ op) (right.map g φ)
  | .group inner => .group (inner.map g φ)
  | .call callee paren arguments =>
    .call (callee.map g φ) (φ paren) (Expr.mapAll g φ arguments)
  | .get object name => .get (object.map g φ) (φ name)
  | .set object name value => .set (object.map g φ) (φ name) (value.map g φ)
  | .thisRef ref => .thisRef (ref.map g φ)
  | .superRef ref method => .superRef (ref.map g φ) (φ method)
  | .unknown form => .unknown form

/-- Changes the marks and the tokens of expressions. -/
def Expr.mapAll (g : ι → κ) (φ : Token → Token) : List (Expr ι) → List (Expr κ)
  | [] => []
  | e :: es => e.map g φ :: Expr.mapAll g φ es

end

mutual

/-- Changes the marks and the tokens of a statement. -/
def Stmt.map (g : ι → κ) (φ : Token → Token) : Stmt ι → Stmt κ
  | .expression value => .expression (value.map g φ)
  | .print value => .print (value.map g φ)
  | .var name initial => .var (φ name) (initial.map (Expr.map g φ))
  | .block body => .block (Stmt.mapAll g φ body)
  | .ifThen condition body => .ifThen (condition.map g φ) (body.map g φ)
  | .ifElse condition body other =>
    .ifElse (condition.map g φ) (body.map g φ) (other.map g φ)
  | .whileLoop condition body => .whileLoop (condition.map g φ) (body.map g φ)
  | .function declaration => .function (Function.map g φ declaration)
  | .returnFrom keyword value => .returnFrom (φ keyword) (value.map (Expr.map g φ))
  | .classOf name superclass methods =>
    .classOf (φ name) (superclass.map (Ref.map g φ)) (Function.mapAll g φ methods)
  | .unknown form => .unknown form

/-- Changes the marks and the tokens of statements. -/
def Stmt.mapAll (g : ι → κ) (φ : Token → Token) : List (Stmt ι) → List (Stmt κ)
  | [] => []
  | s :: ss => s.map g φ :: Stmt.mapAll g φ ss

/-- Changes the marks and the tokens of a function. -/
def Function.map (g : ι → κ) (φ : Token → Token) : Function ι → Function κ
  | ⟨name, params, body⟩ => ⟨φ name, params.map φ, Stmt.mapAll g φ body⟩

/-- Changes the marks and the tokens of functions. -/
def Function.mapAll (g : ι → κ) (φ : Token → Token) : List (Function ι) → List (Function κ)
  | [] => []
  | f :: fs => Function.map g φ f :: Function.mapAll g φ fs

end

section
variable (g : ι → κ) (φ : Token → Token)

theorem Expr.mapAll_eq (es : List (Expr ι)) : Expr.mapAll g φ es = es.map (Expr.map g φ) := by
  induction es with
  | nil => rfl
  | cons e es ih => rw [mapAll, ih, List.map_cons]

theorem Stmt.mapAll_eq (ss : List (Stmt ι)) : Stmt.mapAll g φ ss = ss.map (Stmt.map g φ) := by
  induction ss with
  | nil => rfl
  | cons s ss ih => rw [mapAll, ih, List.map_cons]

theorem Function.mapAll_eq (fs : List (Function ι)) :
    Function.mapAll g φ fs = fs.map (Function.map g φ) := by
  induction fs with
  | nil => rfl
  | cons f fs ih => rw [mapAll, ih, List.map_cons]

theorem Function.map_eq (f : Function ι) :
    Function.map g φ f = ⟨φ f.name, f.params.map φ, f.body.map (Stmt.map g φ)⟩ := by
  obtain ⟨name, params, body⟩ := f
  rw [← Stmt.mapAll_eq]
  rfl

end

/-- The meaning of a `for` statement changes with its parts. -/
theorem Stmt.map_forLoop (g : ι → κ) (φ : Token → Token) (initial : Option (Stmt ι))
    (condition step : Option (Expr ι)) (body : Stmt ι) :
    (Stmt.forLoop initial condition step body).map g φ =
      Stmt.forLoop (initial.map (Stmt.map g φ)) (condition.map (Expr.map g φ))
        (step.map (Expr.map g φ)) (body.map g φ) := by
  cases initial <;> cases condition <;> cases step <;> rfl

/-! ## Two changes, one after the other -/

section
variable {ν : Type} (g : ι → κ) (φ : Token → Token) (g' : κ → ν) (φ' : Token → Token)

theorem Expr.map_map (e : Expr ι) : (e.map g φ).map g' φ' = e.map (g' ∘ g) (φ' ∘ φ) := by
  induction e using Expr.inductionOn with
  | call callee paren arguments ih iharguments =>
    have h := List.map_congr_left iharguments
    simpa [map, mapAll_eq, ih] using h
  | _ => simp_all [map, Ref.map]

theorem Function.map_map_of {f : Function ι}
    (h : ∀ s ∈ f.body, (s.map g φ).map g' φ' = s.map (g' ∘ g) (φ' ∘ φ)) :
    Function.map g' φ' (Function.map g φ f) = Function.map (g' ∘ g) (φ' ∘ φ) f := by
  have hbody := List.map_congr_left h
  simpa [Function.map_eq] using hbody

theorem Stmt.map_map (s : Stmt ι) : (s.map g φ).map g' φ' = s.map (g' ∘ g) (φ' ∘ φ) := by
  have hoption : ∀ e : Option (Expr ι),
      (e.map (Expr.map g φ)).map (Expr.map g' φ') = e.map (Expr.map (g' ∘ g) (φ' ∘ φ)) := by
    intro e
    cases e with
    | none => rfl
    | some e => exact congrArg some (e.map_map g φ g' φ')
  induction s using Stmt.inductionOn with
  | block body ih =>
    have h := List.map_congr_left ih
    simpa [map, mapAll_eq] using h
  | function declaration ih => simp [map, Function.map_map_of g φ g' φ' ih]
  | classOf name superclass methods ih =>
    have hmethods := List.map_congr_left fun m hm => Function.map_map_of g φ g' φ' (ih m hm)
    have hsuper : (superclass.map (Ref.map g φ)).map (Ref.map g' φ') =
        superclass.map (Ref.map (g' ∘ g) (φ' ∘ φ)) := by
      cases superclass <;> rfl
    simpa [map, Function.mapAll_eq, hsuper] using hmethods
  | var name initial => rw [map, map, map, hoption, Function.comp]
  | returnFrom keyword value => rw [map, map, map, hoption, Function.comp]
  | _ => simp_all [map, Expr.map_map]

end

/-! ## What there is to find -/

/-- Changes the mark and the token of a reference at its place. -/
def Use.map (g : ι → κ) (φ : Token → Token) (u : Use ι) : Use κ :=
  ⟨u.ref.map g φ, u.kind, u.around, u.context⟩

/-- Changes the marks and the tokens of a finding. -/
def Finding.map (g : ι → κ) (φ : Token → Token) : Finding ι → Finding κ
  | .use u => .use (u.map g φ)
  | .error e => .error ⟨e.fault, φ e.place⟩

section
variable {g : ι → κ} {φ : Token → Token} (hφ : ∀ t, (φ t).lexeme = t.lexeme)

include hφ

theorem Use.findings_map (u : Use ι) :
    (u.map g φ).findings = u.findings.map (Finding.map g φ) := by
  have hp : (u.map g φ).isPending = u.isPending := by
    simp [isPending, map, Ref.map, hφ]
  have he : (u.map g φ).errors = u.errors.map fun e => ⟨e.fault, φ e.place⟩ := by
    obtain ⟨ref, kind, ⟨f, c⟩, context⟩ := u
    unfold errors
    rw [hp]
    cases kind <;> cases c <;> simp [map, Ref.map, apply_ite (List.map _)]
  unfold findings
  rw [he, List.map_append, List.map_map, List.map_map, apply_ite (List.map _)]
  rfl

omit hφ in
theorem Expr.references_map (e : Expr ι) :
    (e.map g φ).references = e.references.map fun r => (r.1, r.2.map g φ) := by
  induction e using Expr.inductionOn with
  | call callee paren arguments ih iharguments =>
    simp only [Expr.map, references, referencesAll_eq, mapAll_eq, ih, List.map_append,
      List.map_flatMap, List.flatMap_map]
    rw [List.flatMap_congr iharguments]
  | _ => simp_all [Expr.map, references]

theorem Expr.visit_map (around : Surroundings) (context : Context) (e : Expr ι) :
    (e.map g φ).visit around context = (e.visit around context).map (Finding.map g φ) := by
  rw [visit, visit, references_map, List.flatMap_map, List.map_flatMap]
  exact List.flatMap_congr fun r _ => Use.findings_map hφ ⟨r.2, r.1, around, context⟩

theorem Expr.visitOption_map (around : Surroundings) (context : Context) (e : Option (Expr ι)) :
    Expr.visitOption around context (e.map (Expr.map g φ)) =
      (Expr.visitOption around context e).map (Finding.map g φ) := by
  cases e with
  | none => rfl
  | some e => exact e.visit_map hφ around context

omit hφ in
theorem Stmt.declares_map (s : Stmt ι) : (s.map g φ).declares = s.declares.map φ := by
  induction s using Stmt.inductionOn with
  | function declaration =>
    rw [Stmt.map, Function.map_eq]
    rfl
  | ifElse _ _ _ ihbody ihother => simp [Stmt.map, declares, ihbody, ihother]
  | ifThen _ _ ih | whileLoop _ _ ih => simp [Stmt.map, declares, ih]
  | _ => simp [Stmt.map, declares]

omit hφ in
theorem Stmt.declaresAll_map (body : List (Stmt ι)) :
    Stmt.declaresAll (body.map (Stmt.map g φ)) = (Stmt.declaresAll body).map φ := by
  simp [declaresAll, List.flatMap_map, List.map_flatMap, declares_map]

theorem OpenScope.fresh_map (names : List Token) : fresh (names.map φ) = fresh names := by
  simp [fresh, Function.comp_def, hφ]

theorem Context.introduceAll_map (names : List Token) (context : Context) :
    context.introduceAll (names.map φ) = context.introduceAll names := by
  simp [introduceAll, introduce, List.foldl_map, hφ]

theorem Context.redeclared_map (name : Token) (context : Context) :
    (context.redeclared (φ name) : List (Finding κ)) =
      (context.redeclared name).map (Finding.map g φ) := by
  unfold redeclared
  rw [hφ, apply_ite (List.map _)]
  rfl

theorem Context.redeclaredAll_map (names : List Token) (context : Context) :
    (context.redeclaredAll (names.map φ) : List (Finding κ)) =
      (context.redeclaredAll names).map (Finding.map g φ) := by
  induction names generalizing context with
  | nil => rfl
  | cons name names ih =>
    rw [List.map_cons, redeclaredAll, redeclaredAll, List.map_append, redeclared_map hφ, ih,
      introduce, introduce, hφ]

/-- The findings in statements whose marks and tokens are changed, given those in each. -/
theorem Stmt.visitAll_map_of {body : List (Stmt ι)}
    (h : ∀ s ∈ body, ∀ around context,
      (s.map g φ).visit around context = (s.visit around context).map (Finding.map g φ))
    (around : Surroundings) (context : Context) :
    Stmt.visitAll around context (body.map (Stmt.map g φ)) =
      (Stmt.visitAll around context body).map (Finding.map g φ) := by
  induction body generalizing context with
  | nil => rfl
  | cons s ss ih =>
    rw [List.map_cons, visitAll, visitAll, List.map_append, h s List.mem_cons_self,
      declares_map, Context.introduceAll_map hφ,
      ih fun s' hs' => h s' (List.mem_cons_of_mem s hs')]

theorem Function.visit_map_of {f : Function ι}
    (h : ∀ s ∈ f.body, ∀ around context,
      (s.map g φ).visit around context = (s.visit around context).map (Finding.map g φ))
    (around : Surroundings) (kind : FunctionContext) (context : Context) :
    Function.visit around kind context (Function.map g φ f) =
      (Function.visit around kind context f).map (Finding.map g φ) := by
  obtain ⟨name, params, body⟩ := f
  have hscope : OpenScope.fresh (FunctionOf.scopeNames
        ⟨φ name, params.map φ, body.map (Stmt.map g φ)⟩) =
      .fresh (FunctionOf.scopeNames ⟨name, params, body⟩) := by
    rw [FunctionOf.scopeNames, Stmt.declaresAll_map, ← List.map_append, OpenScope.fresh_map hφ]
    rfl
  rw [Function.map_eq, visit, visit, hscope, List.map_append, Context.redeclaredAll_map hφ,
    Context.introduceAll_map hφ, Stmt.visitAll_map_of hφ h]

theorem Function.visitMethods_map_of {ms : List (Function ι)}
    (h : ∀ m ∈ ms, ∀ s ∈ m.body, ∀ around context,
      (s.map g φ).visit around context = (s.visit around context).map (Finding.map g φ))
    (around : Surroundings) (context : Context) :
    Function.visitMethods around context (Function.mapAll g φ ms) =
      (Function.visitMethods around context ms).map (Finding.map g φ) := by
  induction ms with
  | nil => rfl
  | cons m ms ih =>
    have hkind : (Function.map g φ m).methodContext = m.methodContext := by
      simp [Function.map_eq, FunctionOf.methodContext, FunctionOf.isInitializer, hφ]
    rw [mapAll, visitMethods, visitMethods, List.map_append, hkind,
      visit_map_of hφ (h m List.mem_cons_self),
      ih fun m' hm' => h m' (List.mem_cons_of_mem m hm')]

/-- What there is to find in a program depends on the texts of its tokens only. -/
theorem Stmt.visit_map (s : Stmt ι) (around : Surroundings) (context : Context) :
    (s.map g φ).visit around context = (s.visit around context).map (Finding.map g φ) := by
  induction s using Stmt.inductionOn generalizing around context with
  | expression value | print value => exact value.visit_map hφ around context
  | var name initial =>
    rw [Stmt.map, visit, visit, List.map_append, Context.redeclared_map hφ,
      Expr.visitOption_map hφ, hφ]
  | block body ih =>
    rw [Stmt.map, mapAll_eq, visit, visit, declaresAll_map, OpenScope.fresh_map hφ,
      visitAll_map_of hφ ih]
  | ifThen condition body ih | whileLoop condition body ih =>
    rw [Stmt.map, visit, visit, List.map_append, condition.visit_map hφ, ih]
  | ifElse condition body other ihbody ihother =>
    rw [Stmt.map, visit, visit, List.map_append, List.map_append, condition.visit_map hφ, ihbody,
      declares_map, Context.introduceAll_map hφ, ihother]
  | function declaration ih =>
    have hname : (Function.map g φ declaration).name = φ declaration.name := by
      rw [Function.map_eq]
    rw [Stmt.map, visit, visit, List.map_append, hname, Context.redeclared_map hφ,
      Context.introduce, Context.introduce, hφ, Function.visit_map_of hφ ih]
  | returnFrom keyword value =>
    have herrors : (returnErrors around (φ keyword) (value.map (Expr.map g φ)) : List (Finding κ)) =
        (returnErrors around keyword value).map (Finding.map g φ) := by
      unfold returnErrors
      rw [Option.isSome_map, List.map_append, apply_ite (List.map _), apply_ite (List.map _)]
      rfl
    rw [Stmt.map, visit, visit, List.map_append, herrors, Expr.visitOption_map hφ]
  | classOf name superclass methods ih =>
    cases superclass with
    | none =>
      rw [Stmt.map, Option.map_none, visit, visit, List.map_append, Context.redeclared_map hφ,
        Context.introduce, Context.introduce, hφ, Function.visitMethods_map_of hφ ih]
    | some parent =>
      have hparent : Use.findings ⟨parent.map g φ, .read, around, context.introduce name⟩ =
          (Use.findings ⟨parent, .read, around, context.introduce name⟩).map
            (Finding.map g φ) :=
        Use.findings_map hφ ⟨parent, .read, around, context.introduce name⟩
      have hself : (if (parent.map g φ).name.lexeme = (φ name).lexeme then
            [.error ⟨.inheritsFromItself, (parent.map g φ).name⟩] else [] : List (Finding κ)) =
          (if parent.name.lexeme = name.lexeme then
            [.error ⟨.inheritsFromItself, parent.name⟩] else []).map (Finding.map g φ) := by
        rw [apply_ite (List.map _), hφ, Ref.map, hφ]
        rfl
      have hname : context.introduce (φ name) = context.introduce name := by
        rw [Context.introduce, Context.introduce, hφ]
      rw [Stmt.map, Option.map_some, visit, visit, List.map_append, List.map_append,
        List.map_append, hname, hself, hparent, Function.visitMethods_map_of hφ ih,
        Context.redeclared_map hφ]
  | unknown form => rfl

end

/-- What there is to find in a program depends on the texts of its tokens only. -/
theorem visitProgram_map {g : ι → κ} {φ : Token → Token} (hφ : ∀ t, (φ t).lexeme = t.lexeme)
    (program : List (Stmt ι)) :
    visitProgram (program.map (Stmt.map g φ)) = (visitProgram program).map (Finding.map g φ) :=
  Stmt.visitAll_map_of hφ (fun s _ => s.visit_map hφ) _ _

end LoxLang
