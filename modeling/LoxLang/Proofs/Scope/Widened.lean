import LoxLang.Proofs.Scope.Ready
import LoxLang.Proofs.Syntax.Turn

/-! # Scopes with empty blocks in between

Where a turn of a loop is unfolded to a block, one more scope is open, in which nothing is ever
declared.  With such scopes in between and without them the same is found: the same references, in
the same order, each among the same other scopes (`Stmt.Unfolds.visitProgram`), and the same broken
rules (`bindProgram_unfolds`). -/

namespace LoxLang

open Binder (Surroundings FunctionContext)

variable {ι : Type}

namespace Context

theorem Defined.fresh {context : Context} (h : context.Defined) (names : List Token) :
    Context.Defined (.fresh names :: context) := h.cons nofun

theorem Defined.ofWord {context : Context} (h : context.Defined) (word : String) :
    Context.Defined (.ofWord word :: context) := by
  refine h.cons fun name => ?_
  rw [OpenScope.get?_ofWord]
  split <;> simp

/-- The second scopes are the first ones with empty scopes in between. In `Widened top` it is said
whether the innermost one is shared. -/
inductive Widened : Bool → Context → Context → Prop
  | nil : Widened true [] []
  | shared {top : Bool} (scope : OpenScope) {outer outer' : Context}
      (houter : Widened top outer outer') : Widened true (scope :: outer) (scope :: outer')
  | extra {top : Bool} {context context' : Context} (h : Widened top context context') :
      Widened false context (.fresh [] :: context')

namespace Widened

variable {top : Bool} {context context' : Context}

theorem head?_eq (h : Widened true context context') : context'.head? = context.head? := by
  cases h <;> rfl

theorem redeclared_eq (h : Widened true context context') (name : Token) :
    (context'.redeclared name : List (Finding ι)) = context.redeclared name := by
  rw [redeclared, redeclared, h.head?_eq]

theorem isPending_eq (h : Widened true context context') (name : String) :
    context'.isPending name = context.isPending name := by
  rw [isPending, isPending, h.head?_eq]

theorem mark (h : Widened true context context') (name : String) (d : Bool) :
    Widened true (context.mark name d) (context'.mark name d) := by
  cases h with
  | nil => exact .nil
  | shared scope houter => exact .shared _ houter

/-- Names are declared in a shared scope. -/
theorem introduceAll (h : Widened top context context') {names : List Token}
    (hnames : names = [] ∨ top = true) :
    Widened top (context.introduceAll names) (context'.introduceAll names) := by
  rcases hnames with rfl | rfl
  · exact h
  · induction names generalizing context context' with
    | nil => exact h
    | cons name names ih => exact ih (h.mark name.lexeme true)

theorem defined (h : Widened top context context') (hdefined : context.Defined) :
    context'.Defined := by
  induction h with
  | nil => exact hdefined
  | shared scope _ ih => exact (ih hdefined.tail).cons (hdefined scope List.mem_cons_self)
  | extra _ ih => exact (ih hdefined).fresh []

/-- Where all names are defined, none is about to be. -/
theorem isPending_of_defined (h : Widened top context context') (hdefined : context.Defined)
    (name : String) : context'.isPending name = context.isPending name := by
  rw [Context.not_isPending hdefined, Context.not_isPending (h.defined hdefined)]

theorem redeclaredAll_eq (h : Widened true context context') (names : List Token) :
    (context'.redeclaredAll names : List (Finding ι)) = context.redeclaredAll names := by
  induction names generalizing context context' with
  | nil => rfl
  | cons name names ih =>
    exact congrArg₂ (· ++ ·) (h.redeclared_eq name) (ih (h.mark name.lexeme true))

end Widened
end Context

/-! ## What is found in a tree with turns -/

/-- The same is found: a broken rule, or a reference, in the second program with empty scopes around
it in between the others. -/
inductive Finding.Widened : Finding ι → Finding ι → Prop
  | error (e : ScopeError) : Widened (.error e) (.error e)
  | use {top : Bool} {context context' : Context} (ref : Ref ι) (kind : RefUse)
      (around : Surroundings) (h : context.Widened top context') :
      Widened (.use ⟨ref, kind, around, context⟩) (.use ⟨ref, kind, around, context'⟩)

theorem Context.Widened.refl (context : Context) : Context.Widened true context context := by
  induction context with
  | nil => exact .nil
  | cons scope _ ih => exact .shared scope ih

theorem Finding.Widened.refl (fs : List (Finding ι)) : List.Forall₂ Finding.Widened fs fs := by
  refine List.forall₂_same.mpr fun f _ => ?_
  cases f with
  | use u => exact .use u.ref u.kind u.around (.refl u.context)
  | error e => exact .error e

section
variable {around : Surroundings} {top : Bool} {context context' : Context}

/-- The errors of a reference depend on nothing but the names that are not defined yet. -/
theorem Use.widened_findings (h : context.Widened top context')
    (hpending : ∀ name, context'.isPending name = context.isPending name) (ref : Ref ι)
    (kind : RefUse) :
    List.Forall₂ Finding.Widened (Use.findings ⟨ref, kind, around, context⟩)
      (Use.findings ⟨ref, kind, around, context'⟩) := by
  have hsame : Use.isPending ⟨ref, kind, around, context'⟩ =
      Use.isPending ⟨ref, kind, around, context⟩ := hpending _
  have herrors : Use.errors ⟨ref, kind, around, context'⟩ =
      Use.errors ⟨ref, kind, around, context⟩ := by
    rw [errors, errors, hsame]
  unfold findings
  rw [herrors]
  refine List.rel_append (Finding.Widened.refl _) ?_
  dsimp only
  split
  · exact .nil
  · exact .cons (.use ref kind around h) .nil

theorem Expr.widened_visit (h : context.Widened top context')
    (hpending : ∀ name, context'.isPending name = context.isPending name) (e : Expr ι) :
    List.Forall₂ Finding.Widened (e.visit around context) (e.visit around context') := by
  unfold visit
  generalize e.references = references
  induction references with
  | nil => exact .nil
  | cons r _ ih => exact List.rel_append (Use.widened_findings h hpending r.2 r.1) ih

theorem Expr.widened_visitOption (h : context.Widened top context')
    (hpending : ∀ name, context'.isPending name = context.isPending name) (e : Option (Expr ι)) :
    List.Forall₂ Finding.Widened (Expr.visitOption around context e)
      (Expr.visitOption around context' e) := by
  cases e with
  | none => exact .nil
  | some e => exact e.widened_visit h hpending

end

/-- The same is found in both statements, also with empty scopes in between around the second. -/
def Stmt.SameFindings (s s' : Stmt ι) : Prop :=
  ∀ {top : Bool} {context context' : Context}, context.Widened top context' → context.Defined →
    s.declares = [] ∨ top = true → ∀ around,
      List.Forall₂ Finding.Widened (s.visit around context) (s'.visit around context')

section
variable {top : Bool} {context context' : Context} {ss ss' : List (Stmt ι)} {f f' : Function ι}
  {ms ms' : List (Function ι)}

theorem Stmt.widened_visitAll
    (h : List.Forall₂ (fun s s' => ∃ _ : s.Unfolds s', s.SameFindings s') ss ss')
    (hwidened : context.Widened true context') (hdefined : context.Defined)
    (around : Surroundings) :
    List.Forall₂ Finding.Widened (Stmt.visitAll around context ss)
      (Stmt.visitAll around context' ss') := by
  induction h generalizing context context' with
  | nil => exact .nil
  | cons hs _ ih =>
    obtain ⟨hunfolds, hsame⟩ := hs
    rw [Stmt.visitAll, Stmt.visitAll, hunfolds.declares_eq]
    exact List.rel_append (hsame hwidened hdefined (.inr rfl) around)
      (ih (hwidened.introduceAll (.inr rfl)) (hdefined.introduceAll _))

theorem unfolds_of_forall₂
    (h : List.Forall₂ (fun s s' => ∃ _ : s.Unfolds s', s.SameFindings s') ss ss') :
    List.Forall₂ Stmt.Unfolds ss ss' := h.imp fun _ _ h => h.1

theorem Function.Pairs.widened_visit
    (h : Function.Pairs (fun s s' => ∃ _ : s.Unfolds s', s.SameFindings s') f f')
    (hwidened : context.Widened top context') (hdefined : context.Defined) (around : Surroundings)
    (kind : FunctionContext) :
    List.Forall₂ Finding.Widened (Function.visit around kind context f)
      (Function.visit around kind context' f') := by
  cases h with
  | @intro name params body body' hbody =>
    have hdeclares := Stmt.Unfolds.declaresAll_eq (unfolds_of_forall₂ hbody)
    have hnames : FunctionOf.scopeNames (⟨name, params, body'⟩ : Function ι) =
        FunctionOf.scopeNames (⟨name, params, body⟩ : Function ι) :=
      congrArg (params ++ ·) hdeclares
    have hinner := Context.Widened.shared (.fresh (FunctionOf.scopeNames (⟨name, params, body⟩ :
      Function ι))) hwidened
    have hparams : Context.Widened true (Context.introduceAll params _)
        (Context.introduceAll params _) := hinner.introduceAll (.inr rfl)
    rw [Function.visit, Function.visit, hnames, hinner.redeclaredAll_eq]
    exact List.rel_append (Finding.Widened.refl _) (Stmt.widened_visitAll hbody hparams
      ((hdefined.fresh _).introduceAll params) ⟨kind, around.classBody⟩)

theorem Function.widened_visitMethods
    (h : List.Forall₂ (Function.Pairs fun s s' => ∃ _ : s.Unfolds s', s.SameFindings s') ms ms')
    (hwidened : context.Widened top context') (hdefined : context.Defined) (around : Surroundings) :
    List.Forall₂ Finding.Widened (Function.visitMethods around context ms)
      (Function.visitMethods around context' ms') := by
  induction h with
  | nil => exact .nil
  | cons hm _ ih =>
    rw [Function.visitMethods, Function.visitMethods, hm.methodContext_eq]
    exact List.rel_append (hm.widened_visit hwidened hdefined around _) ih

end

theorem Stmt.Unfolds.sameFindings {s s' : Stmt ι} (h : s.Unfolds s') : s.SameFindings s' := by
  induction h using Stmt.Unfolds.inductionOn with
  | expression value | print value =>
    intro top context context' hwidened hdefined _ around
    exact value.widened_visit hwidened (hwidened.isPending_of_defined hdefined)
  | var name initial =>
    intro top context context' hwidened hdefined htop around
    obtain rfl := htop.resolve_left (List.cons_ne_nil _ _)
    have hmarked := hwidened.mark name.lexeme false
    rw [visit, visit, hwidened.redeclared_eq]
    exact List.rel_append (Finding.Widened.refl _)
      (Expr.widened_visitOption hmarked hmarked.isPending_eq initial)
  | block hbody ih =>
    intro top context context' hwidened hdefined _ around
    rw [visit, visit, declaresAll_eq hbody]
    exact widened_visitAll ih (.shared _ hwidened) (hdefined.fresh _) around
  | ifThen condition _ ih | whileLoop condition _ ih =>
    intro top context context' hwidened hdefined htop around
    exact List.rel_append
      (condition.widened_visit hwidened (hwidened.isPending_of_defined hdefined))
      (ih hwidened hdefined htop around)
  | @ifElse condition _ _ _ _ _ hbody _ ihbody ihother =>
    intro top context context' hwidened hdefined htop around
    rw [declares, List.append_eq_nil_iff] at htop
    have hbodytop := htop.imp_left And.left
    rw [visit, visit, hbody.declares_eq]
    exact List.rel_append (List.rel_append
      (condition.widened_visit hwidened (hwidened.isPending_of_defined hdefined))
      (ihbody hwidened hdefined hbodytop around))
      (ihother (hwidened.introduceAll hbodytop) (hdefined.introduceAll _)
        (htop.imp_left And.right) around)
  | turn step hbody hnone ih =>
    intro top context context' hwidened hdefined _ around
    -- in the block of a turn nothing is declared, neither before the step nor anywhere
    have hdeclares := hbody.declares_eq.trans hnone
    have hbodies := ih hwidened.extra hdefined (.inl hnone) around
    have hstep : List.Forall₂ Finding.Widened (step.visit around _) (step.visit around _) :=
      step.widened_visit hwidened.extra (hwidened.extra.isPending_of_defined hdefined)
    simp only [visit, visitAll, declaresAll, List.flatMap_cons, List.flatMap_nil,
      hdeclares, hnone, declares, List.append_nil]
    exact List.rel_append hbodies hstep
  | function hf ih =>
    intro top context context' hwidened hdefined htop around
    obtain rfl := htop.resolve_left (List.cons_ne_nil _ _)
    cases ih with
    | intro name params hbody =>
      rw [visit, visit, hwidened.redeclared_eq]
      exact List.rel_append (Finding.Widened.refl _) (Function.Pairs.widened_visit
        (.intro name params hbody) (hwidened.mark _ _) (hdefined.introduceAll [name]) around _)
  | returnFrom keyword value =>
    intro top context context' hwidened hdefined _ around
    exact List.rel_append (Finding.Widened.refl _)
      (Expr.widened_visitOption hwidened (hwidened.isPending_of_defined hdefined) value)
  | classOf name superclass _ ih =>
    intro top context context' hwidened hdefined htop around
    obtain rfl := htop.resolve_left (List.cons_ne_nil _ _)
    have hname : Context.Widened true (context.introduce name) (context'.introduce name) :=
      hwidened.mark name.lexeme true
    have hdefined' : (context.introduce name).Defined := hdefined.introduceAll [name]
    cases superclass with
    | none =>
      rw [visit, visit, hwidened.redeclared_eq]
      exact List.rel_append (Finding.Widened.refl _)
        (Function.widened_visitMethods ih (.shared _ hname) (hdefined'.ofWord _) _)
    | some parent =>
      rw [visit, visit, hwidened.redeclared_eq]
      exact List.rel_append (List.rel_append (Finding.Widened.refl _)
        (Use.widened_findings hname hname.isPending_eq parent .read))
        (Function.widened_visitMethods ih (.shared _ (.shared _ hname))
          ((hdefined'.ofWord _).ofWord _) _)
  | unknown form => exact fun _ _ _ _ => .nil

/-! ## Programs -/

/-- **What a program unfolds to has the same references**, in the same order, with nothing but empty
scopes put in between those that are open around each of them, and breaks the same rules. -/
theorem Stmt.Unfolds.visitProgram {program program' : List (Stmt ι)}
    (h : List.Forall₂ Stmt.Unfolds program program') :
    List.Forall₂ Finding.Widened (visitProgram program) (LoxLang.visitProgram program') :=
  widened_visitAll (h.imp fun _ _ h => ⟨h, h.sameFindings⟩) .nil (List.forall_mem_nil _) _

/-- The errors among the findings are the same. -/
theorem errors_of_widened {fs fs' : List (Finding ι)} (h : List.Forall₂ Finding.Widened fs fs') :
    fs'.filterMap Finding.error? = fs.filterMap Finding.error? := by
  induction h with
  | nil => rfl
  | cons hf _ ih =>
    cases hf with
    | error e => exact congrArg (e :: ·) ih
    | use => exact ih

/-- **Unfolding keeps the errors of the binding pass.**  The pass over a program stops at its limit
just if it does over the program with turns, and else finds the same errors in the same order. -/
theorem bindProgram_unfolds {program program' : List (Stmt Label)}
    (h : List.Forall₂ Stmt.Unfolds program program') (hwf : ∀ s ∈ program', s.WellFormed)
    (depth : Nat) (table table' : BindingTable) :
    let found := bindProgram depth program table
    let found' := bindProgram depth program' table'
    found'.fault = found.fault ∧ (found.fault = none → found'.errors = found.errors) := by
  have hwf' := Stmt.wellFormed_of_forall₂ h (fun _ _ h => h.wellFormed) hwf
  have hheight := Stmt.heightAll_of_forall₂ h fun _ _ h => h.height_eq
  have hfault : (bindProgram depth program' table').fault =
      (bindProgram depth program table).fault := by
    rw [fault_bindProgram_eq hwf, fault_bindProgram_eq hwf', hheight]
  refine ⟨hfault, fun hnone => ?_⟩
  obtain ⟨_, _, _, hfound⟩ := bindProgram_spec (Stmt.known_of_wellFormed hwf') depth table
  obtain ⟨_, _, _, hfound'⟩ := bindProgram_spec (Stmt.known_of_wellFormed hwf) depth table'
  rw [hnone] at hfound
  rw [hfault, hnone] at hfound'
  rw [hfound'.2, hfound.2]
  exact errors_of_widened (Stmt.Unfolds.visitProgram h)

end LoxLang
