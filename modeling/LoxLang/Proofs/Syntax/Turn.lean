import LoxLang.Proofs.Scope.Height
import LoxLang.Proofs.Syntax.Induction
import LoxLang.Proofs.Syntax.Label
import Mathlib.Data.List.Forall2

/-! # Loops whose step stands in no block

In the tree of a `for` statement a block keeps the body of the loop and its step together
(`Stmt.forLoop`).  Here is the loop to which this tree is compared (`Stmt.primitiveFor`): body and
step stand directly where the loop stands.  The two make up a *turn* of the loop, a form of its own
(`Stmt.turn`) that only the evaluator it is meant for knows.  The functions that values hold are made
of `Stmt`, so this form has to be one of these trees, and not of a second syntax beside them: it is
the conditional with a condition that no source text forms (`Expr.turnMark`).  Everything that goes
over a tree then passes through body and step in the right order.

`Stmt.Unfolds` relates a tree with turns to the tree that has blocks in their places.  Both declare
the same names, are well-formed together, nest equally deep and have the same references in the same
order. -/

namespace LoxLang

variable {ι : Type}

/-- The condition that marks a turn: an operator that no token has. -/
@[match_pattern]
def Expr.turnMark : Expr ι := .unary ⟨.other "turn", "", .nil, 0⟩ (.literal .nil)

/-- Whether a condition marks a turn. -/
def Expr.isTurnMark : Expr ι → Bool
  | .unary op _ => op.kind == .other "turn"
  | _ => false

namespace Stmt

/-- A turn of a loop: the body and then the step, both where the loop stands. -/
@[match_pattern]
def turn (body : Stmt ι) (step : Expr ι) : Stmt ι := .ifElse .turnMark body (.expression step)

/-- A `for` statement taken as it is meant. If it has an initializer, there is one scope for the
whole loop, in which the initializer is executed; without one the loop has the scope around it. In
that scope stand the condition, which without one is true, the body and the step. -/
def primitiveFor (initial : Option (Stmt ι)) (condition : Option (Expr ι))
    (step : Option (Expr ι)) (body : Stmt ι) : Stmt ι :=
  let turn := match step with
    | some step => turn body step
    | none => body
  let loop := whileLoop (condition.getD (.literal (.bool true))) turn
  match initial with
  | some initial => block [initial, loop]
  | none => loop

end Stmt

/-! ## Blocks in place of turns -/

/-- Two functions differ in nothing but their statements, which are related one by one. -/
inductive Function.Pairs (R : Stmt ι → Stmt ι → Prop) : Function ι → Function ι → Prop
  | intro (name : Token) (params : List Token) {body body' : List (Stmt ι)}
      (hbody : List.Forall₂ R body body') : Pairs R ⟨name, params, body⟩ ⟨name, params, body'⟩

/-- The second statement is the first one with a block in place of each turn.  The body of a turn
declares nothing. -/
inductive Stmt.Unfolds : Stmt ι → Stmt ι → Prop
  | expression (value : Expr ι) : Unfolds (.expression value) (.expression value)
  | print (value : Expr ι) : Unfolds (.print value) (.print value)
  | var (name : Token) (initial : Option (Expr ι)) : Unfolds (.var name initial) (.var name initial)
  | block {body body' : List (Stmt ι)} (hbody : List.Forall₂ Unfolds body body') :
      Unfolds (.block body) (.block body')
  | ifThen (condition : Expr ι) {body body' : Stmt ι} (hbody : Unfolds body body') :
      Unfolds (.ifThen condition body) (.ifThen condition body')
  | ifElse {condition : Expr ι} (hcondition : condition.isTurnMark = false)
      {body body' other other' : Stmt ι} (hbody : Unfolds body body')
      (hother : Unfolds other other') :
      Unfolds (.ifElse condition body other) (.ifElse condition body' other')
  | whileLoop (condition : Expr ι) {body body' : Stmt ι} (hbody : Unfolds body body') :
      Unfolds (.whileLoop condition body) (.whileLoop condition body')
  | turn (step : Expr ι) {body body' : Stmt ι} (hbody : Unfolds body body')
      (hnone : body.declares = []) :
      Unfolds (.turn body step) (.block [body', .expression step])
  | function {f f' : Function ι} (hf : Function.Pairs Unfolds f f') :
      Unfolds (.function f) (.function f')
  | returnFrom (keyword : Token) (value : Option (Expr ι)) :
      Unfolds (.returnFrom keyword value) (.returnFrom keyword value)
  | classOf (name : Token) (superclass : Option (Ref ι)) {methods methods' : List (Function ι)}
      (hmethods : List.Forall₂ (Function.Pairs Unfolds) methods methods') :
      Unfolds (.classOf name superclass methods) (.classOf name superclass methods')
  | unknown (form : String) : Unfolds (.unknown form) (.unknown form)

/-- The second function is the first one with a block in place of each turn. -/
abbrev Function.Unfolds : Function ι → Function ι → Prop := Function.Pairs Stmt.Unfolds

namespace Function.Pairs

variable {R : Stmt ι → Stmt ι → Prop} {f f' : Function ι} (h : Function.Pairs R f f')
include h

theorem name_eq : f'.name = f.name := by
  cases h
  rfl

theorem params_eq : f'.params = f.params := by
  cases h
  rfl

theorem isInitializer_eq : f'.isInitializer = f.isInitializer := by
  rw [FunctionOf.isInitializer, FunctionOf.isInitializer, h.name_eq]

theorem methodContext_eq : f'.methodContext = f.methodContext := by
  rw [FunctionOf.methodContext, FunctionOf.methodContext, h.isInitializer_eq]

end Function.Pairs

namespace Stmt.Unfolds

section
variable {motive : (s s' : Stmt ι) → s.Unfolds s' → Prop}
  (expression : ∀ value, motive _ _ (.expression value))
  (print : ∀ value, motive _ _ (.print value))
  (var : ∀ name initial, motive _ _ (.var name initial))
  (block : ∀ {body body'} (hbody : List.Forall₂ Unfolds body body'),
    List.Forall₂ (fun s s' => ∃ h, motive s s' h) body body' → motive _ _ (.block hbody))
  (ifThen : ∀ condition {body body' : Stmt ι} (hbody : body.Unfolds body'), motive _ _ hbody →
    motive _ _ (.ifThen condition hbody))
  (ifElse : ∀ {condition : Expr ι} (hcondition : condition.isTurnMark = false)
    {body body' other other' : Stmt ι} (hbody : body.Unfolds body') (hother : other.Unfolds other'),
    motive _ _ hbody → motive _ _ hother → motive _ _ (.ifElse hcondition hbody hother))
  (whileLoop : ∀ condition {body body' : Stmt ι} (hbody : body.Unfolds body'), motive _ _ hbody →
    motive _ _ (.whileLoop condition hbody))
  (turn : ∀ step {body body' : Stmt ι} (hbody : body.Unfolds body') (hnone : body.declares = []),
    motive _ _ hbody → motive _ _ (.turn step hbody hnone))
  (function : ∀ {f f'} (hf : Function.Unfolds f f'),
    Function.Pairs (fun s s' => ∃ h, motive s s' h) f f' → motive _ _ (.function hf))
  (returnFrom : ∀ keyword value, motive _ _ (.returnFrom keyword value))
  (classOf : ∀ name superclass {methods methods'}
    (hmethods : List.Forall₂ Function.Unfolds methods methods'),
    List.Forall₂ (Function.Pairs fun s s' => ∃ h, motive s s' h) methods methods' →
    motive _ _ (.classOf name superclass hmethods))
  (unknown : ∀ form, motive _ _ (.unknown form))

include expression print var block ifThen ifElse whileLoop turn function returnFrom classOf unknown

/-- Induction with one case for each form, and with what holds of all members of a list. -/
@[elab_as_elim]
theorem inductionOn {s s' : Stmt ι} (h : s.Unfolds s') : motive s s' h := by
  have hbodies : ∀ {ss ss' : List (Stmt ι)}, List.Forall₂ Unfolds ss ss' →
      (∀ s ∈ ss, ∀ {s'} (h : s.Unfolds s'), motive s s' h) →
      List.Forall₂ (fun s s' => ∃ h, motive s s' h) ss ss' := fun h ih =>
    ((List.forall₂_and_left _ _).mpr ⟨@ih, h⟩).imp fun _ _ h => ⟨h.2, h.1 h.2⟩
  have hfunction : ∀ {f f' : Function ι}, Function.Unfolds f f' →
      (∀ s ∈ f.body, ∀ {s'} (h : s.Unfolds s'), motive s s' h) →
      Function.Pairs (fun s s' => ∃ h, motive s s' h) f f' := by
    rintro _ _ ⟨name, params, hbody⟩ ih
    exact .intro name params (hbodies hbody ih)
  induction s using Stmt.inductionOn generalizing s' with
  | block body ih =>
    cases h with
    | block hbody => exact block hbody (hbodies hbody ih)
  | ifThen condition body ih =>
    cases h with
    | ifThen _ hbody => exact ifThen condition hbody (ih hbody)
  | ifElse condition body other ihbody ihother =>
    cases h with
    | ifElse hcondition hbody hother =>
      exact ifElse hcondition hbody hother (ihbody hbody) (ihother hother)
    | turn step hbody hnone => exact turn step hbody hnone (ihbody hbody)
  | whileLoop condition body ih =>
    cases h with
    | whileLoop _ hbody => exact whileLoop condition hbody (ih hbody)
  | function f ih =>
    cases h with
    | function hf => exact function hf (hfunction hf ih)
  | classOf name superclass methods ih =>
    cases h with
    | classOf _ _ hmethods =>
      refine classOf name superclass hmethods ?_
      exact ((List.forall₂_and_left _ _).mpr ⟨ih, hmethods⟩).imp fun _ _ hm => hfunction hm.2 hm.1
  | expression value =>
    cases h
    exact expression value
  | print value =>
    cases h
    exact print value
  | var name initial =>
    cases h
    exact var name initial
  | returnFrom keyword value =>
    cases h
    exact returnFrom keyword value
  | unknown form =>
    cases h
    exact unknown form

end

variable {s s' : Stmt ι} {ss ss' : List (Stmt ι)}

/-- The loop with turns unfolds to the loop with blocks. -/
theorem primitiveFor {initial : Option (Stmt ι)} {condition step : Option (Expr ι)}
    (hinitial : ∀ i ∈ initial, i.Unfolds i) (h : s.Unfolds s') (hnone : s.declares = []) :
    (Stmt.primitiveFor initial condition step s).Unfolds (.forLoop initial condition step s') ∧
      (Stmt.primitiveFor initial condition step s).declares = [] := by
  have hloop : ∀ turn turn' : Stmt ι, turn.Unfolds turn' → turn.declares = [] →
      (Stmt.primitiveFor initial condition none turn).Unfolds
          (.forLoop initial condition none turn') ∧
        (Stmt.primitiveFor initial condition none turn).declares = [] := by
    intro turn turn' hturn hnone
    cases initial with
    | none => exact ⟨.whileLoop _ hturn, hnone⟩
    | some i => exact ⟨.block (.cons (hinitial i rfl) (.cons (.whileLoop _ hturn) .nil)), rfl⟩
  cases step with
  | none => exact hloop s s' h hnone
  | some e => exact hloop _ _ (.turn e h hnone) (by simp [declares, hnone])

theorem declares_eq (h : s.Unfolds s') : s'.declares = s.declares := by
  induction h using inductionOn with
  | ifThen _ _ ih | whileLoop _ _ ih => rw [declares, declares, ih]
  | ifElse _ _ _ ihbody ihother => rw [declares, declares, ihbody, ihother]
  | turn _ _ hnone _ => simp [declares, hnone]
  | function hf =>
    cases hf
    rfl
  | _ => rfl

theorem declaresAll_eq (h : List.Forall₂ Stmt.Unfolds ss ss') :
    declaresAll ss' = declaresAll ss := by
  unfold declaresAll
  induction h with
  | nil => rfl
  | cons hs _ ih => rw [List.flatMap_cons, List.flatMap_cons, hs.declares_eq, ih]

end Stmt.Unfolds

/-! ## Well-formed trees -/

section
variable {s s' : Stmt ι} {ss ss' : List (Stmt ι)} {f f' : Function ι} {ms ms' : List (Function ι)}
  {P : Stmt ι → Stmt ι → Prop}

theorem Stmt.wellFormed_of_forall₂ (h : List.Forall₂ P ss ss')
    (hP : ∀ s s', P s s' → s'.WellFormed → s.WellFormed) (hwf : ∀ s ∈ ss', s.WellFormed) :
    ∀ s ∈ ss, s.WellFormed := by
  induction h with
  | nil => exact List.forall_mem_nil _
  | cons hs _ ih =>
    obtain ⟨hs', hss'⟩ := List.forall_mem_cons.mp hwf
    exact List.forall_mem_cons.mpr ⟨hP _ _ hs hs', ih hss'⟩

theorem Function.Pairs.wellFormed (h : Function.Pairs P f f')
    (hP : ∀ s s', P s s' → s'.WellFormed → s.WellFormed) (hwf : f'.WellFormed) : f.WellFormed := by
  cases h with
  | intro name params hbody => exact ⟨hwf.params, Stmt.wellFormed_of_forall₂ hbody hP hwf.body⟩

theorem Function.wellFormed_of_forall₂ (h : List.Forall₂ (Function.Pairs P) ms ms')
    (hP : ∀ s s', P s s' → s'.WellFormed → s.WellFormed) (hwf : ∀ m ∈ ms', m.WellFormed) :
    ∀ m ∈ ms, m.WellFormed := by
  induction h with
  | nil => exact List.forall_mem_nil _
  | cons hm _ ih =>
    obtain ⟨hm', hms'⟩ := List.forall_mem_cons.mp hwf
    exact List.forall_mem_cons.mpr ⟨hm.wellFormed hP hm', ih hms'⟩

/-- What unfolds to a well-formed statement is well-formed. -/
theorem Stmt.Unfolds.wellFormed (h : s.Unfolds s') (hwf : s'.WellFormed) : s.WellFormed := by
  have hP : ∀ s s' : Stmt ι, (∃ _ : s.Unfolds s', s'.WellFormed → s.WellFormed) →
      s'.WellFormed → s.WellFormed := fun _ _ h => h.2
  induction h using Stmt.Unfolds.inductionOn with
  | block _ ih =>
    cases hwf with
    | block hbody => exact .block (wellFormed_of_forall₂ ih hP hbody)
  | ifThen _ hbody ih =>
    cases hwf with
    | ifThen hcondition hbodywf hnone =>
      exact .ifThen hcondition (ih hbodywf) (hbody.declares_eq.symm.trans hnone)
  | whileLoop _ hbody ih =>
    cases hwf with
    | whileLoop hcondition hbodywf hnone =>
      exact .whileLoop hcondition (ih hbodywf) (hbody.declares_eq.symm.trans hnone)
  | ifElse _ hbody hother ihbody ihother =>
    cases hwf with
    | ifElse hcondition hbodywf hnone hotherwf hnone' =>
      exact .ifElse hcondition (ihbody hbodywf) (hbody.declares_eq.symm.trans hnone)
        (ihother hotherwf) (hother.declares_eq.symm.trans hnone')
  | turn step _ hnone ih =>
    cases hwf with
    | block hparts =>
      obtain ⟨hbody, hstep⟩ := List.forall_mem_cons.mp hparts
      exact .ifElse (.unary (.literal _)) (ih hbody) hnone
        (hstep _ (List.mem_singleton_self _)) rfl
  | function _ ih =>
    cases hwf with
    | function hname hparams hbody =>
      have hf := ih.wellFormed hP ⟨hparams, hbody⟩
      cases ih with
      | intro => exact .function hname hf.params hf.body
  | classOf _ _ _ ih =>
    have hms := Function.wellFormed_of_forall₂ ih hP hwf.methods
    cases hwf with
    | classOf hname hsuperclass =>
      exact .classOf hname hsuperclass (fun m hm => (hms m hm).params) fun m hm => (hms m hm).body
  | _ => exact hwf

end

/-! ## Heights -/

section
variable {s s' : Stmt ι} {ss ss' : List (Stmt ι)} {f f' : Function ι} {ms ms' : List (Function ι)}
  {P : Stmt ι → Stmt ι → Prop}

theorem Stmt.heightAll_of_forall₂ (h : List.Forall₂ P ss ss')
    (hP : ∀ s s', P s s' → s'.height = s.height) : heightAll ss' = heightAll ss := by
  induction h with
  | nil => rfl
  | cons hs _ ih => rw [heightAll, heightAll, hP _ _ hs, ih]

theorem Function.Pairs.height_eq (h : Function.Pairs P f f')
    (hP : ∀ s s', P s s' → s'.height = s.height) : Function.height f' = Function.height f := by
  cases h with
  | intro name params hbody => exact Stmt.heightAll_of_forall₂ hbody hP

theorem Function.heightAll_of_forall₂ (h : List.Forall₂ (Function.Pairs P) ms ms')
    (hP : ∀ s s', P s s' → s'.height = s.height) : heightAll ms' = heightAll ms := by
  induction h with
  | nil => rfl
  | cons hm _ ih => rw [heightAll, heightAll, hm.height_eq hP, ih]

/-- The mark of a turn nests no deeper than its step. -/
theorem Stmt.height_turn (body : Stmt ι) (step : Expr ι) :
    (turn body step).height = (block [body, expression step]).height := by
  have hstep : 1 ≤ step.height := by cases step <;> simp [Expr.height]
  have hmark : (Expr.turnMark : Expr ι).height = 2 := rfl
  simp only [height, heightAll, hmark]
  omega

theorem Stmt.Unfolds.height_eq (h : s.Unfolds s') : s'.height = s.height := by
  have hP : ∀ s s' : Stmt ι, (∃ _ : s.Unfolds s', s'.height = s.height) → s'.height = s.height :=
    fun _ _ h => h.2
  induction h using Stmt.Unfolds.inductionOn with
  | block _ ih => rw [height, height, heightAll_of_forall₂ ih hP]
  | ifThen _ _ ih | whileLoop _ _ ih => rw [height, height, ih]
  | ifElse _ _ _ ihbody ihother => rw [height, height, ihbody, ihother]
  | turn step _ _ ih =>
    rw [height_turn]
    simp only [height, heightAll, ih]
  | function _ ih => rw [height, height, ih.height_eq hP]
  | classOf _ _ _ ih => rw [height, height, Function.heightAll_of_forall₂ ih hP]
  | _ => rfl

end

/-! ## Labels -/

theorem Expr.isTurnMark_relabel (n : Label) (e : Expr ι) :
    (e.relabel n).1.isTurnMark = e.isTurnMark := by
  cases e <;> rfl

theorem Stmt.declares_relabel (n : Label) (s : Stmt ι) : (s.relabel n).1.declares = s.declares := by
  have h := congrArg declares (s.unmark_relabel (n := n))
  rwa [unmark, unmark, declares_map, declares_map, List.map_id, List.map_id] at h

section
variable {s s' : Stmt ι} {ss ss' : List (Stmt ι)} {f f' : Function ι} {ms ms' : List (Function ι)}
  {P : Stmt ι → Stmt ι → Prop}

/-- Labelled from the same number on, the second statement is the first one unfolded, and the same
labels are left. -/
def Stmt.UnfoldsLabelled (s s' : Stmt ι) : Prop :=
  ∀ n, (s.relabel n).1.Unfolds (s'.relabel n).1 ∧ (s'.relabel n).2 = (s.relabel n).2

theorem Stmt.relabelAll_of_forall₂ (h : List.Forall₂ P ss ss')
    (hP : ∀ s s', P s s' → s.UnfoldsLabelled s') (n : Label) :
    List.Forall₂ Unfolds (relabelAll n ss).1 (relabelAll n ss').1 ∧
      (relabelAll n ss').2 = (relabelAll n ss).2 := by
  induction h generalizing n with
  | nil => exact ⟨.nil, rfl⟩
  | cons hs _ ih =>
    obtain ⟨hunfolds, hnext⟩ := hP _ _ hs n
    simp only [relabelAll, hnext]
    exact ⟨.cons hunfolds (ih _).1, (ih _).2⟩

theorem Function.Pairs.relabel (h : Function.Pairs P f f')
    (hP : ∀ s s', P s s' → s.UnfoldsLabelled s') (n : Label) :
    Function.Unfolds (Function.relabel n f).1 (Function.relabel n f').1 ∧
      (Function.relabel n f').2 = (Function.relabel n f).2 := by
  cases h with
  | intro name params hbody =>
    obtain ⟨hunfolds, hnext⟩ := Stmt.relabelAll_of_forall₂ hbody hP n
    exact ⟨.intro name params hunfolds, hnext⟩

theorem Function.relabelAll_of_forall₂ (h : List.Forall₂ (Function.Pairs P) ms ms')
    (hP : ∀ s s', P s s' → s.UnfoldsLabelled s') (n : Label) :
    List.Forall₂ Function.Unfolds (relabelAll n ms).1 (relabelAll n ms').1 ∧
      (relabelAll n ms').2 = (relabelAll n ms).2 := by
  induction h generalizing n with
  | nil => exact ⟨.nil, rfl⟩
  | cons hm _ ih =>
    obtain ⟨hunfolds, hnext⟩ := hm.relabel hP n
    simp only [relabelAll, hnext]
    exact ⟨.cons hunfolds (ih _).1, (ih _).2⟩

theorem Stmt.Unfolds.relabel (h : s.Unfolds s') : s.UnfoldsLabelled s' := by
  have hP : ∀ s s' : Stmt ι, (∃ _ : s.Unfolds s', s.UnfoldsLabelled s') → s.UnfoldsLabelled s' :=
    fun _ _ h => h.2
  induction h using Stmt.Unfolds.inductionOn with
  | expression value | print value | var name initial | returnFrom keyword value | unknown form =>
    exact fun n => ⟨by constructor, rfl⟩
  | block _ ih =>
    intro n
    obtain ⟨hunfolds, hnext⟩ := relabelAll_of_forall₂ ih hP n
    exact ⟨.block hunfolds, hnext⟩
  | ifThen condition _ ih =>
    intro n
    obtain ⟨hunfolds, hnext⟩ := ih (condition.relabel n).2
    exact ⟨.ifThen _ hunfolds, hnext⟩
  | whileLoop condition _ ih =>
    intro n
    obtain ⟨hunfolds, hnext⟩ := ih (condition.relabel n).2
    exact ⟨.whileLoop _ hunfolds, hnext⟩
  | @ifElse condition hcondition _ _ _ _ _ _ ihbody ihother =>
    intro n
    obtain ⟨hbody, hnext⟩ := ihbody (condition.relabel n).2
    simp only [Stmt.relabel, hnext]
    obtain ⟨hother, hnext'⟩ := ihother (Stmt.relabel (condition.relabel n).2 _).2
    exact ⟨.ifElse ((condition.isTurnMark_relabel n).trans hcondition) hbody hother, hnext'⟩
  | turn step hbody hnone ih =>
    intro n
    obtain ⟨hunfolds, hnext⟩ := ih n
    simp only [Stmt.relabel, relabelAll, hnext]
    exact ⟨.turn _ hunfolds ((declares_relabel n _).trans hnone), rfl⟩
  | function _ ih =>
    intro n
    obtain ⟨hunfolds, hnext⟩ := ih.relabel hP n
    exact ⟨.function hunfolds, hnext⟩
  | classOf name superclass _ ih =>
    intro n
    cases superclass with
    | none =>
      obtain ⟨hunfolds, hnext⟩ := Function.relabelAll_of_forall₂ ih hP n
      exact ⟨.classOf name none hunfolds, hnext⟩
    | some parent =>
      obtain ⟨hunfolds, hnext⟩ := Function.relabelAll_of_forall₂ ih hP (n + 1)
      exact ⟨.classOf name _ hunfolds, hnext⟩

end

end LoxLang
