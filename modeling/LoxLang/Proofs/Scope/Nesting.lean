import LoxLang.Proofs.Computation
import LoxLang.Proofs.Syntax.Map
import LoxLang.Scope.Binder

/-! # Where the binding pass stops

The binding pass stops at a part of a program that nests too deep.  Whether it does is seen from the
forms of the program alone: neither what the pass has found so far nor the tokens matter.  So a
program made of two programs that the pass gets through is one that it gets through. -/

namespace LoxLang

namespace Binder

/-- The fault that stops a step of the pass, if one does. -/
def faultOf (x : Pass Unit) (s : State) : Option Fault :=
  match x s with
  | .ok _ _ => none
  | .error f _ => some f

/-- A step never stops. -/
def Steady (x : Pass Unit) : Prop := ∀ s, faultOf x s = none

/-- Two steps stop for the same fault or not at all, from whatever states. -/
def Alike (x y : Pass Unit) : Prop := ∀ s s', faultOf x s = faultOf y s'

section
variable {x y x' y' : Pass Unit}

theorem steady_modify (f : State → State) : Steady (modify f) := fun _ => rfl

theorem Steady.bind (hx : Steady x) (hy : Steady y) : Steady (do x; y) := by
  intro s
  have hfault := hx s
  unfold faultOf at hfault ⊢
  rw [EStateM.bind_apply]
  split at hfault
  · rename_i s' hs'
    rw [hs']
    exact hy s'
  · cases hfault

theorem Steady.alike (hx : Steady x) (hy : Steady y) : Alike x y :=
  fun s s' => (hx s).trans (hy s').symm

theorem Alike.refl_left (h : Alike x y) : Alike x x :=
  fun s s' => (h s s).trans (h s' s).symm

theorem alike_throw (f : Fault) : Alike (throw f) (throw f) := fun _ _ => rfl

theorem Alike.bind (hx : Alike x x') (hy : Alike y y') : Alike (do x; y) (do x'; y') := by
  intro s s'
  have hfault := hx s s'
  unfold faultOf at hfault ⊢
  rw [EStateM.bind_apply, EStateM.bind_apply]
  cases hxs : x s with
  | ok a t =>
    cases hxs' : x' s' with
    | ok a' t' => exact hy t t'
    | error f t' => simp [hxs, hxs'] at hfault
  | error f t =>
    cases hxs' : x' s' with
    | ok a' t' => simp [hxs, hxs'] at hfault
    | error f' t' => simpa [hxs, hxs'] using hfault

/-- Steps that are alike for each member of a list and its image are alike for the lists. -/
theorem Alike.forM {α β : Type} {change : α → β} {run : α → Pass Unit} {run' : β → Pass Unit}
    {as : List α} (h : ∀ a ∈ as, Alike (run a) (run' (change a))) :
    Alike (as.forM run) ((as.map change).forM run') := by
  induction as with
  | nil => exact fun _ _ => rfl
  | cons a as ih =>
    exact (h a List.mem_cons_self).bind (ih fun a' ha' => h a' (List.mem_cons_of_mem a ha'))

theorem Alike.inScope (h : Alike x x') : Alike (inScope x) (inScope x') :=
  ((steady_modify _).alike (steady_modify _)).bind
    (h.bind ((steady_modify _).alike (steady_modify _)))

end

/-! ## The single steps -/

theorem steady_pure : Steady (pure ()) := fun _ => rfl

theorem steady_report (fault : ScopeFault) (place : Token) : Steady (report fault place) :=
  steady_modify _

theorem steady_mark (name : String) (defined : Bool) : Steady (mark name defined) :=
  steady_modify _

theorem steady_get {f : State → Pass Unit} (h : ∀ s, Steady (f s)) : Steady (get >>= f) :=
  fun s => h s s

theorem steady_ite {x y : Pass Unit} {p : Prop} [Decidable p] (hx : Steady x) (hy : Steady y) :
    Steady (if p then x else y) := by
  split
  · exact hx
  · exact hy

theorem steady_declare (name : Token) : Steady (declare name) :=
  steady_get fun _ => steady_ite ((steady_report _ _).bind (steady_mark _ _)) (steady_mark _ _)

theorem steady_introduce (name : Token) : Steady (introduce name) :=
  (steady_declare name).bind (steady_mark _ _)

theorem steady_bind (around : Surroundings) (use : RefUse) (ref : Ref Label) :
    Steady (bind around use ref) := steady_modify _

theorem steady_readName (around : Surroundings) (ref : Ref Label) :
    Steady (readName around ref) :=
  steady_get fun _ => steady_ite ((steady_report _ _).bind (steady_bind _ _ _)) (steady_bind _ _ _)

theorem steady_thisRef (around : Surroundings) (depth : Nat) (ref : Ref Label) :
    Steady (expression around (depth + 1) (.thisRef ref)) :=
  steady_ite (steady_report _ _) (steady_bind _ _ _)

theorem steady_superRef (around : Surroundings) (depth : Nat) (ref : Ref Label) (method : Token) :
    Steady (expression around (depth + 1) (.superRef ref method)) := by
  obtain ⟨f, c⟩ := around
  cases c with
  | outside | plain => exact (steady_report _ _).bind (steady_bind _ _ _)
  | derived => exact steady_bind _ _ _

/-! ## Expressions and statements -/

variable {g : Label → Label} {φ : Token → Token}

/-- The pass stops at an expression or does not, whatever its tokens are and wherever it stands. -/
theorem alike_expression (depth : Nat) (around around' : Surroundings) (e : Expr Label) :
    Alike (expression around depth e) (expression around' depth (e.map g φ)) := by
  induction depth generalizing e with
  | zero => exact alike_throw _
  | succ depth ih =>
    cases e with
    | literal value => exact steady_pure.alike steady_pure
    | nameRef ref => exact (steady_readName _ _).alike (steady_readName _ _)
    | thisRef ref => exact (steady_thisRef _ _ _).alike (steady_thisRef _ _ _)
    | superRef ref method => exact (steady_superRef _ _ _ _).alike (steady_superRef _ _ _ _)
    | assign ref value => exact (ih value).bind ((steady_bind _ _ _).alike (steady_bind _ _ _))
    | unary _ e | group e | get e _ => exact ih e
    | binary left _ right | logical left _ right => exact (ih left).bind (ih right)
    | call callee paren arguments =>
      rw [Expr.map, Expr.mapAll_eq]
      exact (ih callee).bind (Alike.forM fun a _ => ih a)
    | set object _ value => exact (ih value).bind (ih object)
    | unknown form => exact alike_throw _

theorem alike_function {f : Function Label} {depth : Nat} (around around' : Surroundings)
    (kind kind' : FunctionContext)
    (h : ∀ s ∈ f.body, ∀ around around',
      Alike (statement depth around s) (statement depth around' (s.map g φ))) :
    Alike (function around kind (statement depth) f)
      (function around' kind' (statement depth) (Function.map g φ f)) := by
  have hparams : Alike (f.params.forM introduce) ((f.params.map φ).forM introduce) :=
    Alike.forM fun _ _ => (steady_introduce _).alike (steady_introduce _)
  rw [Function.map_eq]
  exact (hparams.bind (Alike.forM fun s hs => h s hs _ _)).inScope

theorem alike_methods {ms : List (Function Label)} {depth : Nat} (around around' : Surroundings)
    (h : ∀ m ∈ ms, ∀ s ∈ m.body, ∀ around around',
      Alike (statement depth around s) (statement depth around' (s.map g φ))) :
    Alike (methods around (statement depth) ms)
      (methods around' (statement depth) (Function.mapAll g φ ms)) := by
  have hmark : Alike (mark "this" true) (mark "this" true) :=
    (steady_mark _ _).alike (steady_mark _ _)
  have hms : Alike
      (ms.forM fun m =>
        function around (if m.isInitializer then .initializer else .method) (statement depth) m)
      ((ms.map (Function.map g φ)).forM fun m =>
        function around' (if m.isInitializer then .initializer else .method) (statement depth) m) :=
    Alike.forM fun m hm => alike_function _ _ _ _ (h m hm)
  rw [Function.mapAll_eq]
  exact (hmark.bind hms).inScope

theorem alike_initial (depth : Nat) (around around' : Surroundings) (e : Option (Expr Label)) :
    Alike (e.forM fun e => expression around depth e)
      ((e.map (Expr.map g φ)).forM fun e => expression around' depth e) := by
  cases e with
  | none => exact steady_pure.alike steady_pure
  | some e => exact alike_expression depth around around' e

/-- A broken rule stops nothing. -/
theorem exists_faultOf_afterReport (p : Prop) [Decidable p] (fault : ScopeFault) (place : Token)
    (x : Pass Unit) (s : State) :
    ∃ t, faultOf (do
      if p then report fault place
      x) s = faultOf x t := by
  by_cases hp : p
  · refine ⟨{ s with errors := s.errors ++ [⟨fault, place⟩] }, ?_⟩
    rw [if_pos hp]
    rfl
  · refine ⟨s, ?_⟩
    rw [if_neg hp]

theorem Alike.afterReport {x x' : Pass Unit} (h : Alike x x') (p p' : Prop) [Decidable p]
    [Decidable p'] (fault fault' : ScopeFault) (place place' : Token) :
    Alike (do
        if p then report fault place
        x)
      (do
        if p' then report fault' place'
        x') := by
  intro s s'
  obtain ⟨t, ht⟩ := exists_faultOf_afterReport p fault place x s
  obtain ⟨t', ht'⟩ := exists_faultOf_afterReport p' fault' place' x' s'
  exact (ht.trans (h t t')).trans ht'.symm

/-- The pass stops at a statement or does not, whatever its tokens are and wherever it stands. -/
theorem alike_statement (depth : Nat) (around around' : Surroundings) (s : Stmt Label) :
    Alike (statement depth around s) (statement depth around' (s.map g φ)) := by
  induction depth generalizing s around around' with
  | zero => exact alike_throw _
  | succ depth ih =>
    cases s with
    | expression value | print value => exact alike_expression depth around around' value
    | var name initial =>
      exact ((steady_declare _).alike (steady_declare _)).bind
        ((alike_initial depth around around' initial).bind
          ((steady_mark _ _).alike (steady_mark _ _)))
    | block body =>
      rw [Stmt.map, Stmt.mapAll_eq]
      exact (Alike.forM fun s _ => ih around around' s).inScope
    | ifThen condition body | whileLoop condition body =>
      exact (alike_expression depth around around' condition).bind (ih around around' body)
    | ifElse condition body other =>
      exact (alike_expression depth around around' condition).bind
        ((ih around around' body).bind (ih around around' other))
    | function declaration =>
      exact ((steady_introduce _).alike (steady_introduce _)).bind
        (alike_function _ _ _ _ fun s _ around around' => ih around around' s)
    | returnFrom keyword value =>
      refine Alike.afterReport ?_ _ _ _ _ _ _
      cases value with
      | none => exact steady_pure.alike steady_pure
      | some e => exact (alike_expression depth around around' e).afterReport _ _ _ _ _ _
    | classOf name superclass ms =>
      have hname : Alike (introduce name) (introduce (φ name)) :=
        (steady_introduce _).alike (steady_introduce _)
      have hmethods (around around' : Surroundings) :
          Alike (methods around (statement depth) ms)
            (methods around' (statement depth) (Function.mapAll g φ ms)) :=
        alike_methods around around' fun _ _ s _ around around' => ih around around' s
      cases superclass with
      | none => exact hname.bind (hmethods _ _)
      | some parent =>
        have hparent : Alike (readName around parent) (readName around' (parent.map g φ)) :=
          (steady_readName _ _).alike (steady_readName _ _)
        have hsuper : Alike (mark "super" true) (mark "super" true) :=
          (steady_mark _ _).alike (steady_mark _ _)
        refine hname.bind (Alike.afterReport (hparent.bind ?_) _ _ _ _ _ _)
        exact (hsuper.bind (hmethods _ _)).inScope
    | unknown form => exact alike_throw _

end Binder

theorem fault_bindProgram (depth : Nat) (program : List (Stmt Label)) (table : BindingTable) :
    (bindProgram depth program table).fault =
      Binder.faultOf (program.forM fun s => Binder.statement depth ⟨.outside, .outside⟩ s)
        ⟨[], [], table⟩ := by
  unfold bindProgram Binder.faultOf
  split
  · rename_i h
    rw [h]
  · rename_i h
    rw [h]

/-- Whether the binding pass gets through a program is seen without its tokens, its labels and what
was bound before. -/
theorem fault_bindProgram_map (depth : Nat) (program : List (Stmt Label)) (g : Label → Label)
    (φ : Token → Token) (table table' : BindingTable) :
    (bindProgram depth (program.map (Stmt.map g φ)) table).fault =
      (bindProgram depth program table').fault := by
  rw [fault_bindProgram, fault_bindProgram]
  exact (Binder.Alike.forM (fun s _ => Binder.alike_statement depth _ _ s) _ _).symm

/-- **A program made of two programs nests no deeper than they do**: the binding pass gets through it
if it gets through both. -/
theorem fault_bindProgram_append {depth : Nat} {program more : List (Stmt Label)}
    {first second : BindingTable} (h : (bindProgram depth program first).fault = none)
    (h' : (bindProgram depth more second).fault = none) (table : BindingTable) :
    (bindProgram depth (program ++ more) table).fault = none := by
  let run := fun s : Stmt Label => Binder.statement depth ⟨.outside, .outside⟩ s
  have halike : ∀ ss : List (Stmt Label), Binder.Alike (ss.forM run) (ss.forM run) := by
    intro ss
    have h : Binder.Alike (ss.forM run) ((ss.map (Stmt.map id id)).forM run) :=
      Binder.Alike.forM fun s _ => Binder.alike_statement depth _ _ s
    exact h.refl_left
  have hprogram : Binder.Steady (program.forM run) := fun s =>
    (halike program s _).trans ((fault_bindProgram depth program first).symm.trans h)
  have hmore : Binder.Steady (more.forM run) := fun s =>
    (halike more s _).trans ((fault_bindProgram depth more second).symm.trans h')
  have happend : (program ++ more).forM run =
      (do program.forM run; more.forM run) := List.forM_append
  rw [fault_bindProgram, happend]
  exact hprogram.bind hmore _

end LoxLang
