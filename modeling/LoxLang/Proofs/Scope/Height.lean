import LoxLang.Proofs.Scope.Nesting
import LoxLang.Proofs.Syntax.WellFormed

/-! # How deep the binding pass goes

The height of a program is the number of its statements and expressions that contain one another.
The binding pass gets through a program if and only if the height is within the limit
(`fault_bindProgram_eq`); nothing else stops it. -/

namespace LoxLang

variable {ι : Type}

/-! ## Heights -/

mutual

/-- The number of expressions, from an expression inward, that contain one another. -/
def Expr.height : Expr ι → Nat
  | .literal _ | .nameRef _ | .thisRef _ | .superRef _ _ | .unknown _ => 1
  | .assign _ inner | .unary _ inner | .group inner | .get inner _ => inner.height + 1
  | .binary left _ right | .logical left _ right => max left.height right.height + 1
  | .call callee _ arguments => max callee.height (Expr.heightAll arguments) + 1
  | .set object _ value => max value.height object.height + 1

/-- The greatest height of some expressions. -/
def Expr.heightAll : List (Expr ι) → Nat
  | [] => 0
  | e :: es => max e.height (Expr.heightAll es)

end

/-- The height of an expression that may be absent. -/
def Expr.heightOption : Option (Expr ι) → Nat
  | none => 0
  | some e => e.height

mutual

/-- The number of statements and expressions, from a statement inward, that contain one another. -/
def Stmt.height : Stmt ι → Nat
  | .expression value | .print value => value.height + 1
  | .var _ value | .returnFrom _ value => Expr.heightOption value + 1
  | .block body => Stmt.heightAll body + 1
  | .ifThen condition body | .whileLoop condition body => max condition.height body.height + 1
  | .ifElse condition body other => max condition.height (max body.height other.height) + 1
  | .function f => Function.height f + 1
  | .classOf _ _ methods => Function.heightAll methods + 1
  | .unknown _ => 1

/-- The greatest height of some statements. -/
def Stmt.heightAll : List (Stmt ι) → Nat
  | [] => 0
  | s :: ss => max s.height (Stmt.heightAll ss)

/-- The height of the body of a function. -/
def Function.height : Function ι → Nat
  | ⟨_, _, body⟩ => Stmt.heightAll body

/-- The greatest height of the bodies of some functions. -/
def Function.heightAll : List (Function ι) → Nat
  | [] => 0
  | f :: fs => max (Function.height f) (Function.heightAll fs)

end

/-! ## What a step of the pass needs -/

namespace Binder

/-- At a limit, a step goes as deep as a height: it is stopped just if the height is beyond the
limit. -/
def Needs (height depth : Nat) (x : Pass Unit) : Prop :=
  ∀ s, faultOf x s = if height ≤ depth then none else some .tooDeep

section
variable {h k depth : Nat} {x y : Pass Unit}

theorem Steady.needs (hx : Steady x) : Needs 0 depth x :=
  fun s => (hx s).trans (if_pos (Nat.zero_le depth)).symm

theorem Needs.succ (hx : Needs h depth x) : Needs (h + 1) (depth + 1) x := by
  simpa only [Needs, Nat.add_le_add_iff_right] using hx

/-- Without a limit left there is nothing that can be done. -/
theorem needs_tooDeep : Needs (h + 1) 0 (throw .tooDeep) :=
  fun _ => (if_neg (Nat.not_succ_le_zero h)).symm

theorem Needs.bind (hx : Needs h depth x) (hy : Needs k depth y) :
    Needs (max h k) depth (do x; y) := by
  intro s
  have hfault := hx s
  unfold faultOf at hfault ⊢
  rw [EStateM.bind_apply]
  cases hxs : x s with
  | error f s' =>
    rw [hxs] at hfault
    have hh : ¬ h ≤ depth := fun hh => by simp [hh] at hfault
    rw [if_neg hh] at hfault
    rw [if_neg fun hmax => hh (Nat.le_trans (Nat.le_max_left h k) hmax)]
    exact hfault
  | ok a s' =>
    rw [hxs] at hfault
    have hh : h ≤ depth := Decidable.byContradiction fun hh => by simp [hh] at hfault
    have hmax : max h k ≤ depth ↔ k ≤ depth := by omega
    simp only [hmax]
    exact hy s'

theorem Needs.steady_bind (hx : Steady x) (hy : Needs h depth y) : Needs h depth (do x; y) := by
  simpa using hx.needs.bind hy

theorem Needs.bind_steady (hx : Needs h depth x) (hy : Steady y) : Needs h depth (do x; y) := by
  simpa using hx.bind hy.needs

theorem Needs.inScope (hx : Needs h depth x) : Needs h depth (inScope x) :=
  .steady_bind (steady_modify _) (hx.bind_steady (steady_modify _))

/-- A broken rule stops nothing. -/
theorem Needs.afterReport (hx : Needs h depth x) (p : Prop) [Decidable p] (fault : ScopeFault)
    (place : Token) :
    Needs h depth (do
      if p then report fault place
      x) := by
  intro s
  obtain ⟨t, ht⟩ := exists_faultOf_afterReport p fault place x s
  exact ht.trans (hx t)

end

/-! ## Expressions and statements -/

theorem needs_expressions {run : Expr Label → Pass Unit} {depth : Nat} {es : List (Expr Label)}
    (h : ∀ e ∈ es, Needs e.height depth (run e)) :
    Needs (Expr.heightAll es) depth (es.forM run) := by
  induction es with
  | nil => exact steady_pure.needs
  | cons e es ih =>
    obtain ⟨he, hes⟩ := List.forall_mem_cons.mp h
    exact he.bind (ih hes)

theorem needs_expression {e : Expr Label} (he : e.Known) (depth : Nat)
    (around : Surroundings) : Needs e.height depth (expression around depth e) := by
  induction depth generalizing e with
  | zero => cases he <;> exact needs_tooDeep
  | succ depth ih =>
    cases he with
    | literal => exact steady_pure.needs.succ
    | nameRef ref => exact (steady_readName around ref).needs.succ
    | thisRef ref => exact (steady_thisRef around depth ref).needs.succ
    | superRef ref method => exact (steady_superRef around depth ref method).needs.succ
    | assign hvalue => exact ((ih hvalue).bind_steady (steady_bind _ _ _)).succ
    | unary h | group h | get h => exact (ih h).succ
    | binary hleft hright | logical hleft hright => exact ((ih hleft).bind (ih hright)).succ
    | call hcallee harguments =>
      exact ((ih hcallee).bind (needs_expressions fun a ha => ih (harguments a ha))).succ
    | set hobject hvalue => exact ((ih hvalue).bind (ih hobject)).succ

theorem needs_statements {run : Stmt Label → Pass Unit} {depth : Nat} {ss : List (Stmt Label)}
    (h : ∀ s ∈ ss, Needs s.height depth (run s)) :
    Needs (Stmt.heightAll ss) depth (ss.forM run) := by
  induction ss with
  | nil => exact steady_pure.needs
  | cons s ss ih =>
    obtain ⟨hs, hss⟩ := List.forall_mem_cons.mp h
    exact hs.bind (ih hss)

theorem steady_introduceAll (names : List Token) : Steady (names.forM introduce) := by
  induction names with
  | nil => exact steady_pure
  | cons name names ih => exact (steady_introduce name).bind ih

theorem needs_function {f : Function Label} {run : Surroundings → Stmt Label → Pass Unit}
    {depth : Nat} (around : Surroundings) (kind : FunctionContext)
    (h : ∀ s ∈ f.body, ∀ around, Needs s.height depth (run around s)) :
    Needs (Function.height f) depth (function around kind run f) := by
  obtain ⟨name, params, body⟩ := f
  exact (Needs.steady_bind (steady_introduceAll params) (needs_statements fun s hs => h s hs _)).inScope

theorem needs_methods {ms : List (Function Label)} {run : Surroundings → Stmt Label → Pass Unit}
    {depth : Nat} (around : Surroundings)
    (h : ∀ m ∈ ms, ∀ s ∈ m.body, ∀ around, Needs s.height depth (run around s)) :
    Needs (Function.heightAll ms) depth (methods around run ms) := by
  refine (Needs.steady_bind (steady_mark _ _) ?_).inScope
  induction ms with
  | nil => exact steady_pure.needs
  | cons m ms ih =>
    obtain ⟨hm, hms⟩ := List.forall_mem_cons.mp h
    exact (needs_function _ _ hm).bind (ih hms)

theorem needs_option {value : Option (Expr Label)} {depth : Nat}
    {run : Expr Label → Pass Unit} (h : ∀ e ∈ value, Needs e.height depth (run e)) :
    Needs (Expr.heightOption value) depth (value.forM run) := by
  cases value with
  | none => exact steady_pure.needs
  | some e => exact h e rfl

theorem needs_statement {s : Stmt Label} (hs : s.Known) (depth : Nat)
    (around : Surroundings) : Needs s.height depth (statement depth around s) := by
  induction depth generalizing s around with
  | zero => cases hs <;> exact needs_tooDeep
  | succ depth ih =>
    cases hs with
    | expression hvalue | print hvalue => exact (needs_expression hvalue depth around).succ
    | var hinitial =>
      have hvalue := needs_option fun e he => needs_expression (hinitial e he) depth around
      exact (Needs.steady_bind (steady_declare _) (hvalue.bind_steady (steady_mark _ _))).succ
    | block hbody => exact (needs_statements fun s hs => ih (hbody s hs) around).inScope.succ
    | ifThen hcondition hbody | whileLoop hcondition hbody =>
      exact ((needs_expression hcondition depth around).bind (ih hbody around)).succ
    | ifElse hcondition hbody hother =>
      exact ((needs_expression hcondition depth around).bind
        ((ih hbody around).bind (ih hother around))).succ
    | function hbody =>
      exact (Needs.steady_bind (steady_introduce _)
        (needs_function _ _ fun s hs => ih (hbody s hs))).succ
    | returnFrom hvalue =>
      exact ((needs_option fun e he =>
        (needs_expression (hvalue e he) depth around).afterReport _ _ _).afterReport _ _ _).succ
    | @classOf _ superclass _ hbodies =>
      have hmethods := fun around => needs_methods around fun m hm s hs => ih (hbodies m hm s hs)
      refine (Needs.succ ?_ : Needs (_ + 1) (depth + 1) _)
      cases superclass with
      | none => exact .steady_bind (steady_introduce _) (hmethods _)
      | some parent =>
        refine .steady_bind (steady_introduce _) (Needs.afterReport ?_ _ _ _)
        exact .steady_bind (steady_readName _ _)
          (Needs.inScope (.steady_bind (steady_mark _ _) (hmethods _)))

end Binder

/-- **The binding pass is stopped by nothing but the height of the program**, if its forms are
known. -/
theorem fault_bindProgram_known {program : List (Stmt Label)} (h : ∀ s ∈ program, s.Known)
    (depth : Nat) (table : BindingTable) :
    (bindProgram depth program table).fault =
      if Stmt.heightAll program ≤ depth then none else some .tooDeep := by
  rw [fault_bindProgram]
  exact Binder.needs_statements (fun s hs => Binder.needs_statement (h s hs) depth _) _

theorem fault_bindProgram_eq {program : List (Stmt Label)} (h : ∀ s ∈ program, s.WellFormed)
    (depth : Nat) (table : BindingTable) :
    (bindProgram depth program table).fault =
      if Stmt.heightAll program ≤ depth then none else some .tooDeep :=
  fault_bindProgram_known (fun s hs => (h s hs).known) depth table

end LoxLang
