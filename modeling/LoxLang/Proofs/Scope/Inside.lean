import LoxLang.Proofs.Scope.Ready
import LoxLang.Proofs.Syntax.Induction

/-! # References inside functions

The references in the body of a function or method are all inside a function, however deep they
stand.  So what is known of a function does not suffer when the bindings of references outside
functions are dropped. -/

namespace LoxLang

open Binder (Surroundings FunctionContext)

/-- A finding is a broken rule or a reference inside a function. -/
def Finding.Inside {ι : Type} : Finding ι → Prop
  | .use u => u.around.function ≠ .outside
  | .error _ => True

section
variable {ι : Type} {around : Surroundings}

theorem Use.inside_findings {u : Use ι} (hu : u.around.function ≠ .outside) :
    ∀ f ∈ u.findings, f.Inside := by
  intro f hf
  rcases List.mem_append.mp hf with hf | hf
  · obtain ⟨e, _, rfl⟩ := List.mem_map.mp hf
    trivial
  · split at hf
    · cases hf
    · obtain rfl := List.mem_singleton.mp hf
      exact hu

theorem Expr.inside_visit (haround : around.function ≠ .outside) (context : Context) (e : Expr ι) :
    ∀ f ∈ e.visit around context, f.Inside := by
  intro f hf
  obtain ⟨r, _, hf⟩ := List.mem_flatMap.mp hf
  exact Use.inside_findings haround f hf

theorem Expr.inside_visitOption (haround : around.function ≠ .outside) (context : Context)
    (e : Option (Expr ι)) : ∀ f ∈ Expr.visitOption around context e, f.Inside := by
  cases e with
  | none => exact List.forall_mem_nil _
  | some e => exact e.inside_visit haround context

theorem inside_redeclared (context : Context) (name : Token) :
    ∀ f ∈ (context.redeclared name : List (Finding ι)), f.Inside := by
  intro f hf
  unfold Context.redeclared at hf
  split at hf
  · obtain rfl := List.mem_singleton.mp hf
    trivial
  · cases hf

theorem inside_redeclaredAll (context : Context) (names : List Token) :
    ∀ f ∈ (context.redeclaredAll names : List (Finding ι)), f.Inside := by
  induction names generalizing context with
  | nil => exact List.forall_mem_nil _
  | cons name names ih =>
    exact List.forall_mem_append.mpr ⟨inside_redeclared context name, ih _⟩

theorem Stmt.inside_visitAll_of {ss : List (Stmt ι)}
    (h : ∀ s ∈ ss, ∀ around : Surroundings, around.function ≠ .outside → ∀ context,
      ∀ f ∈ s.visit around context, f.Inside)
    (haround : around.function ≠ .outside) (context : Context) :
    ∀ f ∈ Stmt.visitAll around context ss, f.Inside := by
  induction ss generalizing context with
  | nil => exact List.forall_mem_nil _
  | cons s ss ih =>
    exact List.forall_mem_append.mpr ⟨h s List.mem_cons_self around haround context,
      ih (fun s' hs' => h s' (List.mem_cons_of_mem s hs')) _⟩

theorem Function.inside_visit_of {f : Function ι}
    (h : ∀ s ∈ f.body, ∀ around : Surroundings, around.function ≠ .outside → ∀ context,
      ∀ x ∈ s.visit around context, x.Inside)
    {kind : FunctionContext} (hkind : kind ≠ .outside) (context : Context) :
    ∀ x ∈ Function.visit around kind context f, x.Inside := by
  obtain ⟨name, params, body⟩ := f
  exact List.forall_mem_append.mpr
    ⟨inside_redeclaredAll _ params, Stmt.inside_visitAll_of h hkind _⟩

theorem Function.inside_visitMethods_of {ms : List (Function ι)}
    (h : ∀ m ∈ ms, ∀ s ∈ m.body, ∀ around : Surroundings, around.function ≠ .outside →
      ∀ context, ∀ x ∈ s.visit around context, x.Inside) (context : Context) :
    ∀ x ∈ Function.visitMethods around context ms, x.Inside := by
  induction ms with
  | nil => exact List.forall_mem_nil _
  | cons m ms ih =>
    exact List.forall_mem_append.mpr
      ⟨Function.inside_visit_of (h m List.mem_cons_self) m.methodContext_ne context,
        ih fun m' hm' => h m' (List.mem_cons_of_mem m hm')⟩

/-- Inside a function all references are inside functions. -/
theorem Stmt.inside_visit (s : Stmt ι) : ∀ around : Surroundings, around.function ≠ .outside →
    ∀ context, ∀ f ∈ s.visit around context, f.Inside := by
  induction s using Stmt.inductionOn with
  | expression value | print value =>
    exact fun around haround context => value.inside_visit haround context
  | var name initial =>
    exact fun around haround context => List.forall_mem_append.mpr
      ⟨inside_redeclared context name, Expr.inside_visitOption haround _ initial⟩
  | block body ih => exact fun around haround context => inside_visitAll_of ih haround _
  | ifThen condition body ih | whileLoop condition body ih =>
    exact fun around haround context => List.forall_mem_append.mpr
      ⟨condition.inside_visit haround context, ih around haround context⟩
  | ifElse condition body other ihbody ihother =>
    exact fun around haround context => List.forall_mem_append.mpr
      ⟨List.forall_mem_append.mpr ⟨condition.inside_visit haround context,
        ihbody around haround context⟩, ihother around haround _⟩
  | function declaration ih =>
    have hkind : FunctionContext.function ≠ .outside := nofun
    exact fun around haround context => List.forall_mem_append.mpr
      ⟨inside_redeclared context _, Function.inside_visit_of ih hkind _⟩
  | returnFrom keyword value =>
    refine fun around haround context => List.forall_mem_append.mpr
      ⟨fun f hf => ?_, Expr.inside_visitOption haround _ value⟩
    unfold returnErrors at hf
    rcases List.mem_append.mp hf with hf | hf
    · rw [if_neg haround] at hf
      cases hf
    · split at hf
      · obtain rfl := List.mem_singleton.mp hf
        trivial
      · cases hf
  | classOf name superclass methods ih =>
    intro around haround context
    cases superclass with
    | none =>
      exact List.forall_mem_append.mpr
        ⟨inside_redeclared context name, Function.inside_visitMethods_of ih _⟩
    | some parent =>
      refine List.forall_mem_append.mpr ⟨List.forall_mem_append.mpr ⟨List.forall_mem_append.mpr
        ⟨inside_redeclared context name, fun f hf => ?_⟩, Use.inside_findings haround⟩,
        Function.inside_visitMethods_of ih _⟩
      split at hf
      · obtain rfl := List.mem_singleton.mp hf
        trivial
      · cases hf
  | unknown form => exact fun _ _ _ => List.forall_mem_nil _

/-- Inside functions the first demand asks for all that the second one does. -/
structure Demand.StrongerInside (Q Q' : Demand ι) : Prop where
  use : ∀ u : Use ι, u.around.function ≠ .outside → Q u → Q' u
  spot : ∀ p : Spot ι, p.Inside → Q.spot p → Q'.spot p

theorem Demand.StrongerInside.refl (Q : Demand ι) : Q.StrongerInside Q :=
  ⟨fun _ _ h => h, fun _ _ h => h⟩

theorem Demand.StrongerInside.also {P P' : Use ι → Prop}
    (h : ∀ u : Use ι, u.around.function ≠ .outside → P u → P' u) (Q : Demand ι) :
    (Demand.also P Q).StrongerInside (.also P' Q) :=
  ⟨fun u hu hP => ⟨h u hu hP.1, hP.2⟩, fun _ _ hspot => hspot⟩

/-- A function stays ready when nothing is asked any longer of what stands outside functions. -/
theorem FunctionOf.Ready.imp {Q Q' : Demand ι} {f : Function ι} {kind : FunctionContext}
    {context : Context} (h : f.Ready Q around kind context) (hkind : kind ≠ .outside)
    (hQ : Q.StrongerInside Q') : f.Ready Q' around kind context := by
  refine ⟨h.wellFormed, fun x hx => ?_, fun p hp q hq => ?_⟩
  · have hgood := h.good x hx
    have hinside := Function.inside_visit_of (fun s _ => s.inside_visit) hkind context x hx
    cases x with
    | use u => exact hQ.use u hinside hgood
    | error e => exact hgood
  · exact hQ.spot q ((FunctionOf.inside_spots hkind hp).reaches hq) (h.covers p hp q hq)

end

end LoxLang
