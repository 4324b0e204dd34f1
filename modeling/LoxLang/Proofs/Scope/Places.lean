import LoxLang.Proofs.Scope.Recorded
import LoxLang.Proofs.Scope.Ready
import LoxLang.Proofs.Syntax.Label

/-! # References by place

The label of a reference matters only in so far as the table has a binding under it.  The place of a
reference is what that binding says, in one number: zero for a global variable, and else one more
than the scopes to leave.  Code with places for labels shows what its references mean and nothing of
the session in which it was labelled, so a program that breaks no rule becomes the same code however
it was labelled and whatever was bound before it (`map_place_relabelAll`). -/

namespace LoxLang

open Binder (Surroundings FunctionContext)

variable {ι κ : Type}

/-! ## Changes of marks that agree -/

/-- At a place where no rule is broken, the reference is among what is found. -/
theorem Use.good_of_findings {Q : Use ι → Prop} {u : Use ι} (h : ∀ f ∈ u.findings, f.Good Q) :
    Q u := by
  obtain ⟨herrors, hQ⟩ := ready_of_findings h
  by_cases hthis : u.kind = .this
  · -- `this` outside a class is the one reference that is not recorded, and it is an error
    refine hQ (.inr fun hclass => ?_)
    simp [errors, hthis, hclass] at herrors
  · exact hQ (.inl hthis)

section
variable {g g' : ι → κ} (φ : Token → Token)

/-- Two changes of marks agree on a reference. -/
def Use.Agrees (g g' : ι → κ) (u : Use ι) : Prop := g u.ref.label = g' u.ref.label

theorem Use.Agrees.ref {u : Use ι} (h : u.Agrees g g') : u.ref.map g φ = u.ref.map g' φ := by
  unfold Ref.map
  rw [h]

theorem Expr.map_congr_of_references {e : Expr ι}
    (h : ∀ r ∈ e.references, r.2.map g φ = r.2.map g' φ) : e.map g φ = e.map g' φ := by
  induction e using Expr.inductionOn with
  | call callee paren arguments ih iharguments =>
    rw [references, referencesAll_eq, List.forall_mem_append] at h
    have harguments : ∀ a ∈ arguments, a.map g φ = a.map g' φ := fun a ha =>
      iharguments a ha fun r hr => h.2 r (List.mem_flatMap.mpr ⟨a, ha, hr⟩)
    rw [map, map, mapAll_eq, mapAll_eq, ih h.1, List.map_congr_left harguments]
  | assign ref value ih =>
    rw [references, List.forall_mem_append] at h
    rw [map, map, ih h.1, h.2 _ (List.mem_singleton_self _)]
  | binary left op right ihleft ihright | logical left op right ihleft ihright =>
    rw [references, List.forall_mem_append] at h
    rw [map, map, ihleft h.1, ihright h.2]
  | set object name value ihobject ihvalue =>
    rw [references, List.forall_mem_append] at h
    rw [map, map, ihobject h.2, ihvalue h.1]
  | unary op operand ih => rw [map, map, ih h]
  | group inner ih => rw [map, map, ih h]
  | get object name ih => rw [map, map, ih h]
  | nameRef ref | thisRef ref | superRef ref method =>
    rw [map, map, h _ (List.mem_singleton_self _)]
  | literal value | unknown form => rfl

/-- Changes of marks that agree on the references found in code change it in the same way, if no
rule is broken. -/
theorem Expr.map_congr {around : Surroundings} {context : Context} {e : Expr ι}
    (h : ∀ f ∈ e.visit around context, f.Good (Use.Agrees g g')) : e.map g φ = e.map g' φ := by
  refine map_congr_of_references φ fun r hr => ?_
  have hagrees : Use.Agrees g g' ⟨r.2, r.1, around, context⟩ :=
    Use.good_of_findings fun f hf => h f (List.mem_flatMap.mpr ⟨r, hr, hf⟩)
  exact hagrees.ref φ

theorem Expr.map_congr_option {around : Surroundings} {context : Context} {e : Option (Expr ι)}
    (h : ∀ f ∈ Expr.visitOption around context e, f.Good (Use.Agrees g g')) :
    e.map (Expr.map g φ) = e.map (Expr.map g' φ) := by
  cases e with
  | none => rfl
  | some e => exact congrArg some (e.map_congr φ h)

theorem Stmt.mapAll_congr_of {ss : List (Stmt ι)}
    (hss : ∀ s ∈ ss, ∀ around context, (∀ f ∈ s.visit around context, f.Good (Use.Agrees g g')) →
      s.map g φ = s.map g' φ) {around : Surroundings} {context : Context}
    (h : ∀ f ∈ Stmt.visitAll around context ss, f.Good (Use.Agrees g g')) :
    ss.map (Stmt.map g φ) = ss.map (Stmt.map g' φ) := by
  induction ss generalizing context with
  | nil => rfl
  | cons s ss ih =>
    rw [visitAll, List.forall_mem_append] at h
    rw [List.map_cons, List.map_cons, hss s List.mem_cons_self _ _ h.1,
      ih (fun s' hs' => hss s' (List.mem_cons_of_mem s hs')) h.2]

theorem Function.map_congr_of {f : Function ι}
    (hf : ∀ s ∈ f.body, ∀ around context,
      (∀ f ∈ s.visit around context, f.Good (Use.Agrees g g')) → s.map g φ = s.map g' φ)
    {around : Surroundings} {kind : FunctionContext} {context : Context}
    (h : ∀ x ∈ Function.visit around kind context f, x.Good (Use.Agrees g g')) :
    Function.map g φ f = Function.map g' φ f := by
  obtain ⟨name, params, body⟩ := f
  rw [visit, List.forall_mem_append] at h
  rw [map_eq, map_eq, Stmt.mapAll_congr_of φ hf h.2]

theorem Function.mapAll_congr_of {ms : List (Function ι)}
    (hms : ∀ m ∈ ms, ∀ s ∈ m.body, ∀ around context,
      (∀ f ∈ s.visit around context, f.Good (Use.Agrees g g')) → s.map g φ = s.map g' φ)
    {around : Surroundings} {context : Context}
    (h : ∀ x ∈ Function.visitMethods around context ms, x.Good (Use.Agrees g g')) :
    Function.mapAll g φ ms = Function.mapAll g' φ ms := by
  induction ms with
  | nil => rfl
  | cons m ms ih =>
    rw [visitMethods, List.forall_mem_append] at h
    rw [mapAll, mapAll, map_congr_of φ (hms m List.mem_cons_self) h.1,
      ih (fun m' hm' => hms m' (List.mem_cons_of_mem m hm')) h.2]

theorem Stmt.map_congr {s : Stmt ι} {around : Surroundings} {context : Context}
    (h : ∀ f ∈ s.visit around context, f.Good (Use.Agrees g g')) : s.map g φ = s.map g' φ := by
  induction s using Stmt.inductionOn generalizing around context with
  | expression value | print value => rw [map, map, Expr.map_congr φ h]
  | var name initial =>
    rw [visit, List.forall_mem_append] at h
    rw [map, map, Expr.map_congr_option φ h.2]
  | block body ih =>
    rw [visit] at h
    rw [map, map, mapAll_eq, mapAll_eq, mapAll_congr_of φ (fun s hs _ _ => ih s hs) h]
  | ifThen condition body ih | whileLoop condition body ih =>
    rw [visit, List.forall_mem_append] at h
    rw [map, map, Expr.map_congr φ h.1, ih h.2]
  | ifElse condition body other ihbody ihother =>
    rw [visit, List.forall_mem_append, List.forall_mem_append] at h
    rw [map, map, Expr.map_congr φ h.1.1, ihbody h.1.2, ihother h.2]
  | function declaration ih =>
    rw [visit, List.forall_mem_append] at h
    rw [map, map, Function.map_congr_of φ (fun s hs _ _ => ih s hs) h.2]
  | returnFrom keyword value =>
    rw [visit, List.forall_mem_append] at h
    rw [map, map, Expr.map_congr_option φ h.2]
  | classOf name superclass methods ih =>
    have hmethods : ∀ {around context},
        (∀ x ∈ Function.visitMethods around context methods, x.Good (Use.Agrees g g')) →
        Function.mapAll g φ methods = Function.mapAll g' φ methods :=
      Function.mapAll_congr_of φ fun m hm s hs _ _ => ih m hm s hs
    cases superclass with
    | none =>
      rw [visit, List.forall_mem_append] at h
      rw [map, map, hmethods h.2, Option.map_none, Option.map_none]
    | some parent =>
      rw [visit, List.forall_mem_append, List.forall_mem_append] at h
      have hparent : Use.Agrees g g' ⟨parent, .read, around, context.introduce name⟩ :=
        Use.good_of_findings h.1.2
      rw [map, map, hmethods h.2, Option.map_some, Option.map_some, hparent.ref φ]
  | unknown form => rfl

/-- The code of a function that breaks no rule is changed in the same way by changes that agree on
its references. -/
theorem FunctionOf.Ready.map_congr {Q : Demand ι} {around : Surroundings}
    {kind : FunctionContext} {context : Context} {f : Function ι}
    (hf : f.Ready Q around kind context) (h : ∀ u, Q u → u.Agrees g g') :
    Function.map g φ f = Function.map g' φ f := by
  have hgood : ∀ x ∈ Function.visit around kind context f, x.Good (Use.Agrees g g') := by
    intro x hx
    have hgood := hf.good x hx
    cases x with
    | use u => exact h u hgood
    | error e => exact hgood
  exact Function.map_congr_of φ (fun s _ _ _ => s.map_congr φ) hgood

theorem map_congr_of_visitProgram {program : List (Stmt ι)}
    (h : ∀ f ∈ visitProgram program, f.Good (Use.Agrees g g')) :
    program.map (Stmt.map g φ) = program.map (Stmt.map g' φ) :=
  Stmt.mapAll_congr_of φ (fun s _ _ _ => s.map_congr φ) h

end

/-! ## Places -/

namespace BindingTable

/-- What the table says of a reference: zero if it means a global variable, and else one more than
the number of scopes to leave. -/
def place (t : BindingTable) (label : Label) : Label := ((t.hops? label).map (· + 1)).getD 0

/-- The table with no binding but that of a reference whose label is its place. -/
def ofPlace (ref : Ref Label) : BindingTable :=
  if ref.label = 0 then empty else ⟨[⟨ref.label, .read, ref.name, ref.label - 1, false⟩]⟩

/-- The place of a reference leads it as many scopes out as the table does. -/
theorem hops?_ofPlace (t : BindingTable) (ref : Ref Label) :
    (ofPlace (ref.map t.place id)).hops? (t.place ref.label) = t.hops? ref.label := by
  have hlabel : (ref.map t.place id).label = t.place ref.label := rfl
  rw [ofPlace, hlabel, place]
  cases t.hops? ref.label with
  | none => rfl
  | some hops => simp [hops?, find?]

theorem place_eq_of_hops? {t t' : BindingTable} {label label' : Label}
    (h : t.hops? label = t'.hops? label') : t.place label = t'.place label' := by
  unfold place
  rw [h]

end BindingTable

/-! ## Labelled programs -/

/-- Labels that are given out from further up are further up. -/
theorem Stmt.relabelAll_eq_shift (n : Label) (program : List (Stmt Unit)) :
    (Stmt.relabelAll n program).1 =
      (Stmt.relabelAll 0 program).1.map (Stmt.map (n + ·) id) := by
  have hshift := relabelAll_shift n 0 (fun _ => ()) id program
  have hunmark : program.map Stmt.unmark = program :=
    (List.map_congr_left fun s _ => s.unmark_eq).trans (List.map_id' program)
  rw [hunmark] at hshift
  exact congrArg Prod.fst hshift

/-- **A program that breaks no rule is, by places, the same however it was labelled**, and whatever
the table had before it was bound. -/
theorem map_place_relabelAll {t t' : BindingTable} {n n' : Label} (ht : t.Below n)
    (ht' : t'.Below n') {program : List (Stmt Unit)}
    (herrors : (visitProgram program).filterMap Finding.error? = []) :
    (Stmt.relabelAll n program).1.map (Stmt.map (t.recordAll
        ((visitProgram (Stmt.relabelAll n program).1).filterMap Finding.binding?)).place id) =
      (Stmt.relabelAll n' program).1.map (Stmt.map (t'.recordAll
        ((visitProgram (Stmt.relabelAll n' program).1).filterMap Finding.binding?)).place id) := by
  -- In either table a reference is bound as its place in the program asks, which no label enters.
  have hhops : ∀ {t : BindingTable} {n : Label}, t.Below n → ∀ u,
      .use u ∈ visitProgram (Stmt.relabelAll 0 program).1 →
      (t.recordAll ((visitProgram (Stmt.relabelAll n program).1).filterMap
        Finding.binding?)).hops? (n + u.ref.label) = u.hops? := by
    intro t n ht u hu
    have hmem : .use (u.map (n + ·) id) ∈ visitProgram (Stmt.relabelAll n program).1 := by
      rw [Stmt.relabelAll_eq_shift, visitProgram_map fun t => congrArg Token.lexeme (id_eq t)]
      exact List.mem_map_of_mem hu
    exact (recorded_of_visitProgram ht program hmem).hops_eq
  have hcode : ∀ (n : Label) (place : Label → Label),
      (Stmt.relabelAll n program).1.map (Stmt.map place id) =
        (Stmt.relabelAll 0 program).1.map (Stmt.map (place ∘ (n + ·)) id) := by
    intro n place
    rw [Stmt.relabelAll_eq_shift, List.map_map]
    exact List.map_congr_left fun s _ => s.map_map ..
  rw [hcode n, hcode n']
  refine map_congr_of_visitProgram id fun f hf => ?_
  cases f with
  | use u =>
    exact BindingTable.place_eq_of_hops? ((hhops ht u hf).trans (hhops ht' u hf).symm)
  | error e =>
    have hunmarked : .error e ∈ visitProgram program := by
      rw [← Stmt.unmark_relabelAll 0 program, visitProgram_map fun t => congrArg _ (id_eq t)]
      exact List.mem_map_of_mem (f := Finding.map (fun _ => ()) id) hf
    have hnone := List.filterMap_eq_nil_iff.mp herrors _ hunmarked
    cases hnone

end LoxLang
