import LoxLang.Proofs.Scope.Renamed
import Mathlib.Data.List.Pairwise
import Mathlib.Logic.Equiv.Basic

/-! # Renaming one local variable

A program without broken rules declares a name at most once in each local scope.  So when a
variable of a local scope gets a new name, no function and no class of that scope has the old one,
and the program that comes of it is the old one with names changed in that scope
(`renamed_renameLocal`): the old and the new name are exchanged there, and the new one did not occur
before. -/

namespace LoxLang

open Binder (Surroundings FunctionContext)

variable {ι : Type}

/-! ## Names of a scope are declared once -/

section
variable {Q : Demand ι} {around : Surroundings} {scope : OpenScope} {outer context : Context}

theorem Context.redeclaredAll_append (context : Context) (names names' : List Token) :
    (context.redeclaredAll (names ++ names') : List (Finding ι)) =
      context.redeclaredAll names ++ (context.introduceAll names).redeclaredAll names' := by
  induction names generalizing context with
  | nil => rfl
  | cons name names ih =>
    rw [List.cons_append, redeclaredAll, redeclaredAll, ih, List.append_assoc]
    rfl

/-- What is found in a statement includes the names it declares again. -/
theorem Stmt.redeclaredAll_subset {s : Stmt ι} (hs : s.WellFormed) :
    (context.redeclaredAll s.declares : List (Finding ι)) ⊆ s.visit around context := by
  have hone : ∀ name, (context.redeclaredAll [name] : List (Finding ι)) = context.redeclared name :=
    fun name => List.append_nil _
  cases hs with
  | var | function =>
    rw [declares, hone, visit]
    exact List.subset_append_left _ _
  | @classOf name superclass methods =>
    rw [declares, hone]
    cases superclass with
    | none => exact List.subset_append_left _ _
    | some parent =>
      rw [visit, List.append_assoc, List.append_assoc]
      exact List.subset_append_left _ _
  | ifThen _ _ hnone | whileLoop _ _ hnone =>
    rw [declares, hnone]
    exact List.nil_subset _
  | ifElse _ _ hnone _ hnone' =>
    rw [declares, hnone, hnone']
    exact List.nil_subset _
  | _ => exact List.nil_subset _

theorem Stmt.redeclaredAll_subset_visitAll {ss : List (Stmt ι)} (hss : ∀ s ∈ ss, s.WellFormed) :
    (context.redeclaredAll (Stmt.declaresAll ss) : List (Finding ι)) ⊆
      Stmt.visitAll around context ss := by
  induction ss generalizing context with
  | nil => exact List.nil_subset _
  | cons s ss ih =>
    obtain ⟨hs, hss⟩ := List.forall_mem_cons.mp hss
    rw [declaresAll, List.flatMap_cons, Context.redeclaredAll_append, visitAll]
    exact fun f hf => List.mem_append.mpr
      ((List.mem_append.mp hf).imp (redeclaredAll_subset hs ·) (ih hss ·))

/-- Names that are declared in a row without a broken rule are new to the scope, and differ. -/
theorem nodup_of_redeclaredAll (scope : OpenScope) (outer : Context) {names : List Token}
    (h : ∀ f ∈ (Context.redeclaredAll (scope :: outer) names : List (Finding ι)), f.Good Q) :
    (names.map Token.lexeme).Nodup ∧ ∀ t ∈ names, scope.has t.lexeme = false := by
  induction names generalizing scope with
  | nil => exact ⟨List.nodup_nil, List.forall_mem_nil _⟩
  | cons name names ih =>
    obtain ⟨hname, hnames⟩ := List.forall_mem_append.mp h
    have hlacks : scope.has name.lexeme = false := by
      refine Bool.eq_false_iff.mpr fun hhas => ?_
      have hfound : Context.redeclared name (scope :: outer) =
          [(.error ⟨.alreadyDeclared, name⟩ : Finding ι)] := if_pos hhas
      exact hname (.error ⟨.alreadyDeclared, name⟩) (by simp [hfound])
    obtain ⟨hnodup, hnew⟩ := ih (scope.mark name.lexeme true) hnames
    have hdiffer : ∀ t ∈ names, t.lexeme ≠ name.lexeme ∧ scope.has t.lexeme = false := by
      intro t ht
      have hmark := hnew t ht
      rwa [OpenScope.has_mark, Bool.or_eq_false_iff, beq_eq_false_iff_ne] at hmark
    refine ⟨List.nodup_cons.mpr ⟨fun hmem => ?_, hnodup⟩,
      List.forall_mem_cons.mpr ⟨hlacks, fun t ht => (hdiffer t ht).2⟩⟩
    obtain ⟨t, ht, heq⟩ := List.mem_map.mp hmem
    exact (hdiffer t ht).1 heq

/-- The names of a block differ. -/
theorem Stmt.ReadyAll.nodup {ss : List (Stmt ι)} (h : Stmt.ReadyAll Q around (scope :: outer) ss) :
    ((Stmt.declaresAll ss).map Token.lexeme).Nodup :=
  (nodup_of_redeclaredAll scope outer fun f hf =>
    h.good f (Stmt.redeclaredAll_subset_visitAll h.wellFormed hf)).1

/-- The names of the scope of a function differ. -/
theorem FunctionOf.Ready.nodup {f : Function ι} {kind : FunctionContext}
    (h : f.Ready Q around kind context) : (f.scopeNames.map Token.lexeme).Nodup := by
  obtain ⟨hwf, hgood⟩ := h
  obtain ⟨name, params, body⟩ := f
  refine (nodup_of_redeclaredAll (Q := Q) (.fresh (FunctionOf.scopeNames ⟨name, params, body⟩))
    context fun f hf => hgood f ?_).1
  rw [scopeNames, Context.redeclaredAll_append] at hf
  exact List.mem_append.mpr
    ((List.mem_append.mp hf).imp_right (Stmt.redeclaredAll_subset_visitAll hwf.body ·))

end

/-- One token is declared by one statement. -/
theorem Stmt.eq_of_mem_declares {ss : List (Stmt ι)} (hnodup : (Stmt.declaresAll ss).Nodup)
    {s s' : Stmt ι} (hs : s ∈ ss) (hs' : s' ∈ ss) {t : Token} (ht : t ∈ s.declares)
    (ht' : t ∈ s'.declares) : s = s' := by
  by_contra hne
  have hdisjoint := (List.nodup_flatMap.mp hnodup).2
  have : Std.Symm (Function.onFun List.Disjoint (Stmt.declares (ι := ι))) :=
    ⟨fun _ _ h => List.disjoint_symm h⟩
  exact hdisjoint.forall hs hs' hne ht ht'

/-- A statement that is not the declaration of a variable has none of the names of the parameters
and variables of its scope. -/
theorem Stmt.lexeme_ne_of_nodup {params : List Token} {ss : List (Stmt ι)}
    (hnodup : ((params ++ Stmt.declaresAll ss).map Token.lexeme).Nodup) {x : Token}
    (hx : x ∈ params ++ ss.filterMap Stmt.varName?) {s : Stmt ι} (hs : s ∈ ss)
    (hvar : s.varName? = none) {t : Token} (ht : t ∈ s.declares) : t.lexeme ≠ x.lexeme := by
  intro heq
  have hdeclared : t ∈ Stmt.declaresAll ss := List.mem_flatMap.mpr ⟨s, hs, ht⟩
  have htokens := hnodup.of_map
  rcases List.mem_append.mp hx with hx | hx
  -- `x` and `t` would be one token of the scope: a parameter and a name of the body, or a name that
  -- two statements declare
  · have hsame : t = x := List.inj_on_of_nodup_map hnodup (List.mem_append_right _ hdeclared)
      (List.mem_append_left _ hx) heq
    exact (List.disjoint_of_nodup_append htokens) hx (hsame ▸ hdeclared)
  · obtain ⟨s₀, hs₀, hname⟩ := List.mem_filterMap.mp hx
    have hx₀ : x ∈ s₀.declares := by
      cases s₀ with
      | var name initial => simpa [varName?, declares, eq_comm] using hname
      | _ => cases hname
    have hsame : t = x := List.inj_on_of_nodup_map hnodup (List.mem_append_right _ hdeclared)
      (List.mem_append_right _ (List.mem_flatMap.mpr ⟨s₀, hs₀, hx₀⟩)) heq
    obtain rfl : s = s₀ := Stmt.eq_of_mem_declares (List.nodup_append.mp htokens).2.1 hs hs₀ ht
      (hsame ▸ hx₀)
    rw [hvar] at hname
    cases hname

/-! ## The way to a scope -/

theorem Path.into_eq_some_iff {i : Nat} {way : Option Path} {p : Path} :
    Path.into i way = some p ↔ way = some (i :: p) := by
  cases way with
  | none => simp [into]
  | some path =>
    cases path with
    | nil => simp [into]
    | cons j rest =>
      by_cases hj : j = i
      · simp [into, hj]
      · simp [into, hj]

theorem mem_map_ofPart_iff {i j : Nat} {p : Path} {name : Token} {vs : List LocalVariable} :
    (⟨j :: p, name⟩ : LocalVariable) ∈ vs.map (.ofPart i) ↔ j = i ∧ ⟨p, name⟩ ∈ vs := by
  simp only [List.mem_map, LocalVariable.ofPart, LocalVariable.mk.injEq, List.cons.injEq]
  constructor
  · rintro ⟨v, hv, ⟨rfl, rfl⟩, rfl⟩
    exact ⟨rfl, hv⟩
  · rintro ⟨rfl, hv⟩
    exact ⟨_, hv, ⟨rfl, rfl⟩, rfl⟩

/-- The ways to variables lead into parts from the `i`-th on. -/
def LeadFrom (i : Nat) (vs : List LocalVariable) : Prop :=
  ∀ v ∈ vs, ∃ j p, v.path = j :: p ∧ i ≤ j

theorem leadFrom_map_ofPart (i : Nat) (vs : List LocalVariable) :
    LeadFrom i (vs.map (.ofPart i)) :=
  List.forall_mem_map.mpr fun u _ => ⟨i, u.path, rfl, Nat.le_refl i⟩

theorem LeadFrom.cons {i : Nat} {others : List LocalVariable} (h : LeadFrom (i + 1) others)
    (first : List LocalVariable) : LeadFrom i (first.map (.ofPart i) ++ others) := by
  refine List.forall_mem_append.mpr ⟨leadFrom_map_ofPart i first, fun v hv => ?_⟩
  obtain ⟨j, p, hpath, hle⟩ := h v hv
  exact ⟨j, p, hpath, Nat.le_of_succ_le hle⟩

theorem Stmt.leadFrom_localsAll (i : Nat) (ss : List (Stmt ι)) :
    LeadFrom i (Stmt.localsAll i ss) := by
  induction ss generalizing i with
  | nil => exact List.forall_mem_nil _
  | cons s ss ih => exact (ih (i + 1)).cons s.locals

theorem Function.leadFrom_localsAll (i : Nat) (ms : List (Function ι)) :
    LeadFrom i (Function.localsAll i ms) := by
  induction ms generalizing i with
  | nil => exact List.forall_mem_nil _
  | cons m ms ih => exact (ih (i + 1)).cons (Function.locals m)

/-- A way through the `i`-th part leads to a variable there, if it leads to one of the part. -/
theorem mem_of_way_into {way : Option Path} {name : Token} {vs : List LocalVariable} {i : Nat}
    (hway : ∀ p, way = some (i :: p) → ⟨i :: p, name⟩ ∈ vs.map (LocalVariable.ofPart i))
    (p : Path) (hp : Path.into i way = some p) : ⟨p, name⟩ ∈ vs :=
  (mem_map_ofPart_iff.mp (hway p (Path.into_eq_some_iff.mp hp))).2

/-- A way into some parts leads into the first one or into one of the others. -/
theorem LeadFrom.mem_of_way {way : Option Path} {name : Token} {first others : List LocalVariable}
    {i : Nat} (hothers : LeadFrom (i + 1) others)
    (hway : ∀ j p, way = some (j :: p) → i ≤ j →
      ⟨j :: p, name⟩ ∈ first.map (.ofPart i) ++ others) :
    (∀ p, Path.into i way = some p → ⟨p, name⟩ ∈ first) ∧
      ∀ j p, way = some (j :: p) → i + 1 ≤ j → ⟨j :: p, name⟩ ∈ others := by
  constructor
  · refine mem_of_way_into fun p hp => ?_
    rcases List.mem_append.mp (hway i p hp (Nat.le_refl i)) with hmem | hmem
    · exact hmem
    · obtain ⟨j, _, hpath, hle⟩ := hothers _ hmem
      obtain rfl : i = j := (List.cons.inj hpath).1
      exact absurd hle (Nat.not_succ_le_self i)
  · intro j p hp hle
    rcases List.mem_append.mp (hway j p hp (Nat.le_of_succ_le hle)) with hmem | hmem
    · obtain ⟨rfl, _⟩ := mem_map_ofPart_iff.mp hmem
      exact absurd hle (Nat.not_succ_le_self j)
    · exact hmem

/-! ## Names of local variables -/

theorem isName_of_localsAll {ss : List (Stmt ι)} (h : ∀ s ∈ ss, ∀ v ∈ s.locals, v.name.IsName)
    (i : Nat) : ∀ v ∈ Stmt.localsAll i ss, v.name.IsName := by
  induction ss generalizing i with
  | nil => exact List.forall_mem_nil _
  | cons s ss ih =>
    obtain ⟨hs, hss⟩ := List.forall_mem_cons.mp h
    exact List.forall_mem_append.mpr ⟨List.forall_mem_map.mpr hs, ih hss (i + 1)⟩

/-- The variables of a scope have names. -/
theorem Stmt.isName_of_varName? {ss : List (Stmt ι)} (hss : ∀ s ∈ ss, s.WellFormed) :
    ∀ t ∈ ss.filterMap Stmt.varName?, t.IsName := by
  intro t ht
  obtain ⟨s, hs, hname⟩ := List.mem_filterMap.mp ht
  cases hss s hs with
  | var hdeclared => exact Option.some.inj hname ▸ hdeclared
  | _ => cases hname

theorem Function.isName_of_locals {f : Function ι} (hf : f.WellFormed)
    (h : ∀ s ∈ f.body, ∀ v ∈ s.locals, v.name.IsName) : ∀ v ∈ Function.locals f, v.name.IsName := by
  obtain ⟨name, params, body⟩ := f
  exact List.forall_mem_append.mpr ⟨List.forall_mem_map.mpr
    (List.forall_mem_append.mpr ⟨hf.params, Stmt.isName_of_varName? hf.body⟩),
    isName_of_localsAll h 0⟩

theorem Function.isName_of_localsAll {ms : List (Function ι)} (hms : ∀ m ∈ ms, m.WellFormed)
    (h : ∀ m ∈ ms, ∀ s ∈ m.body, ∀ v ∈ s.locals, v.name.IsName) (i : Nat) :
    ∀ v ∈ Function.localsAll i ms, v.name.IsName := by
  induction ms generalizing i with
  | nil => exact List.forall_mem_nil _
  | cons m ms ih =>
    obtain ⟨hm, hms⟩ := List.forall_mem_cons.mp hms
    obtain ⟨hbody, h⟩ := List.forall_mem_cons.mp h
    exact List.forall_mem_append.mpr
      ⟨List.forall_mem_map.mpr (isName_of_locals hm hbody), ih hms h (i + 1)⟩

theorem Stmt.WellFormed.isName_of_locals {s : Stmt ι} (hs : s.WellFormed) :
    ∀ v ∈ s.locals, v.name.IsName := by
  induction hs with
  | block hbody ih =>
    exact List.forall_mem_append.mpr ⟨List.forall_mem_map.mpr (Stmt.isName_of_varName? hbody),
      isName_of_localsAll ih 0⟩
  | ifThen _ _ _ ih | whileLoop _ _ _ ih => exact List.forall_mem_map.mpr ih
  | ifElse _ _ _ _ _ ihbody ihother =>
    exact List.forall_mem_append.mpr
      ⟨List.forall_mem_map.mpr ihbody, List.forall_mem_map.mpr ihother⟩
  | function _ hparams hbody ih => exact Function.isName_of_locals ⟨hparams, hbody⟩ ih
  | classOf _ _ hparams hbodies ih =>
    exact Function.isName_of_localsAll (fun m hm => ⟨hparams m hm, hbodies m hm⟩) ih 0
  | _ => exact List.forall_mem_nil _

/-- Local variables have names, neither of them one of the words `this` and `super`. -/
theorem isName_of_localVariables {program : List (Stmt ι)} (h : ∀ s ∈ program, s.WellFormed) :
    ∀ v ∈ localVariables program, v.name.IsName :=
  isName_of_localsAll (fun s hs => (h s hs).isName_of_locals) 0

/-! ## Local variables once names have changed -/

section
variable (r : Renaming)

/-- What becomes of a local variable when names change in the scope at the end of a way. -/
def Renaming.localVariable (way : Option Path) (v : LocalVariable) : LocalVariable :=
  ⟨v.path, r.token (way == some v.path) v.name⟩

theorem Renaming.localVariable_ofPart (way : Option Path) (i : Nat) (v : LocalVariable) :
    r.localVariable way (v.ofPart i) = (r.localVariable (Path.into i way) v).ofPart i := by
  have hway : (way == some (i :: v.path)) = (Path.into i way == some v.path) := by
    rw [Bool.eq_iff_iff, beq_iff_eq, beq_iff_eq]
    exact Path.into_eq_some_iff.symm
  simp [localVariable, LocalVariable.ofPart, hway]

theorem Renaming.map_localVariable_ofPart (way : Option Path) (i : Nat) (vs : List LocalVariable) :
    (vs.map (.ofPart i)).map (r.localVariable way) =
      (vs.map (r.localVariable (Path.into i way))).map (.ofPart i) := by
  rw [List.map_map, List.map_map]
  exact List.map_congr_left fun v _ => r.localVariable_ofPart way i v

/-- The variables of the scope where the way may end. -/
theorem Renaming.map_localVariable_here (way : Option Path) (names : List Token) :
    (names.map (⟨[], ·⟩)).map (r.localVariable way) =
      (names.map (r.token (way == some []))).map (⟨[], ·⟩) := by
  rw [List.map_map, List.map_map]
  rfl

theorem Stmt.varName?_rename (way : Option Path) (inside : List Bool) (s : Stmt Label) :
    (s.rename r way inside).varName? = s.varName?.map (r.token (inside.headD false)) := by
  cases s with
  | classOf name superclass methods => cases superclass <;> rfl
  | _ => rfl

theorem Stmt.filterMap_varName?_renameAll (way : Option Path) (inside : List Bool) (i : Nat)
    (ss : List (Stmt Label)) :
    (Stmt.renameAll r way inside i ss).filterMap Stmt.varName? =
      (ss.filterMap Stmt.varName?).map (r.token (inside.headD false)) := by
  induction ss generalizing i with
  | nil => rfl
  | cons s ss ih =>
    rw [renameAll, List.filterMap_cons, List.filterMap_cons, varName?_rename, ih]
    cases s.varName? <;> rfl

theorem Stmt.localsAll_renameAll {ss : List (Stmt Label)}
    (h : ∀ s ∈ ss, ∀ way inside,
      (s.rename r way inside).locals = s.locals.map (r.localVariable way))
    (way : Option Path) (inside : List Bool) (i : Nat) :
    Stmt.localsAll i (Stmt.renameAll r way inside i ss) =
      (Stmt.localsAll i ss).map (r.localVariable way) := by
  induction ss generalizing i with
  | nil => rfl
  | cons s ss ih =>
    obtain ⟨hs, hss⟩ := List.forall_mem_cons.mp h
    rw [renameAll, localsAll, localsAll, hs, ih hss, List.map_append, r.map_localVariable_ofPart]

theorem Function.locals_rename {f : Function Label}
    (h : ∀ s ∈ f.body, ∀ way inside,
      (s.rename r way inside).locals = s.locals.map (r.localVariable way))
    (way : Option Path) (inside : List Bool) :
    Function.locals (Function.rename r way inside f) =
      (Function.locals f).map (r.localVariable way) := by
  obtain ⟨name, params, body⟩ := f
  have hhere : params.map (r.token (way == some [])) ++
      (Stmt.renameAll r way ((way == some []) :: inside) 0 body).filterMap Stmt.varName? =
        (params ++ body.filterMap Stmt.varName?).map (r.token (way == some [])) := by
    rw [Stmt.filterMap_varName?_renameAll, List.map_append]
    rfl
  rw [rename, locals, locals, hhere, Stmt.localsAll_renameAll r h, ← r.map_localVariable_here]
  exact List.map_append.symm

theorem Function.localsAll_renameAll {ms : List (Function Label)}
    (h : ∀ m ∈ ms, ∀ s ∈ m.body, ∀ way inside,
      (s.rename r way inside).locals = s.locals.map (r.localVariable way))
    (way : Option Path) (inside : List Bool) (i : Nat) :
    Function.localsAll i (Function.renameAll r way inside i ms) =
      (Function.localsAll i ms).map (r.localVariable way) := by
  induction ms generalizing i with
  | nil => rfl
  | cons m ms ih =>
    obtain ⟨hm, hms⟩ := List.forall_mem_cons.mp h
    rw [renameAll, localsAll, localsAll, locals_rename r hm, ih hms, List.map_append,
      r.map_localVariable_ofPart]

/-- Names of variables change in the scope at the end of the way, and in no other. -/
theorem Stmt.locals_rename (s : Stmt Label) (way : Option Path) (inside : List Bool) :
    (s.rename r way inside).locals = s.locals.map (r.localVariable way) := by
  induction s using Stmt.inductionOn generalizing way inside with
  | block body ih =>
    rw [rename, locals, locals, filterMap_varName?_renameAll, localsAll_renameAll r ih,
      List.map_append, r.map_localVariable_here]
    rfl
  | ifThen condition body ih | whileLoop condition body ih =>
    rw [rename, locals, locals, ih, r.map_localVariable_ofPart]
  | ifElse condition body other ihbody ihother =>
    rw [rename, locals, locals, ihbody, ihother, List.map_append, r.map_localVariable_ofPart,
      r.map_localVariable_ofPart]
  | function f ih => exact Function.locals_rename r ih way inside
  | classOf name superclass methods ih =>
    cases superclass <;> exact Function.localsAll_renameAll r ih way _ 0
  | _ => rfl

end

/-- What becomes of a local variable when another one gets a new name. -/
def LocalVariable.renamed (v : LocalVariable) (new : String) (u : LocalVariable) : LocalVariable :=
  if u.path = v.path ∧ u.name.lexeme = v.name.lexeme then
    ⟨u.path, { u.name with lexeme := new }⟩
  else u

/-- In the program that comes of it the variable has its new name, and all others have the names
they had. -/
theorem localVariables_renameLocal (table : BindingTable) (v : LocalVariable) (new : String)
    (program : List (Stmt Label)) :
    localVariables (renameLocal table v new program) =
      (localVariables program).map (v.renamed new) := by
  unfold localVariables renameLocal
  rw [Stmt.localsAll_renameAll _ fun s _ => s.locals_rename _]
  refine List.map_congr_left fun u _ => ?_
  obtain ⟨path, name⟩ := u
  unfold Renaming.localVariable LocalVariable.renamed Renaming.token Renaming.name
    Renaming.replacing
  by_cases hpath : path = v.path
  · by_cases hname : name.lexeme = v.name.lexeme
    · simp [hpath, hname]
    · simp [hpath, hname]
  · have hne : (some v.path == some path) = false := by simp [Ne.symm hpath]
    simp [hpath, hne]

/-! ## The program that comes of it -/

namespace Renaming

/-- Two names take each other's places. -/
def exchanging (table : BindingTable) (old new : String) : Renaming :=
  ⟨table, Equiv.swap old new⟩

variable {table : BindingTable} {old new : String}

theorem apart_exchanging (hold : old ≠ "this" ∧ old ≠ "super")
    (hnew : new ≠ "this" ∧ new ≠ "super") :
    (exchanging table old new).Apart (· ≠ new) where
  lawful :=
    { injective := (Equiv.swap old new).injective
      this := Equiv.swap_apply_of_ne_of_ne hold.1.symm hnew.1.symm
      super := Equiv.swap_apply_of_ne_of_ne hold.2.symm hnew.2.symm }
  surjective := (Equiv.swap old new).surjective
  eq_of_change := by
    intro x y hx hy heq
    by_cases hx' : x = old
    · rw [hx'] at heq
      exact absurd ((Equiv.swap_apply_left old new).symm.trans heq).symm hy
    · exact (Equiv.swap_apply_of_ne_of_ne hx' hx).symm.trans heq
  this := hnew.1.symm
  super := hnew.2.symm

theorem name_replacing {x : String} (hx : x ≠ new) (here : Bool) :
    (replacing table old new).name here x = (exchanging table old new).name here x := by
  cases here with
  | false => rfl
  | true =>
    show (if x = old then new else x) = Equiv.swap old new x
    split
    · rename_i heq
      rw [heq, Equiv.swap_apply_left]
    · rename_i hne
      rw [Equiv.swap_apply_of_ne_of_ne hne hx]

theorem token_replacing {t : Token} (ht : t.lexeme ≠ new) (here : Bool) :
    (replacing table old new).token here t = (exchanging table old new).token here t := by
  rw [token, name_replacing ht]
  rfl

theorem reference_replacing {ref : Ref Label} (href : ref.name.lexeme ≠ new) (inside : List Bool) :
    (replacing table old new).reference inside ref =
      (exchanging table old new).reference inside ref := by
  have hsame : (replacing table old new).table.hops? ref.label =
      (exchanging table old new).table.hops? ref.label := rfl
  unfold reference
  rw [hsame]
  split
  · rw [token_replacing href]
  · rfl

/-- Other names than the two stay. -/
theorem keeps_exchanging {t : Token} (hold : t.lexeme ≠ old) (hnew : t.lexeme ≠ new)
    (inside : List Bool) : (exchanging table old new).Keeps inside t := by
  unfold Keeps
  cases inside.headD false with
  | false => rfl
  | true => exact Equiv.swap_apply_of_ne_of_ne hold hnew

end Renaming

section
variable {table : BindingTable} {name : Token} {new : String} {Q : Demand Label}
  {way : Option Path} {inside : List Bool}

theorem Expr.mapNames_replacing {e : Expr Label} (h : ∀ x ∈ e.names, x ≠ new) :
    e.mapNames ((Renaming.replacing table name.lexeme new).reference inside) =
      e.mapNames ((Renaming.exchanging table name.lexeme new).reference inside) := by
  rw [names, List.forall_mem_map] at h
  exact mapNames_congr fun use huse => Renaming.reference_replacing (h use huse) inside

theorem Expr.map_mapNames_replacing {e : Option (Expr Label)}
    (h : ∀ x ∈ Expr.namesOption e, x ≠ new) :
    e.map (Expr.mapNames ((Renaming.replacing table name.lexeme new).reference inside)) =
      e.map (Expr.mapNames ((Renaming.exchanging table name.lexeme new).reference inside)) := by
  cases e with
  | none => rfl
  | some e => exact congrArg some (mapNames_replacing h)

variable (table name new Q) in
/-- A renamed statement is the statement with names changed in some of its scopes.  The way, if
there is one, leads to a variable of the statement; the statement is no function or class of the
scope whose variable is renamed, under the name of the variable. -/
def Stmt.RenamesWell (s : Stmt Label) : Prop :=
  ∀ (around : Surroundings) (context : Context) (way : Option Path) (inside : List Bool),
    s.Ready Q around context → (∀ x ∈ s.names, x ≠ new) →
      (∀ p, way = some p → ⟨p, name⟩ ∈ s.locals) →
        (∀ t ∈ s.declares, s.varName? = none →
          (Renaming.exchanging table name.lexeme new).Keeps inside t) →
          Stmt.Renamed (.exchanging table name.lexeme new) inside s
            (s.rename (.replacing table name.lexeme new) way inside)

theorem Stmt.renamedAll_renameAll {ss : List (Stmt Label)}
    (hss : ∀ s ∈ ss, s.RenamesWell table name new Q) {around : Surroundings} {context : Context}
    (hready : Stmt.ReadyAll Q around context ss) (hnames : ∀ x ∈ Stmt.namesAll ss, x ≠ new)
    {i : Nat} (hway : ∀ j p, way = some (j :: p) → i ≤ j → ⟨j :: p, name⟩ ∈ Stmt.localsAll i ss)
    (hkeeps : ∀ s ∈ ss, ∀ t ∈ s.declares, s.varName? = none →
      (Renaming.exchanging table name.lexeme new).Keeps inside t) :
    Stmt.RenamedAll (.exchanging table name.lexeme new) inside ss
      (Stmt.renameAll (.replacing table name.lexeme new) way inside i ss) := by
  induction ss generalizing context i with
  | nil => exact .nil
  | cons s ss ih =>
    obtain ⟨hs, hss⟩ := List.forall_mem_cons.mp hss
    obtain ⟨hsready, hready⟩ := hready.cons
    obtain ⟨hsnames, hnames⟩ := List.forall_mem_append.mp hnames
    obtain ⟨hskeeps, hkeeps⟩ := List.forall_mem_cons.mp hkeeps
    obtain ⟨hfirst, hothers⟩ := (Stmt.leadFrom_localsAll (i + 1) ss).mem_of_way hway
    exact .cons (hs around context _ inside hsready hsnames hfirst hskeeps)
      (ih hss hready hnames hothers hkeeps)

/-- If the way ends at a scope, no function and no class of the scope has the name of the variable
there. -/
theorem keeps_of_way (params : List Token) {ss : List (Stmt Label)}
    (hnodup : ((params ++ Stmt.declaresAll ss).map Token.lexeme).Nodup)
    (hnames : ∀ x ∈ Stmt.namesAll ss, x ≠ new)
    (hway : ∀ p, way = some p → ⟨p, name⟩ ∈
      (params ++ ss.filterMap Stmt.varName?).map (⟨[], ·⟩) ++ Stmt.localsAll 0 ss) :
    ∀ s ∈ ss, ∀ t ∈ s.declares, s.varName? = none →
      (Renaming.exchanging table name.lexeme new).Keeps ((way == some []) :: inside) t := by
  intro s hs t ht hvar
  by_cases hhere : way = some []
  -- the variable belongs to this very scope, so it is none of those of the statements
  · have hname : name ∈ params ++ ss.filterMap Stmt.varName? := by
      rcases List.mem_append.mp (hway [] hhere) with hmem | hmem
      · obtain ⟨x, hx, heq⟩ := List.mem_map.mp hmem
        rwa [← (LocalVariable.mk.inj heq).2]
      · obtain ⟨_, _, hpath, _⟩ := Stmt.leadFrom_localsAll 0 ss _ hmem
        cases hpath
    have hnew : t.lexeme ≠ new := hnames t.lexeme (by
      rw [Stmt.namesAll_eq]
      exact List.mem_flatMap.mpr ⟨s, hs, s.lexeme_mem_names t ht⟩)
    exact Renaming.keeps_exchanging (Stmt.lexeme_ne_of_nodup hnodup hname hs hvar ht) hnew _
  · have hfalse : (way == some []) = false := beq_eq_false_iff_ne.mpr hhere
    rw [hfalse]
    exact Renaming.name_false _ _

/-- If the way does not end at a scope, it leads into one of the statements there. -/
theorem mem_localsAll_of_way {names : List Token} {ss : List (Stmt Label)}
    (hway : ∀ p, way = some p → ⟨p, name⟩ ∈ names.map (⟨[], ·⟩) ++ Stmt.localsAll 0 ss) (j : Nat)
    (p : Path) (hp : way = some (j :: p)) : ⟨j :: p, name⟩ ∈ Stmt.localsAll 0 ss := by
  rcases List.mem_append.mp (hway _ hp) with hmem | hmem
  · obtain ⟨_, _, heq⟩ := List.mem_map.mp hmem
    cases heq
  · exact hmem

theorem Function.renamed_rename {f : Function Label}
    (hbody : ∀ s ∈ f.body, s.RenamesWell table name new Q) {around : Surroundings}
    {kind : FunctionContext} {context : Context} (hready : f.Ready Q around kind context)
    (hnames : ∀ x ∈ Function.names f, x ≠ new)
    (hway : ∀ p, way = some p → ⟨p, name⟩ ∈ Function.locals f) :
    Function.Renamed (.exchanging table name.lexeme new) inside f
      (Function.rename (.replacing table name.lexeme new) way inside f) := by
  have hrun := hready.body
  have hnodup := hready.nodup
  obtain ⟨fname, params, body⟩ := f
  obtain ⟨hparams, hnames⟩ := List.forall_mem_append.mp hnames
  rw [List.forall_mem_map] at hparams
  have hsame : params.map ((Renaming.replacing table name.lexeme new).token (way == some [])) =
      params.map ((Renaming.exchanging table name.lexeme new).token (way == some [])) :=
    List.map_congr_left fun t ht => Renaming.token_replacing (hparams t ht) _
  rw [rename, hsame]
  exact .intro _ fname params (Stmt.renamedAll_renameAll hbody hrun hnames
    (fun j p hp _ => mem_localsAll_of_way hway j p hp) (keeps_of_way params hnodup hnames hway))

theorem Function.renamedAll_renameAll {ms : List (Function Label)}
    (hbody : ∀ m ∈ ms, ∀ s ∈ m.body, s.RenamesWell table name new Q) {around : Surroundings}
    {context : Context} (hready : ∀ m ∈ ms, m.Ready Q around m.methodContext context)
    (hnames : ∀ x ∈ Function.namesAll ms, x ≠ new) {i : Nat}
    (hway : ∀ j p, way = some (j :: p) → i ≤ j → ⟨j :: p, name⟩ ∈ Function.localsAll i ms) :
    Function.RenamedAll (.exchanging table name.lexeme new) inside ms
      (Function.renameAll (.replacing table name.lexeme new) way inside i ms) := by
  induction ms generalizing i with
  | nil => exact .nil
  | cons m ms ih =>
    obtain ⟨hm, hbody⟩ := List.forall_mem_cons.mp hbody
    obtain ⟨hmready, hready⟩ := List.forall_mem_cons.mp hready
    obtain ⟨hmnames, hnames⟩ := List.forall_mem_append.mp hnames
    obtain ⟨hfirst, hothers⟩ := (Function.leadFrom_localsAll (i + 1) ms).mem_of_way hway
    exact .cons (Function.renamed_rename hm hmready hmnames hfirst)
      (ih hbody hready hnames hothers)

/-- **Renaming in a statement changes names in scopes of it**, if it is ready and lacks the new
name. -/
theorem Stmt.renamesWell (s : Stmt Label) : s.RenamesWell table name new Q := by
  induction s using Stmt.inductionOn with
  | expression value =>
    intro around context way inside _ hnames _ _
    rw [rename, Expr.mapNames_replacing hnames]
    exact .expression value
  | print value =>
    intro around context way inside _ hnames _ _
    rw [rename, Expr.mapNames_replacing hnames]
    exact .print value
  | var declared initial =>
    intro around context way inside _ hnames _ _
    obtain ⟨hname, hnames⟩ := List.forall_mem_cons.mp hnames
    rw [rename, Expr.map_mapNames_replacing hnames, Renaming.token_replacing hname]
    exact .var declared initial
  | block body ih =>
    intro around context way inside hready hnames hway _
    have hbody := hready.block
    exact .block _ (Stmt.renamedAll_renameAll ih hbody hnames
      (fun j p hp _ => mem_localsAll_of_way hway j p hp)
      (keeps_of_way [] hbody.nodup hnames hway))
  | ifThen condition body ih =>
    intro around context way inside hready hnames hway _
    obtain ⟨_, hbody, hnone⟩ := hready.ifThen
    obtain ⟨hcondition, hnames⟩ := List.forall_mem_append.mp hnames
    rw [rename, Expr.mapNames_replacing hcondition]
    -- the way to the variable leads on into the body, if it leads into this statement
    refine .ifThen condition (ih around context _ inside hbody hnames
      (mem_of_way_into fun p hp => hway _ hp) ?_)
    rw [hnone]
    exact List.forall_mem_nil _
  | whileLoop condition body ih =>
    intro around context way inside hready hnames hway _
    obtain ⟨_, hbody, hnone⟩ := hready.whileLoop
    obtain ⟨hcondition, hnames⟩ := List.forall_mem_append.mp hnames
    rw [rename, Expr.mapNames_replacing hcondition]
    refine .whileLoop condition (ih around context _ inside hbody hnames
      (mem_of_way_into fun p hp => hway _ hp) ?_)
    rw [hnone]
    exact List.forall_mem_nil _
  | ifElse condition body other ihbody ihother =>
    intro around context way inside hready hnames hway _
    obtain ⟨_, ⟨hbody, hnone⟩, hother, hnone'⟩ := hready.ifElse
    obtain ⟨hcondition, hnames⟩ := List.forall_mem_append.mp hnames
    obtain ⟨hbodynames, hothernames⟩ := List.forall_mem_append.mp hnames
    rw [rename, Expr.mapNames_replacing hcondition]
    -- the way leads into one of the branches, which are its parts 0 and 1
    obtain ⟨hfirst, hsecond⟩ :=
      (leadFrom_map_ofPart 1 other.locals).mem_of_way fun j p hp _ => hway _ hp
    refine .ifElse condition (ihbody around context _ inside hbody hbodynames hfirst ?_)
      (ihother around context _ inside hother hothernames
        (mem_of_way_into fun p hp => hsecond 1 p hp (Nat.le_refl 1)) ?_)
    · rw [hnone]
      exact List.forall_mem_nil _
    · rw [hnone']
      exact List.forall_mem_nil _
  | function f ih =>
    intro around context way inside hready hnames hway hkeeps
    obtain ⟨_, hnames⟩ := List.forall_mem_cons.mp hnames
    -- the name of the function belongs to the scope around it, so it stays
    exact .function (hkeeps f.name List.mem_cons_self rfl)
      (Function.renamed_rename ih hready.function.2 hnames hway)
  | returnFrom keyword value =>
    intro around context way inside _ hnames _ _
    rw [rename, Expr.map_mapNames_replacing hnames]
    exact .returnFrom keyword value
  | classOf declared superclass methods ih =>
    intro around context way inside hready hnames hway hkeeps
    have hclass := hkeeps declared List.mem_cons_self rfl
    cases superclass with
    | none =>
      obtain ⟨_, hnames⟩ := List.forall_mem_cons.mp hnames
      exact .classOf hclass (Function.renamedAll_renameAll ih hready.classOf.2 hnames
        fun _ _ hp _ => hway _ hp)
    | some parent =>
      obtain ⟨_, hnames⟩ := List.forall_mem_cons.mp hnames
      obtain ⟨hparent, hnames⟩ := List.forall_mem_cons.mp hnames
      obtain ⟨_, _, _, _, _, hmethods⟩ := hready.subclassOf
      rw [rename, Renaming.reference_replacing hparent]
      exact .subclassOf parent hclass (Function.renamedAll_renameAll ih hmethods hnames
        fun _ _ hp _ => hway _ hp)
  | unknown form => exact fun _ _ _ _ _ _ _ _ => .unknown form

/-- **A program in which a local variable got a new name is the program with names changed in the
scope of the variable.** -/
theorem renamed_renameLocal {v : LocalVariable} {program : List (Stmt Label)}
    (hready : Stmt.ReadyAll Q ⟨.outside, .outside⟩ [] program)
    (hv : v ∈ localVariables program) (hnew : new ∉ Stmt.namesAll program) :
    Stmt.RenamedAll (.exchanging table v.name.lexeme new) [] program
      (renameLocal table v new program) := by
  have hnames : ∀ x ∈ Stmt.namesAll program, x ≠ new := fun x hx heq => hnew (heq ▸ hx)
  refine Stmt.renamedAll_renameAll (fun s _ => s.renamesWell) hready hnames ?_
    fun _ _ _ _ _ => Renaming.name_false _ _
  intro j p hp _
  rw [← Option.some.inj hp]
  exact hv

end

end LoxLang
