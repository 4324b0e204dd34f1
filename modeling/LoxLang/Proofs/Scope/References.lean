import LoxLang.Proofs.Scope.StaticScope

/-! # The references of a program

All references of a program in one list, those in the clauses of loops and the names of superclasses
included: they are the ones at its places (`references_sitesOf`), and once the program is labelled no
two of them have the same label (`nodup_labels`). -/

namespace LoxLang

variable {ι κ : Type}

/-- The references of an expression that may be absent. -/
def Expr.referencesOption : Option (Expr ι) → List (RefUse × Ref ι)
  | none => []
  | some e => e.references

mutual

/-- The references of a statement, with what each of them does. -/
def Stmt.references : Stmt ι → List (RefUse × Ref ι)
  | .expression value | .print value => value.references
  | .var _ initial => Expr.referencesOption initial
  | .block body => Stmt.referencesAll body
  | .ifThen condition body | .whileLoop condition body => condition.references ++ body.references
  | .ifElse condition body other =>
    condition.references ++ body.references ++ other.references
  | .function f => Function.references f
  | .returnFrom _ value => Expr.referencesOption value
  | .classOf _ none methods => Function.referencesAll methods
  | .classOf _ (some parent) methods => (.read, parent) :: Function.referencesAll methods
  | .unknown _ => []

/-- The references of statements. -/
def Stmt.referencesAll : List (Stmt ι) → List (RefUse × Ref ι)
  | [] => []
  | s :: ss => s.references ++ Stmt.referencesAll ss

/-- The references of a function. -/
def Function.references : Function ι → List (RefUse × Ref ι)
  | ⟨_, _, body⟩ => Stmt.referencesAll body

/-- The references of functions. -/
def Function.referencesAll : List (Function ι) → List (RefUse × Ref ι)
  | [] => []
  | f :: fs => Function.references f ++ Function.referencesAll fs

end

theorem Stmt.referencesAll_eq (ss : List (Stmt ι)) :
    Stmt.referencesAll ss = ss.flatMap Stmt.references := by
  induction ss with
  | nil => rfl
  | cons s ss ih => rw [referencesAll, ih, List.flatMap_cons]

theorem Function.referencesAll_eq (fs : List (Function ι)) :
    Function.referencesAll fs = fs.flatMap Function.references := by
  induction fs with
  | nil => rfl
  | cons f fs ih => rw [referencesAll, ih, List.flatMap_cons]

/-! ## The references at places -/

/-- The reference at a place. -/
def Site.reference? (site : Site ι) : Option (RefUse × Ref ι) :=
  match site.occurrence with
  | .reference use ref => some (use, ref)
  | _ => none

/-- The references at places. -/
def referencesAt (sites : List (Site ι)) : List (RefUse × Ref ι) := sites.filterMap Site.reference?

@[simp] theorem referencesAt_append (sites sites' : List (Site ι)) :
    referencesAt (sites ++ sites') = referencesAt sites ++ referencesAt sites' :=
  List.filterMap_append

theorem labelsAt_eq (sites : List (Site Label)) :
    labelsAt sites = (referencesAt sites).map fun r => r.2.label := by
  rw [labelsAt, referencesAt, List.map_filterMap]
  refine List.filterMap_congr fun site _ => ?_
  obtain ⟨occurrence, around⟩ := site
  cases occurrence <;> rfl

section
variable (around : Whereabouts ι)

theorem referencesAt_expression (e : Expr ι) : referencesAt (e.sites around) = e.references := by
  rw [referencesAt, Expr.sites, List.filterMap_map]
  exact List.filterMap_some

theorem referencesAt_option (e : Option (Expr ι)) :
    referencesAt (Expr.sitesOption around e) = Expr.referencesOption e := by
  cases e with
  | none => rfl
  | some e => exact referencesAt_expression around e

theorem referencesAt_parameterSites (earlier names : List Token) :
    referencesAt (parameterSites around earlier names) = [] := by
  induction names generalizing earlier with
  | nil => rfl
  | cons name names ih => exact ih _

theorem referencesAt_statements_of {ss : List (Stmt ι)}
    (h : ∀ s ∈ ss, ∀ around, referencesAt (s.sites around) = s.references) (owner : BodyOf ι)
    (earlier : List (Stmt ι)) :
    referencesAt (Stmt.sitesAll owner around earlier ss) = Stmt.referencesAll ss := by
  induction ss generalizing earlier with
  | nil => rfl
  | cons s ss ih =>
    rw [Stmt.sitesAll, referencesAt_append, h s List.mem_cons_self,
      ih fun s' hs' => h s' (List.mem_cons_of_mem s hs')]
    rfl

theorem referencesAt_function_of {f : Function ι}
    (h : ∀ s ∈ f.body, ∀ around, referencesAt (s.sites around) = s.references)
    (isMethod : Bool) :
    referencesAt (Function.sites isMethod around f) = Function.references f := by
  obtain ⟨name, params, body⟩ := f
  rw [Function.sites, referencesAt_append, referencesAt_parameterSites]
  exact referencesAt_statements_of around h _ []

theorem referencesAt_methods_of {fs : List (Function ι)}
    (h : ∀ f ∈ fs, ∀ s ∈ f.body, ∀ around, referencesAt (s.sites around) = s.references) :
    referencesAt (Function.sitesAll around fs) = Function.referencesAll fs := by
  induction fs with
  | nil => rfl
  | cons f fs ih =>
    rw [Function.sitesAll, referencesAt_append,
      referencesAt_function_of around (h f List.mem_cons_self),
      ih fun f' hf' => h f' (List.mem_cons_of_mem f hf')]
    rfl

theorem referencesAt_statement (s : Stmt ι) : referencesAt (s.sites around) = s.references := by
  induction s using Stmt.inductionOn generalizing around with
  | expression value | print value => exact referencesAt_expression around value
  | var name initial => exact referencesAt_option _ initial
  | block body ih =>
    exact referencesAt_statements_of around (fun s hs around => ih s hs around) .block []
  | ifThen condition body ih | whileLoop condition body ih =>
    rw [Stmt.sites, referencesAt_append, referencesAt_expression, ih]
    rfl
  | ifElse condition body other ihbody ihother =>
    rw [Stmt.sites, referencesAt_append, referencesAt_append, referencesAt_expression, ihbody,
      ihother]
    rfl
  | function declaration ih =>
    exact referencesAt_function_of around (fun s hs around => ih s hs around) false
  | returnFrom keyword value => exact referencesAt_option around value
  | classOf name superclass methods ih =>
    have hmethods := fun around => referencesAt_methods_of around fun m hm s hs around =>
      ih m hm s hs around
    cases superclass with
    | none => exact hmethods _
    | some parent => exact congrArg ((.read, parent) :: ·) (hmethods _)
  | unknown form => rfl

end

/-- **The references of a program are those at its places**, each at one place. -/
theorem references_sitesOf (program : List (Stmt ι)) :
    referencesAt (sitesOf program) = Stmt.referencesAll program := by
  induction program with
  | nil => rfl
  | cons s program ih =>
    rw [sitesOf, List.flatMap_cons, referencesAt_append, referencesAt_statement]
    exact congrArg (s.references ++ ·) ih

/-- The labels of the references of a labelled program are those that were given out, each once. -/
theorem fills_references (n : Label) (program : List (Stmt ι)) :
    Label.Fills n (Stmt.relabelAll n program).2
      ((Stmt.referencesAll (Stmt.relabelAll n program).1).map fun r => r.2.label) := by
  rw [← references_sitesOf, ← labelsAt_eq]
  exact fills_sitesOf n program

/-! ## Changed programs -/

section
variable (g : ι → κ) (φ : Token → Token)

/-- Changes the mark and the token of a reference, but not what it does. -/
def changeReference (r : RefUse × Ref ι) : RefUse × Ref κ := (r.1, r.2.map g φ)

theorem Expr.referencesOption_map (e : Option (Expr ι)) :
    Expr.referencesOption (e.map (Expr.map g φ)) =
      (Expr.referencesOption e).map (changeReference g φ) := by
  cases e with
  | none => rfl
  | some e => exact e.references_map

theorem Function.references_map_of {f : Function ι}
    (h : ∀ s ∈ f.body, (s.map g φ).references = s.references.map (changeReference g φ)) :
    Function.references (Function.map g φ f) =
      (Function.references f).map (changeReference g φ) := by
  obtain ⟨name, params, body⟩ := f
  rw [Function.map_eq, references, references, Stmt.referencesAll_eq, Stmt.referencesAll_eq,
    List.flatMap_map, List.map_flatMap]
  exact List.flatMap_congr h

theorem Stmt.references_map (s : Stmt ι) :
    (s.map g φ).references = s.references.map (changeReference g φ) := by
  have hexpression : ∀ e : Expr ι, (e.map g φ).references =
      e.references.map (changeReference g φ) := Expr.references_map
  induction s using Stmt.inductionOn with
  | expression value | print value => exact hexpression value
  | var name initial => exact Expr.referencesOption_map g φ initial
  | block body ih =>
    rw [map, references, references, mapAll_eq, referencesAll_eq, referencesAll_eq,
      List.flatMap_map, List.map_flatMap]
    exact List.flatMap_congr ih
  | function declaration ih => exact Function.references_map_of g φ ih
  | returnFrom keyword value => exact Expr.referencesOption_map g φ value
  | classOf name superclass methods ih =>
    have hmethods : Function.referencesAll (Function.mapAll g φ methods) =
        (Function.referencesAll methods).map (changeReference g φ) := by
      rw [Function.mapAll_eq, Function.referencesAll_eq, Function.referencesAll_eq,
        List.flatMap_map, List.map_flatMap]
      exact List.flatMap_congr fun m hm => Function.references_map_of g φ (ih m hm)
    cases superclass with
    | none => exact hmethods
    | some parent => exact congrArg ((.read, parent.map g φ) :: ·) hmethods
  | unknown form => rfl
  | _ => simp_all [map, references]

theorem Stmt.referencesAll_map (ss : List (Stmt ι)) :
    Stmt.referencesAll (ss.map (Stmt.map g φ)) =
      (Stmt.referencesAll ss).map (changeReference g φ) := by
  rw [referencesAll_eq, referencesAll_eq, List.flatMap_map, List.map_flatMap]
  exact List.flatMap_congr fun s _ => s.references_map g φ

end

end LoxLang
