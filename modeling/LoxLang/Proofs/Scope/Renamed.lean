import LoxLang.Proofs.Scope.Height
import LoxLang.Proofs.Scope.Ready
import LoxLang.Proofs.Scope.Recorded
import LoxLang.Proofs.Syntax.Renaming

/-! # Binding a program with changed names

A program has references and declarations, and next to it stands the same program with names
changed in some local scopes.  If no name of the program changes into another one of it, the binding
pass comes to the same findings in both: each reference leads as many scopes out, and each broken
rule is broken on the same line (`bindProgram_renamed`). -/

namespace LoxLang

open Binder (Surroundings FunctionContext ClassContext)

variable {ι : Type}

/-! ## The names of a program -/

/-- The names that an expression refers to. -/
def Expr.names (e : Expr ι) : List String := e.references.map fun use => use.2.name.lexeme

/-- The names that an expression refers to, if it is there. -/
def Expr.namesOption : Option (Expr ι) → List String
  | none => []
  | some e => e.names

mutual

/-- The names that a statement declares or refers to. -/
def Stmt.names : Stmt ι → List String
  | .expression value | .print value => value.names
  | .var name initial => name.lexeme :: Expr.namesOption initial
  | .block body => Stmt.namesAll body
  | .ifThen condition body | .whileLoop condition body => condition.names ++ body.names
  | .ifElse condition body other => condition.names ++ (body.names ++ other.names)
  | .function f => f.name.lexeme :: Function.names f
  | .returnFrom _ value => Expr.namesOption value
  | .classOf name none methods => name.lexeme :: Function.namesAll methods
  | .classOf name (some parent) methods =>
    name.lexeme :: parent.name.lexeme :: Function.namesAll methods
  | .unknown _ => []

/-- The names that statements declare or refer to. -/
def Stmt.namesAll : List (Stmt ι) → List String
  | [] => []
  | s :: ss => s.names ++ Stmt.namesAll ss

/-- The names that a function declares or refers to, from its parameters on. -/
def Function.names : Function ι → List String
  | ⟨_, params, body⟩ => params.map Token.lexeme ++ Stmt.namesAll body

/-- The names that methods declare or refer to, from their parameters on. -/
def Function.namesAll : List (Function ι) → List String
  | [] => []
  | m :: ms => Function.names m ++ Function.namesAll ms

end

theorem Stmt.namesAll_eq (ss : List (Stmt ι)) : Stmt.namesAll ss = ss.flatMap Stmt.names := by
  induction ss with
  | nil => rfl
  | cons s ss ih => rw [namesAll, ih, List.flatMap_cons]

/-- A statement declares names of its own. -/
theorem Stmt.lexeme_mem_names (s : Stmt ι) : ∀ t ∈ s.declares, t.lexeme ∈ s.names := by
  induction s using Stmt.inductionOn with
  | var name initial => simp [declares, names]
  | function f => simp [declares, names]
  | classOf name superclass methods => cases superclass <;> simp [declares, names]
  | ifThen condition body ih | whileLoop condition body ih =>
    exact fun t ht => List.mem_append_right _ (ih t ht)
  | ifElse condition body other ihbody ihother =>
    intro t ht
    rcases List.mem_append.mp ht with ht | ht
    · exact List.mem_append_right _ (List.mem_append_left _ (ihbody t ht))
    · exact List.mem_append_right _ (List.mem_append_right _ (ihother t ht))
  | _ => exact List.forall_mem_nil _

/-! ## Open scopes -/

/-- No name of a program, and none of the words `this` and `super`, changes into another one. -/
structure Renaming.Apart (r : Renaming) (IsOld : String → Prop) : Prop where
  lawful : r.Lawful
  surjective : Function.Surjective r.change
  eq_of_change : ∀ {x y : String}, IsOld x → IsOld y → r.change x = y → x = y
  this : IsOld "this"
  super : IsOld "super"

/-- The same scopes are open, with other names in those in which names change. -/
inductive Context.Alike (r : Renaming) (IsOld : String → Prop) :
    List Bool → Context → Context → Prop
  | nil : Alike r IsOld [] [] []
  | cons {inside : List Bool} {context context' : Context} (here : Bool)
      {scope scope' : OpenScope}
      (hscope : scope.declared.Matches (r.name here) Eq scope'.declared)
      (hold : ∀ name, scope.has name → IsOld name)
      (houter : Alike r IsOld inside context context') :
      Alike r IsOld (here :: inside) (scope :: context) (scope' :: context')

section
variable {r : Renaming} {IsOld : String → Prop} {inside : List Bool} {context context' : Context}

/-- Old names that become the same name are the same, whether they change or not. -/
theorem Renaming.Apart.eq_of_name_eq (h : r.Apart IsOld) {x y : String} (hx : IsOld x)
    (hy : IsOld y) {here there : Bool} (heq : r.name here x = r.name there y) : x = y := by
  cases here with
  | false =>
    cases there with
    | false => exact heq
    | true => exact (h.eq_of_change hy hx heq.symm).symm
  | true =>
    cases there with
    | false => exact h.eq_of_change hx hy heq
    | true => exact h.lawful.injective heq

theorem Renaming.Apart.name_surjective (h : r.Apart IsOld) (here : Bool) :
    Function.Surjective (r.name here) := by
  cases here with
  | false => exact fun name => ⟨name, rfl⟩
  | true => exact h.surjective

namespace Context.Alike

/-- A scope that lacks a name lacks what becomes of it. -/
theorem has_eq_false (hr : r.Apart IsOld) {here : Bool} {scope scope' : OpenScope}
    (hscope : scope.declared.Matches (r.name here) Eq scope'.declared)
    (hold : ∀ name, scope.has name → IsOld name) {name : String} (hname : IsOld name)
    (hlacks : scope.has name = false) (there : Bool) :
    scope'.has (r.name there name) = false := by
  refine Bool.eq_false_iff.mpr fun hhas => ?_
  -- what the scope has comes from a name `other` that it had, and old names do not meet
  obtain ⟨other, hother⟩ := hr.name_surjective here (r.name there name)
  have hin : scope.has other = true := by
    rw [← hother] at hhas
    exact (hscope.contains_eq other).symm.trans hhas
  rw [hr.eq_of_name_eq (hold other hin) hname hother, hlacks] at hin
  cases hin

/-- A local name leads as many scopes out, once it has changed as in the scope it leads to. -/
theorem hops?_eq_some (h : Context.Alike r IsOld inside context context') (hr : r.Apart IsOld)
    {name : String} (hname : IsOld name) {hops : Nat} (hhops : context.hops? name = some hops) :
    context'.hops? (r.name (inside.getD hops false) name) = some hops := by
  induction h generalizing hops with
  | nil => cases hhops
  | @cons _ _ _ here scope scope' hscope hold _ ih =>
    rw [Context.hops?_cons] at hhops ⊢
    cases hhas : scope.has name with
    | true =>
      rw [if_pos hhas] at hhops
      cases hhops
      exact if_pos ((hscope.contains_eq name).trans hhas)
    | false =>
      -- a scope that was passed is passed again, although the name may have changed in an outer one
      rw [if_neg (by simp [hhas])] at hhops
      obtain ⟨outer, houter, rfl⟩ := Option.map_eq_some_iff.mp hhops
      rw [List.getD_cons_succ, has_eq_false hr hscope hold hname hhas, ih houter]
      rfl

/-- A name that is not local does not become local. -/
theorem hops?_eq_none (h : Context.Alike r IsOld inside context context') (hr : r.Apart IsOld)
    {name : String} (hname : IsOld name) (hhops : context.hops? name = none) (there : Bool) :
    context'.hops? (r.name there name) = none := by
  induction h with
  | nil => rfl
  | @cons _ _ _ here scope scope' hscope hold _ ih =>
    rw [Context.hops?_cons] at hhops ⊢
    cases hhas : scope.has name with
    | true => simp [hhas] at hhops
    | false =>
      rw [if_neg (by simp [hhas]), Option.map_eq_none_iff] at hhops
      rw [has_eq_false hr hscope hold hname hhas, ih hhops]
      rfl

/-- A reference leads as many scopes out as before, if the table has led it right. -/
theorem hops?_reference (h : Context.Alike r IsOld inside context context') (hr : r.Apart IsOld)
    {ref : Ref Label} (hname : IsOld ref.name.lexeme)
    (htable : r.table.hops? ref.label = context.hops? ref.name.lexeme) :
    context'.hops? (r.reference inside ref).name.lexeme = context.hops? ref.name.lexeme := by
  unfold Renaming.reference
  cases hhops : context.hops? ref.name.lexeme with
  | some hops =>
    rw [htable, hhops]
    exact h.hops?_eq_some hr hname hhops
  | none =>
    rw [htable, hhops]
    exact h.hops?_eq_none hr hname hhops false

/-- A reference means a name that is not defined yet just if it did before. -/
theorem isPending_reference (h : Context.Alike r IsOld inside context context')
    (hr : r.Apart IsOld) {ref : Ref Label} (hname : IsOld ref.name.lexeme)
    (htable : r.table.hops? ref.label = context.hops? ref.name.lexeme) :
    context'.isPending (r.reference inside ref).name.lexeme =
      context.isPending ref.name.lexeme := by
  cases h with
  | nil => rfl
  | @cons inside _ _ here scope scope' hscope hold _ =>
    -- only the innermost scope counts: the reference leads there, or the scope lacks the name
    have hpending : scope'.declared.get? (r.reference (here :: inside) ref).name.lexeme =
        scope.declared.get? ref.name.lexeme := by
      cases hhas : scope.has ref.name.lexeme with
      | true =>
        rw [Context.hops?_cons, if_pos hhas] at htable
        rw [Renaming.reference, htable]
        exact hscope.get?_eq ref.name.lexeme
      | false =>
        obtain ⟨there, hthere⟩ := r.exists_reference_eq (here :: inside) ref
        have hlacks := has_eq_false hr hscope hold hname hhas there
        rw [hthere]
        exact (Option.not_isSome_iff_eq_none.mp (Bool.eq_false_iff.mp hlacks)).trans
          (Option.not_isSome_iff_eq_none.mp (Bool.eq_false_iff.mp hhas)).symm
    simp [Context.isPending, hpending]

theorem mark (h : Context.Alike r IsOld inside context context') (hr : r.Apart IsOld)
    {name : String} (hname : IsOld name) (defined : Bool) :
    Context.Alike r IsOld inside (context.mark name defined)
      (context'.mark (r.name (inside.headD false) name) defined) := by
  cases h with
  | nil => exact .nil
  | cons here hscope hold houter =>
    refine .cons here (hscope.insert (hr.lawful.name_injective here) name rfl) ?_ houter
    intro other hother
    rw [OpenScope.has_mark, Bool.or_eq_true, beq_iff_eq] at hother
    rcases hother with rfl | hother
    · exact hname
    · exact hold other hother

theorem introduceAll (h : Context.Alike r IsOld inside context context') (hr : r.Apart IsOld)
    {names : List Token} (hnames : ∀ t ∈ names, IsOld t.lexeme) :
    Context.Alike r IsOld inside (context.introduceAll names)
      (context'.introduceAll (names.map (r.token (inside.headD false)))) := by
  induction names generalizing context context' with
  | nil => exact h
  | cons name names ih =>
    obtain ⟨hname, hnames⟩ := List.forall_mem_cons.mp hnames
    exact ih (h.mark hr hname true) hnames

/-- A scope of names is entered. -/
theorem fresh (h : Context.Alike r IsOld inside context context') (here : Bool)
    (names names' : List Token) :
    Context.Alike r IsOld (here :: inside) (OpenScope.fresh names :: context)
      (OpenScope.fresh names' :: context') :=
  .cons here (Bindings.matches_empty _ _) (fun _ hhas => nomatch hhas) h

/-- The scope of a word is entered. -/
theorem ofWord (h : Context.Alike r IsOld inside context context') {word : String}
    (hword : IsOld word) :
    Context.Alike r IsOld (false :: inside) (OpenScope.ofWord word :: context)
      (OpenScope.ofWord word :: context') := by
  refine .cons false (Bindings.matches_self fun _ _ _ => rfl) (fun name hhas => ?_) h
  rw [OpenScope.has_ofWord, beq_iff_eq] at hhas
  rwa [hhas]

end Context.Alike

end

/-! ## Findings -/

/-- The findings are alike: a reference of the same label that leads as many scopes out, or the same
rule broken on the same line. -/
inductive Finding.Alike : Finding Label → Finding Label → Prop
  | use {u u' : Use Label} (hlabel : u'.ref.label = u.ref.label) (hhops : u'.hops? = u.hops?) :
      Alike (.use u) (.use u')
  | error (fault : ScopeFault) {place place' : Token} (hline : place'.line = place.line) :
      Alike (.error ⟨fault, place⟩) (.error ⟨fault, place'⟩)

/-- Findings are alike, one by one. -/
abbrev FindingsAlike : List (Finding Label) → List (Finding Label) → Prop :=
  List.Forall₂ Finding.Alike

/-- The table leads the references among findings where they lead. -/
def BindingTable.Fits (table : BindingTable) (fs : List (Finding Label)) : Prop :=
  ∀ u, .use u ∈ fs → table.hops? u.ref.label = u.hops?

namespace BindingTable.Fits

variable {table : BindingTable} {fs gs : List (Finding Label)}

theorem left (h : table.Fits (fs ++ gs)) : table.Fits fs :=
  fun u hu => h u (List.mem_append_left _ hu)

theorem right (h : table.Fits (fs ++ gs)) : table.Fits gs :=
  fun u hu => h u (List.mem_append_right _ hu)

end BindingTable.Fits

section
variable {r : Renaming} {IsOld : String → Prop} {inside : List Bool} {context context' : Context}
  (hr : r.Apart IsOld)

theorem FindingsAlike.append {fs fs' gs gs' : List (Finding Label)} (h : FindingsAlike fs fs')
    (h' : FindingsAlike gs gs') : FindingsAlike (fs ++ gs) (fs' ++ gs') := List.rel_append h h'

include hr in
/-- What is found at a reference is alike. -/
theorem findingsAlike_reference (h : Context.Alike r IsOld inside context context')
    (around : Surroundings) (use : RefUse) {ref : Ref Label} (hname : IsOld ref.name.lexeme)
    (htable : r.table.Fits (Use.findings ⟨ref, use, around, context⟩)) :
    FindingsAlike (Use.findings ⟨ref, use, around, context⟩)
      (Use.findings ⟨r.reference inside ref, use, around, context'⟩) := by
  have hline := r.line_reference inside ref
  by_cases hthis : use = .this ∧ around.classBody = .outside
  -- such a `this` is reported and not looked up, so the table says nothing of it
  · obtain ⟨rfl, hclass⟩ := hthis
    simp only [Use.findings, Use.errors, hclass]
    exact .cons (.error .thisOutsideClass hline) .nil
  · have hfits : r.table.hops? ref.label = context.hops? ref.name.lexeme :=
      htable ⟨ref, use, around, context⟩ (by simp [Use.findings, hthis])
    have huse : FindingsAlike [.use ⟨ref, use, around, context⟩]
        [.use ⟨r.reference inside ref, use, around, context'⟩] :=
      .cons (.use (r.label_reference inside ref) (h.hops?_reference hr hname hfits)) .nil
    have hpending := h.isPending_reference hr hname hfits
    unfold Use.findings
    rw [if_neg hthis, if_neg hthis]
    refine .append ?_ huse
    unfold Use.errors Use.isPending
    cases use with
    | read =>
      dsimp only
      rw [hpending]
      split
      · exact .cons (.error .readInOwnInitializer hline) .nil
      · exact .nil
    | assign => exact .nil
    | this =>
      cases hclass : around.classBody with
      | outside => exact absurd ⟨rfl, hclass⟩ hthis
      | plain | derived => exact .nil
    | super =>
      cases around.classBody with
      | outside => exact .cons (.error .superOutsideClass hline) .nil
      | plain => exact .cons (.error .superWithoutSuperclass hline) .nil
      | derived => exact .nil

/-! ## Parts of a program -/

include hr in
/-- What is found in an expression is alike. -/
theorem Expr.findingsAlike (h : Context.Alike r IsOld inside context context')
    (around : Surroundings) {e : Expr Label} (he : e.WellFormed)
    (hnames : ∀ name ∈ e.names, IsOld name)
    (htable : r.table.Fits (e.visit around context)) :
    FindingsAlike (e.visit around context)
      ((e.mapNames (r.reference inside)).visit around context') := by
  have hword := he.references_word
  rw [names, List.forall_mem_map] at hnames
  unfold visit at htable ⊢
  rw [references_mapNames, List.flatMap_map]
  generalize e.references = refs at hword hnames htable
  induction refs with
  | nil => exact .nil
  | cons use refs ih =>
    obtain ⟨hfirst, hword⟩ := List.forall_mem_cons.mp hword
    obtain ⟨hname, hnames⟩ := List.forall_mem_cons.mp hnames
    rw [List.flatMap_cons] at htable
    have hreference := findingsAlike_reference hr h around use.1 hname htable.left
    have hsame : mapReference (r.reference inside) use = (use.1, r.reference inside use.2) := by
      obtain ⟨kind, ref⟩ := use
      cases kind with
      | read | assign => rfl
      | this => rw [hr.lawful.reference_this (hfirst.1 rfl), mapReference]
      | super => rw [hr.lawful.reference_super (hfirst.2 rfl), mapReference]
    rw [List.flatMap_cons, List.flatMap_cons, hsame]
    exact hreference.append (ih hword hnames htable.right)

include hr in
theorem Expr.findingsAlike_option (h : Context.Alike r IsOld inside context context')
    (around : Surroundings) {e : Option (Expr Label)} (he : ∀ x ∈ e, x.WellFormed)
    (hnames : ∀ name ∈ Expr.namesOption e, IsOld name)
    (htable : r.table.Fits (Expr.visitOption around context e)) :
    FindingsAlike (Expr.visitOption around context e)
      (Expr.visitOption around context' (e.map (Expr.mapNames (r.reference inside)))) := by
  cases e with
  | none => exact .nil
  | some e => exact Expr.findingsAlike hr h around (he e rfl) hnames htable

/-- A name is declared again just if it was before. -/
theorem findingsAlike_redeclared (h : Context.Alike r IsOld inside context context') (t : Token) :
    FindingsAlike (context.redeclared t)
      (context'.redeclared (r.token (inside.headD false) t)) := by
  cases h with
  | nil => exact .nil
  | @cons _ outer outer' here scope scope' hscope _ _ =>
    have hhas : (scope' :: outer').head?.any (fun scope => scope.has (r.token here t).lexeme) =
        (scope :: outer).head?.any (fun scope => scope.has t.lexeme) := hscope.contains_eq t.lexeme
    rw [List.headD_cons, Context.redeclared, Context.redeclared, hhas]
    by_cases hdeclared : (scope :: outer).head?.any (fun scope => scope.has t.lexeme) = true
    · rw [if_pos hdeclared, if_pos hdeclared]
      exact .cons (.error .alreadyDeclared rfl) .nil
    · rw [if_neg hdeclared, if_neg hdeclared]
      exact .nil

include hr in
theorem findingsAlike_redeclaredAll (h : Context.Alike r IsOld inside context context')
    {names : List Token} (hnames : ∀ t ∈ names, IsOld t.lexeme) :
    FindingsAlike (context.redeclaredAll names)
      (context'.redeclaredAll (names.map (r.token (inside.headD false)))) := by
  induction names generalizing context context' with
  | nil => exact .nil
  | cons name names ih =>
    obtain ⟨hname, hnames⟩ := List.forall_mem_cons.mp hnames
    exact (findingsAlike_redeclared h name).append (ih (h.mark hr hname true) hnames)

theorem findingsAlike_returnErrors (around : Surroundings) (keyword : Token)
    {value value' : Option (Expr Label)} (h : value'.isSome = value.isSome) :
    FindingsAlike (returnErrors around keyword value) (returnErrors around keyword value') := by
  unfold returnErrors
  rw [h]
  refine .append ?_ ?_
  all_goals
    split
    · exact .cons (.error _ rfl) .nil
    · exact .nil

variable (r IsOld) in
/-- What is found in a statement is alike once names have changed in it. -/
def Stmt.FoundAlike (s : Stmt Label) : Prop :=
  ∀ (around : Surroundings) (inside : List Bool) (context context' : Context) (s' : Stmt Label),
    s.WellFormed → Stmt.Renamed r inside s s' → Context.Alike r IsOld inside context context' →
      (∀ name ∈ s.names, IsOld name) → r.table.Fits (s.visit around context) →
        FindingsAlike (s.visit around context) (s'.visit around context')

include hr in
theorem Stmt.RenamedAll.findingsAlike {ss ss' : List (Stmt Label)}
    (hss : ∀ s ∈ ss, s.FoundAlike r IsOld) (hwf : ∀ s ∈ ss, s.WellFormed)
    (hrenamed : Stmt.RenamedAll r inside ss ss') (h : Context.Alike r IsOld inside context context')
    (hnames : ∀ name ∈ Stmt.namesAll ss, IsOld name) (around : Surroundings)
    (htable : r.table.Fits (Stmt.visitAll around context ss)) :
    FindingsAlike (Stmt.visitAll around context ss) (Stmt.visitAll around context' ss') := by
  induction ss generalizing ss' context context' with
  | nil =>
    cases hrenamed
    exact .nil
  | cons s ss ih =>
    obtain ⟨hs, hss⟩ := List.forall_mem_cons.mp hss
    obtain ⟨hswf, hwf⟩ := List.forall_mem_cons.mp hwf
    obtain ⟨hsnames, hnames⟩ := List.forall_mem_append.mp hnames
    cases hrenamed with
    | cons hsrenamed hrenamed =>
      have hdeclares : ∀ t ∈ s.declares, IsOld t.lexeme := fun t ht =>
        hsnames t.lexeme (s.lexeme_mem_names t ht)
      rw [Stmt.visitAll, Stmt.visitAll, hsrenamed.declares_eq]
      exact (hs around inside context context' _ hswf hsrenamed h hsnames htable.left).append
        (ih hss hwf hrenamed (h.introduceAll hr hdeclares) hnames htable.right)

include hr in
theorem Function.Renamed.findingsAlike {f f' : Function Label}
    (hbody : ∀ s ∈ f.body, s.FoundAlike r IsOld) (hwf : f.WellFormed)
    (hrenamed : Function.Renamed r inside f f') (h : Context.Alike r IsOld inside context context')
    (hnames : ∀ name ∈ Function.names f, IsOld name) (around : Surroundings)
    (kind : FunctionContext)
    (htable : r.table.Fits (Function.visit around kind context f)) :
    FindingsAlike (Function.visit around kind context f)
      (Function.visit around kind context' f') := by
  cases hrenamed with
  | @intro _ here name params body body' hrenamed =>
    obtain ⟨hparams, hnames⟩ := List.forall_mem_append.mp hnames
    rw [List.forall_mem_map] at hparams
    have hinner := h.fresh here (FunctionOf.scopeNames ⟨name, params, body⟩)
      (FunctionOf.scopeNames ⟨name, params.map (r.token here), body'⟩)
    exact (findingsAlike_redeclaredAll hr hinner hparams).append
      (hrenamed.findingsAlike hr hbody hwf.body (hinner.introduceAll hr hparams) hnames _
        htable.right)

include hr in
theorem Function.RenamedAll.findingsAlike {ms ms' : List (Function Label)}
    (hbody : ∀ m ∈ ms, ∀ s ∈ m.body, s.FoundAlike r IsOld) (hwf : ∀ m ∈ ms, m.WellFormed)
    (hrenamed : Function.RenamedAll r inside ms ms')
    (h : Context.Alike r IsOld inside context context')
    (hnames : ∀ name ∈ Function.namesAll ms, IsOld name) (around : Surroundings)
    (htable : r.table.Fits (Function.visitMethods around context ms)) :
    FindingsAlike (Function.visitMethods around context ms)
      (Function.visitMethods around context' ms') := by
  induction ms generalizing ms' with
  | nil =>
    cases hrenamed
    exact .nil
  | cons m ms ih =>
    obtain ⟨hm, hbody⟩ := List.forall_mem_cons.mp hbody
    obtain ⟨hmwf, hwf⟩ := List.forall_mem_cons.mp hwf
    obtain ⟨hmnames, hnames⟩ := List.forall_mem_append.mp hnames
    cases hrenamed with
    | @cons _ _ m' _ _ hmrenamed hrenamed =>
      have hkind : m'.methodContext = m.methodContext := by
        rw [FunctionOf.methodContext, FunctionOf.isInitializer, hmrenamed.name_eq]
        rfl
      rw [Function.visitMethods, Function.visitMethods, hkind]
      exact (hmrenamed.findingsAlike hr hm hmwf h hmnames around m.methodContext htable.left).append
        (ih hbody hwf hrenamed hnames htable.right)

include hr in
/-- The name of a superclass becomes that of the class just if it was that. -/
theorem lexeme_reference_eq_iff (h : Context.Alike r IsOld inside context context') {name : Token}
    {parent : Ref Label} (hkeeps : r.Keeps inside name) (hname : IsOld name.lexeme)
    (hparent : IsOld parent.name.lexeme)
    (htable : r.table.hops? parent.label = (context.introduce name).hops? parent.name.lexeme) :
    (r.reference inside parent).name.lexeme = name.lexeme ↔
      parent.name.lexeme = name.lexeme := by
  constructor
  · intro heq
    obtain ⟨there, hthere⟩ := r.exists_reference_eq inside parent
    rw [hthere, ← hkeeps] at heq
    exact hr.eq_of_name_eq hparent hname heq
  · intro heq
    cases h with
    | nil =>
      rw [Renaming.reference, htable]
      exact heq
    | cons here =>
      -- the reference leads to the class itself, no scope out, and its name stays there
      rw [heq, Context.introduce, Context.mark_cons, Context.hops?_cons,
        if_pos (by simp [OpenScope.has_mark])] at htable
      rw [Renaming.reference, htable]
      exact (congrArg (r.name here) heq).trans hkeeps

include hr in
/-- A class inherits from itself just if it did before. -/
theorem findingsAlike_inherits (h : Context.Alike r IsOld inside context context') {name : Token}
    {parent : Ref Label} (hkeeps : r.Keeps inside name) (hname : IsOld name.lexeme)
    (hparent : IsOld parent.name.lexeme)
    (htable : r.table.hops? parent.label = (context.introduce name).hops? parent.name.lexeme) :
    FindingsAlike
      (if parent.name.lexeme = name.lexeme then
        [.error ⟨.inheritsFromItself, parent.name⟩] else [])
      (if (r.reference inside parent).name.lexeme = name.lexeme then
        [.error ⟨.inheritsFromItself, (r.reference inside parent).name⟩] else []) := by
  have hself := lexeme_reference_eq_iff hr h hkeeps hname hparent htable
  by_cases heq : parent.name.lexeme = name.lexeme
  · rw [if_pos heq, if_pos (hself.mpr heq)]
    exact .cons (.error .inheritsFromItself (r.line_reference inside parent)) .nil
  · rw [if_neg heq, if_neg fun heq' => heq (hself.mp heq')]
    exact .nil

include hr in
/-- A function or class, whose name stays, is declared in scopes that are alike, and they are alike
behind it. -/
theorem findingsAlike_declared (h : Context.Alike r IsOld inside context context') {name : Token}
    (hkeeps : r.Keeps inside name) (hname : IsOld name.lexeme) :
    FindingsAlike (context.redeclared name) (context'.redeclared name) ∧
      Context.Alike r IsOld inside (context.introduce name) (context'.introduce name) := by
  have hredeclared := findingsAlike_redeclared h name
  have hinner := h.mark hr hname true
  rw [hkeeps.token_eq] at hredeclared
  rw [hkeeps] at hinner
  exact ⟨hredeclared, hinner⟩

include hr in
/-- **What is found in a statement is alike** once names have changed in it. -/
theorem Stmt.foundAlike (s : Stmt Label) : s.FoundAlike r IsOld := by
  induction s using Stmt.inductionOn with
  | expression value =>
    intro around inside context context' s' hwf hs h hnames htable
    cases hs
    cases hwf with
    | expression hvalue => exact value.findingsAlike hr h around hvalue hnames htable
  | print value =>
    intro around inside context context' s' hwf hs h hnames htable
    cases hs
    cases hwf with
    | print hvalue => exact value.findingsAlike hr h around hvalue hnames htable
  | var name initial =>
    intro around inside context context' s' hwf hs h hnames htable
    obtain ⟨hname, hnames⟩ := List.forall_mem_cons.mp hnames
    cases hs
    cases hwf with
    | var _ hinitial =>
      -- the initializer is bound where the name is declared already, but not defined
      exact (findingsAlike_redeclared h name).append (Expr.findingsAlike_option hr
        (h.mark hr hname false) around hinitial hnames htable.right)
  | block body ih =>
    intro around inside context context' s' hwf hs h hnames htable
    cases hs with
    | @block _ here _ body' hbody =>
      cases hwf with
      | block hbodywf =>
        exact hbody.findingsAlike hr ih hbodywf (h.fresh here _ _) hnames around htable
  | ifThen condition body ih =>
    intro around inside context context' s' hwf hs h hnames htable
    obtain ⟨hconditionnames, hnames⟩ := List.forall_mem_append.mp hnames
    cases hs with
    | ifThen _ hbody =>
      cases hwf with
      | ifThen hcondition hbodywf =>
        exact (condition.findingsAlike hr h around hcondition hconditionnames htable.left).append
          (ih around inside context context' _ hbodywf hbody h hnames htable.right)
  | whileLoop condition body ih =>
    intro around inside context context' s' hwf hs h hnames htable
    obtain ⟨hconditionnames, hnames⟩ := List.forall_mem_append.mp hnames
    cases hs with
    | whileLoop _ hbody =>
      cases hwf with
      | whileLoop hcondition hbodywf =>
        exact (condition.findingsAlike hr h around hcondition hconditionnames htable.left).append
          (ih around inside context context' _ hbodywf hbody h hnames htable.right)
  | ifElse condition body other ihbody ihother =>
    intro around inside context context' s' hwf hs h hnames htable
    obtain ⟨hconditionnames, hnames⟩ := List.forall_mem_append.mp hnames
    obtain ⟨hbodynames, hothernames⟩ := List.forall_mem_append.mp hnames
    cases hs with
    | @ifElse _ _ _ body' _ other' hbody hother =>
      cases hwf with
      | ifElse hcondition hbodywf _ hotherwf =>
        have hdeclares : ∀ t ∈ body.declares, IsOld t.lexeme := fun t ht =>
          hbodynames t.lexeme (body.lexeme_mem_names t ht)
        -- the second branch is bound behind what the first declares, which is nothing
        have hmiddle := h.introduceAll hr hdeclares
        rw [← hbody.declares_eq] at hmiddle
        exact ((condition.findingsAlike hr h around hcondition hconditionnames
          htable.left.left).append (ihbody around inside context context' _ hbodywf hbody h
            hbodynames htable.left.right)).append
          (ihother around inside _ _ _ hotherwf hother hmiddle hothernames htable.right)
  | function f ih =>
    intro around inside context context' s' hwf hs h hnames htable
    obtain ⟨hname, hnames⟩ := List.forall_mem_cons.mp hnames
    cases hs with
    | @function _ _ f' hkeeps hf =>
      cases hwf with
      | function _ hparams hbody =>
        obtain ⟨hredeclared, hinner⟩ := findingsAlike_declared hr h hkeeps hname
        rw [Stmt.visit, Stmt.visit, hf.name_eq]
        exact hredeclared.append
          (hf.findingsAlike hr ih ⟨hparams, hbody⟩ hinner hnames around .function htable.right)
  | returnFrom keyword value =>
    intro around inside context context' s' hwf hs h hnames htable
    cases hs
    cases hwf with
    | returnFrom hvalue =>
      exact (findingsAlike_returnErrors around keyword Option.isSome_map).append
        (Expr.findingsAlike_option hr h around hvalue hnames htable.right)
  | classOf name superclass methods ih =>
    intro around inside context context' s' hwf hs h hnames htable
    have hmethodswf := hwf.methods
    cases hs with
    | classOf hkeeps hmethods =>
      obtain ⟨hname, hnames⟩ := List.forall_mem_cons.mp hnames
      obtain ⟨hredeclared, hinner⟩ := findingsAlike_declared hr h hkeeps hname
      exact hredeclared.append (hmethods.findingsAlike hr ih hmethodswf (hinner.ofWord hr.this)
        hnames _ htable.right)
    | subclassOf parent hkeeps hmethods =>
      obtain ⟨hname, hnames⟩ := List.forall_mem_cons.mp hnames
      obtain ⟨hparent, hnames⟩ := List.forall_mem_cons.mp hnames
      obtain ⟨hredeclared, hinner⟩ := findingsAlike_declared hr h hkeeps hname
      -- the superclass is read where the class is declared already
      have hread := htable.left.right
      have hinherits := findingsAlike_inherits hr h hkeeps hname hparent
        (hread ⟨parent, .read, around, context.introduce name⟩ (by simp [Use.findings]))
      exact ((hredeclared.append hinherits).append
        (findingsAlike_reference hr hinner around .read hparent hread)).append
        (hmethods.findingsAlike hr ih hmethodswf ((hinner.ofWord hr.super).ofWord hr.this) hnames _
          htable.right)
  | unknown form =>
    intro around inside context context' s' hwf hs h hnames htable
    cases hwf

/-! ## Programs -/

/-- Findings that are alike bind the same labels with the same hops, and break the same rules. -/
theorem FindingsAlike.bindings {fs fs' : List (Finding Label)} (h : FindingsAlike fs fs') :
    List.Forall₂ (fun b b' : Binding => b'.label = b.label ∧ b'.hops = b.hops)
      (fs.filterMap Finding.binding?) (fs'.filterMap Finding.binding?) := by
  induction h with
  | nil => exact .nil
  | cons hf _ ih =>
    cases hf with
    | error fault hline => exact ih
    | @use u u' hlabel hhops =>
      cases hu : u.hops? with
      | none =>
        have hb : (Finding.use u).binding? = none := by
          simp [Finding.binding?, Finding.use?, Use.binding?, hu]
        have hb' : (Finding.use u').binding? = none := by
          simp [Finding.binding?, Finding.use?, Use.binding?, hhops, hu]
        rwa [List.filterMap_cons_none hb, List.filterMap_cons_none hb']
      | some hops =>
        have hb : (Finding.use u).binding? =
            some ⟨u.ref.label, u.kind, u.ref.name, hops, u.around.function = .outside⟩ := by
          simp [Finding.binding?, Finding.use?, Use.binding?, hu]
        have hb' : (Finding.use u').binding? =
            some ⟨u'.ref.label, u'.kind, u'.ref.name, hops, u'.around.function = .outside⟩ := by
          simp [Finding.binding?, Finding.use?, Use.binding?, hhops, hu]
        rw [List.filterMap_cons_some hb, List.filterMap_cons_some hb']
        exact .cons ⟨hlabel, rfl⟩ ih

theorem FindingsAlike.errors {fs fs' : List (Finding Label)} (h : FindingsAlike fs fs') :
    (fs'.filterMap Finding.error?).map (fun e => (e.fault, e.place.line)) =
      (fs.filterMap Finding.error?).map fun e => (e.fault, e.place.line) := by
  induction h with
  | nil => rfl
  | cons hf _ ih =>
    cases hf with
    | use hlabel hhops => exact ih
    | error fault hline =>
      simp only [List.filterMap_cons, Finding.error?, List.map_cons, hline]
      exact congrArg _ ih

include hr in
/-- **The binding pass does the same to a program with changed names**: it gets through, it finds
the same rules broken on the same lines, and it leads every label as many scopes out. -/
theorem bindProgram_renamed {program program' : List (Stmt Label)}
    (hwf : ∀ s ∈ program, s.WellFormed) (hprogram : Stmt.RenamedAll r [] program program')
    (hnames : ∀ name ∈ Stmt.namesAll program, IsOld name)
    (htable : r.table.Fits (visitProgram program)) {depth : Nat} {table : BindingTable}
    (hfault : (bindProgram depth program table).fault = none) :
    (bindProgram depth program' table).fault = none ∧
      (bindProgram depth program' table).errors.map (fun e => (e.fault, e.place.line)) =
        (bindProgram depth program table).errors.map (fun e => (e.fault, e.place.line)) ∧
      ∀ label, (bindProgram depth program' table).table.hops? label =
        (bindProgram depth program table).table.hops? label := by
  have hwf' : ∀ s' ∈ program', s'.WellFormed := by
    intro s' hs'
    obtain ⟨s, hs, hrenamed⟩ := hprogram.exists_of_mem hs'
    exact hrenamed.wellFormed hr.lawful (hwf s hs)
  have hheight : Stmt.heightAll program' = Stmt.heightAll program :=
    hprogram.heightAll_eq fun s _ _ _ hs => hs.height_eq
  have hfault' : (bindProgram depth program' table).fault = none := by
    rw [fault_bindProgram_eq hwf', hheight, ← fault_bindProgram_eq hwf depth table, hfault]
  have halike : FindingsAlike (visitProgram program) (visitProgram program') :=
    hprogram.findingsAlike hr (fun s _ => s.foundAlike hr) hwf .nil hnames _ htable
  obtain ⟨_, _, hbound, hend⟩ := bindProgram_spec (Stmt.known_of_wellFormed hwf) depth table
  obtain ⟨_, _, hbound', hend'⟩ := bindProgram_spec (Stmt.known_of_wellFormed hwf') depth table
  rw [hfault] at hend
  rw [hfault'] at hend'
  obtain ⟨rfl, herrors⟩ := hend
  obtain ⟨rfl, herrors'⟩ := hend'
  refine ⟨hfault', ?_, fun label => ?_⟩
  · rw [herrors, herrors', halike.errors]
  · rw [hbound, hbound']
    exact hops?_recordAll_congr halike.bindings (fun _ => rfl) label

end

end LoxLang
