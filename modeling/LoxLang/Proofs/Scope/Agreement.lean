import LoxLang.Proofs.Grammar.Yields
import LoxLang.Proofs.Scope.Binding
import LoxLang.Proofs.Scope.Height
import LoxLang.Proofs.Scope.Lexical
import LoxLang.Proofs.Scope.Recorded

/-! # The binding pass agrees with static scope

Where the pass keeps a stack of scopes and marks names as it goes, the form of the program says the
same: `Whereabouts.Shows` relates the open scopes of the pass to what lies around a place, and each
form of statement and expression keeps it up.  So the pass finds at each place just what the place
itself asks for (`outcomes_program`).  What a place asks for is an error for each rule it breaks and
the binding of its reference, but for `this` outside all classes, which the pass reports and does
not bind.

The errors are thus found in every program that has the shape of a program that was parsed.  For the
bindings the words `this` and `super` must not be names of the program: then `this` has no binding
outside the classes anyway (`Site.Worded`). -/

namespace LoxLang

open Binder (Surroundings FunctionContext ClassContext)

variable {ι : Type}

namespace Whereabouts

/-- The innermost function around a place, as the pass tells functions apart. -/
def functionContext (around : Whereabouts ι) : FunctionContext :=
  match around.function? with
  | none => .outside
  | some (f, true) => f.methodContext
  | some (_, false) => .function

/-- The innermost class around a place, as the pass tells classes apart. -/
def classContext (around : Whereabouts ι) : ClassContext :=
  match around.class? with
  | none => .outside
  | some false => .plain
  | some true => .derived

/-- What surrounds a place, as the pass keeps it. -/
def surroundings (around : Whereabouts ι) : Surroundings :=
  ⟨around.functionContext, around.classContext⟩

theorem functionContext_eq_outside_iff (around : Whereabouts ι) :
    around.functionContext = .outside ↔ around.function? = none := by
  unfold functionContext FunctionOf.methodContext
  split
  · simp [*]
  · split <;> simp [*]
  · simp [*]

theorem functionContext_eq_initializer_iff (around : Whereabouts ι) :
    around.functionContext = .initializer ↔
      around.function?.any (fun f => f.2 && f.1.isInitializer) = true := by
  unfold functionContext FunctionOf.methodContext
  split
  · simp [*]
  · split <;> simp [*]
  · simp [*]

theorem classContext_eq_outside_iff (around : Whereabouts ι) :
    around.classContext = .outside ↔ around.class? = none := by
  unfold classContext
  split <;> simp [*]

/-- An open scope has the names of a scope of the program. -/
def Lists (scope : OpenScope) (names : List String) : Prop :=
  ∀ name, scope.has name = names.contains name

/-- The open scopes of the pass are those around a place, and a name is declared and not defined
just in the initializer of its own variable. -/
structure Shows (around : Whereabouts ι) (context : Context) : Prop where
  scopes : List.Forall₂ Lists context around.scopes
  pending : ∀ name, context.isPending name = around.isInitializerOf name

/-- The pass comes to a statement: inside it the statement's own names are declared, and before it
those of the statements before it. -/
structure Enters (around : Whereabouts ι) (context : Context) (s : Stmt ι) : Prop where
  inside : around.Shows (context.introduceAll s.declares)
  before : ∀ name, context.head?.any (fun scope => scope.has name) =
    around.declaredBefore.contains name
  settled : ∀ name, around.isInitializerOf name = false

theorem findIdx?_eq_of_lists {context : Context} {scopes : List (List String)}
    (h : List.Forall₂ Lists context scopes) (name : String) :
    context.findIdx? (fun scope => scope.has name) =
      scopes.findIdx? (fun names => names.contains name) := by
  induction h with
  | nil => rfl
  | cons hlists _ ih => rw [List.findIdx?_cons, List.findIdx?_cons, hlists name, ih]

theorem Shows.hops?_eq {around : Whereabouts ι} {context : Context} (h : around.Shows context)
    (name : String) : context.hops? name = around.hops? name :=
  findIdx?_eq_of_lists h.scopes name

end Whereabouts

/-- What comes of a finding: a binding for the table or an error. -/
def Finding.outcomes : Finding Label → List (Binding ⊕ ScopeError)
  | .use u => u.binding?.toList.map .inl
  | .error e => [.inr e]

/-- The binding that the pass records at a place: none for `this` outside all classes. -/
def Site.recorded? (site : Site Label) : Option Binding :=
  match site.occurrence with
  | .reference .this _ => if site.around.class?.isNone then none else site.binding?
  | _ => site.binding?

theorem Site.recorded?_reference (use : RefUse) (ref : Ref Label) (around : Whereabouts Label) :
    Site.recorded? ⟨.reference use ref, around⟩ =
      if use = .this ∧ around.class? = none then none
      else Site.binding? ⟨.reference use ref, around⟩ := by
  cases use <;> simp [recorded?]

/-- What comes of a place. -/
def Site.outcomes (site : Site Label) : List (Binding ⊕ ScopeError) :=
  site.errors.map .inr ++ site.recorded?.toList.map .inl

/-- What comes of findings. -/
abbrev outcomesOf (fs : List (Finding Label)) : List (Binding ⊕ ScopeError) :=
  fs.flatMap Finding.outcomes

/-- What comes of places. -/
abbrev siteOutcomes (sites : List (Site Label)) : List (Binding ⊕ ScopeError) :=
  sites.flatMap Site.outcomes

/-! ## References and declarations -/

section
variable {around : Whereabouts Label} {context : Context}

theorem Use.errors_eq (h : around.Shows context) (use : RefUse) (ref : Ref Label) :
    Use.errors ⟨ref, use, around.surroundings, context⟩ =
      Site.errors ⟨.reference use ref, around⟩ := by
  have hclass : around.surroundings.classBody = around.classContext := rfl
  cases use with
  | read =>
    rw [Site.errors_read, ← h.pending]
    rfl
  | assign => rfl
  | this =>
    rw [Site.errors_this]
    unfold Use.errors
    rw [hclass, Whereabouts.classContext]
    rcases around.class? with _ | _ | _ <;> rfl
  | super =>
    rw [Site.errors_super]
    unfold Use.errors
    rw [hclass, Whereabouts.classContext]
    rcases around.class? with _ | _ | _ <;> rfl

theorem Use.binding?_eq (h : around.Shows context) (use : RefUse) (ref : Ref Label) :
    Use.binding? ⟨ref, use, around.surroundings, context⟩ =
      Site.binding? ⟨.reference use ref, around⟩ := by
  have hhops : Use.hops? ⟨ref, use, around.surroundings, context⟩ =
      around.hops? ref.name.lexeme := h.hops?_eq _
  have houtside : decide (around.surroundings.function = .outside) = around.function?.isNone := by
    rw [Bool.eq_iff_iff, decide_eq_true_iff, Option.isNone_iff_eq_none]
    exact around.functionContext_eq_outside_iff
  rw [Use.binding?, hhops, Site.binding?]
  simp only [houtside]

theorem outcomesOf_errors (es : List ScopeError) :
    outcomesOf (es.map .error) = es.map .inr := by
  induction es with
  | nil => rfl
  | cons e es ih =>
    rw [List.map_cons, outcomesOf, List.flatMap_cons]
    exact congrArg (_ :: ·) ih

theorem outcomes_reference (h : around.Shows context) (use : RefUse) (ref : Ref Label) :
    outcomesOf (Use.findings ⟨ref, use, around.surroundings, context⟩) =
      Site.outcomes ⟨.reference use ref, around⟩ := by
  rw [Use.findings, outcomesOf, List.flatMap_append, Site.outcomes, ← Use.errors_eq h,
    ← outcomesOf_errors]
  have hclass : around.surroundings.classBody = around.classContext := rfl
  simp only [hclass, around.classContext_eq_outside_iff]
  congr 1
  rw [Site.recorded?_reference]
  split
  · rfl
  · rw [← Use.binding?_eq h, List.flatMap_singleton]
    rfl

/-- The error of declaring a name where the innermost scope has it. -/
theorem outcomes_redeclared {name : Token}
    (h : context.head?.any (fun scope => scope.has name.lexeme) =
      around.declaredBefore.contains name.lexeme) :
    outcomesOf (context.redeclared name) = Site.outcomes ⟨.declaration name, around⟩ := by
  rw [Context.redeclared, h, Site.outcomes, Site.errors_declaration]
  cases around.declaredBefore.contains name.lexeme <;> rfl

theorem outcomes_returnErrors (keyword : Token) (value : Option (Expr Label)) :
    outcomesOf (returnErrors around.surroundings keyword value) =
      Site.outcomes ⟨.returnFrom keyword value, around⟩ := by
  have houtside := around.functionContext_eq_outside_iff
  have hinitializer := around.functionContext_eq_initializer_iff
  have hfunction : around.surroundings.function = around.functionContext := rfl
  rw [Site.outcomes, Site.errors_returnFrom, returnErrors, hfunction]
  simp only [houtside, hinitializer]
  cases hf : around.function? with
  | none => simp [Site.recorded?, Site.binding?, Finding.outcomes]
  | some f =>
    cases value with
    | none => simp [Site.recorded?, Site.binding?]
    | some e =>
      cases h : f.2 && f.1.isInitializer <;>
        simp [Site.recorded?, Site.binding?, Finding.outcomes, h]

end

/-! ## Names one after another -/

theorem lexemes_append (names names' : List Token) :
    lexemes (names ++ names') = lexemes names ++ lexemes names' := List.map_append

namespace Whereabouts

theorem Lists.mark {scope : OpenScope} {names : List Token} (h : Lists scope (lexemes names))
    (name : Token) (defined : Bool) :
    Lists (scope.mark name.lexeme defined) (lexemes (names ++ [name])) := by
  intro other
  have hother : scope.declared.contains other = (lexemes names).contains other := h other
  show (scope.declared.insert name.lexeme defined).contains other = _
  rw [Bindings.contains_insert, hother, lexemes_append, List.contains_append, Bool.or_comm]
  exact congrArg _ (Bool.or_false _).symm

theorem Lists.introduceAll {scope : OpenScope} {names : List Token}
    (h : Lists scope (lexemes names)) (names' : List Token) :
    Lists (scope.introduceAll names') (lexemes (names ++ names')) := by
  induction names' generalizing scope names with
  | nil =>
    rw [List.append_nil]
    exact h
  | cons name names' ih =>
    rw [List.append_cons]
    exact ih (h.mark name true)

end Whereabouts

/-- The parameters of a function, behind others. -/
theorem outcomes_parameters {around : Whereabouts Label} {scope : OpenScope} {outer : Context}
    {earlier : List Token} (h : Whereabouts.Lists scope (lexemes earlier)) (names : List Token) :
    outcomesOf (Context.redeclaredAll (scope :: outer) names) =
      siteOutcomes (parameterSites around earlier names) := by
  induction names generalizing scope earlier with
  | nil => rfl
  | cons name names ih =>
    have hfirst : outcomesOf (Context.redeclared name (scope :: outer)) =
        Site.outcomes ⟨.parameter earlier name, around⟩ := by
      have hhas : (scope :: outer).head?.any (fun scope => scope.has name.lexeme) =
          (lexemes earlier).contains name.lexeme := h name.lexeme
      rw [Context.redeclared, hhas, Site.outcomes, Site.errors_parameter]
      cases (lexemes earlier).contains name.lexeme <;> rfl
    rw [Context.redeclaredAll, parameterSites, outcomesOf, List.flatMap_append, siteOutcomes,
      List.flatMap_cons]
    exact congrArg₂ (· ++ ·) hfirst (ih (h.mark name true))

/-! ## Expressions -/

section
variable {around : Whereabouts Label} {context : Context}

theorem outcomes_expression (e : Expr Label) (h : around.Shows context) :
    outcomesOf (e.visit around.surroundings context) = siteOutcomes (e.sites around) := by
  rw [Expr.visit, Expr.sites, outcomesOf, List.flatMap_assoc, siteOutcomes, List.flatMap_map]
  exact List.flatMap_congr fun r _ => outcomes_reference h r.1 r.2

theorem outcomes_option (value : Option (Expr Label)) (h : around.Shows context) :
    outcomesOf (Expr.visitOption around.surroundings context value) =
      siteOutcomes (Expr.sitesOption around value) := by
  cases value with
  | none => rfl
  | some e => exact outcomes_expression e h

end

/-! ## Going inward -/

namespace Whereabouts

variable {around : Whereabouts ι} {context outer : Context} {scope : OpenScope}
  {owner : BodyOf ι} {earlier : List (Stmt ι)} {s s' : Stmt ι}

/-- A statement that declares nothing is no different from the place before it. -/
theorem Enters.shows (h : around.Enters context s) (hnone : s.declares = []) :
    around.Shows context := by
  have hinside := h.inside
  rw [hnone] at hinside
  exact hinside

/-- Neither is a part of it that declares nothing. -/
theorem Enters.part (h : around.Enters context s) (hnone : s.declares = [])
    (hnone' : s'.declares = []) : around.Enters context s' where
  inside := by
    rw [hnone']
    exact h.shows hnone
  before := h.before
  settled := h.settled

theorem Enters.top (s : Stmt ι) : Enters [] [] s where
  inside := by
    rw [Context.introduceAll_nil]
    exact ⟨.nil, fun _ => rfl⟩
  before _ := rfl
  settled _ := rfl

theorem Shows.body (h : around.Shows outer)
    (hlists : Lists scope (lexemes (owner.params ++ Stmt.declaresAll (earlier ++ [s]))))
    (hdefined : ∀ name, scope.declared.get? name ≠ some false) :
    Shows (.body owner earlier s :: around) (scope :: outer) where
  scopes := .cons hlists h.scopes
  pending name := beq_eq_false_iff_ne.mpr (hdefined name)

theorem declaresAll_concat (earlier : List (Stmt ι)) (s : Stmt ι) :
    Stmt.declaresAll (earlier ++ [s]) = Stmt.declaresAll earlier ++ s.declares := by
  simp [Stmt.declaresAll]

/-- In a body each statement adds its names to those of the statements before it. -/
theorem Lists.statement
    (hlists : Lists scope (lexemes (owner.params ++ Stmt.declaresAll earlier))) (s : Stmt ι) :
    Lists (scope.introduceAll s.declares)
      (lexemes (owner.params ++ Stmt.declaresAll (earlier ++ [s]))) := by
  rw [declaresAll_concat, ← List.append_assoc]
  exact hlists.introduceAll s.declares

theorem get?_introduceAll_ne (hdefined : ∀ name, scope.declared.get? name ≠ some false)
    (names : List Token) (name : String) :
    (scope.introduceAll names).declared.get? name ≠ some false := by
  rw [OpenScope.get?_introduceAll]
  split
  · simp
  · exact hdefined name

theorem Enters.body (h : around.Shows outer)
    (hlists : Lists scope (lexemes (owner.params ++ Stmt.declaresAll earlier)))
    (hdefined : ∀ name, scope.declared.get? name ≠ some false) :
    Enters (.body owner earlier s :: around) (scope :: outer) s where
  inside := by
    rw [Context.introduceAll_cons]
    exact h.body (hlists.statement s) (get?_introduceAll_ne hdefined s.declares)
  before := hlists
  settled _ := rfl

theorem Lists.ofWord (word : String) : Lists (.ofWord word) [word] := by
  intro name
  show (Bindings.empty.insert word true).contains name = _
  rw [Bindings.contains_insert]
  rfl

theorem get?_ofWord_ne (word name : String) :
    (OpenScope.ofWord word).declared.get? name ≠ some false := by
  show (Bindings.empty.insert word true).get? name ≠ some false
  rw [Bindings.get?_insert]
  split
  · simp
  · simp

/-- In the methods of a class `this` has a meaning, and if the class names a superclass `super`. -/
theorem Shows.plainMethods (h : around.Shows outer) :
    Shows (.methods false :: around) (.ofWord "this" :: outer) where
  scopes := .cons (Lists.ofWord "this") h.scopes
  pending name := beq_eq_false_iff_ne.mpr (get?_ofWord_ne "this" name)

theorem Shows.derivedMethods (h : around.Shows outer) :
    Shows (.methods true :: around) (.ofWord "this" :: .ofWord "super" :: outer) where
  scopes := .cons (Lists.ofWord "this") (.cons (Lists.ofWord "super") h.scopes)
  pending name := beq_eq_false_iff_ne.mpr (get?_ofWord_ne "this" name)

/-- In its initializer a local variable is declared and not defined. -/
theorem Enters.initializer {name : Token} {initial : Option (Expr ι)}
    (h : around.Enters context (.var name initial)) :
    Shows (.initializer name :: around) (context.mark name.lexeme false) := by
  obtain ⟨hscopes, hpending⟩ := h.inside
  cases context with
  | nil =>
    have hnil : around.scopes = [] := List.forall₂_nil_left_iff.mp hscopes
    refine ⟨hscopes, fun other => ?_⟩
    show false = (name.lexeme == other && !around.scopes.isEmpty)
    rw [hnil]
    exact (Bool.and_false _).symm
  | cons scope outer =>
    obtain ⟨names, rest, hlists, hrest, heq⟩ := List.forall₂_cons_left_iff.mp hscopes
    have hfalse : Lists (scope.mark name.lexeme false) names := by
      intro other
      rw [← hlists other]
      show (scope.declared.insert name.lexeme false).contains other =
        (scope.declared.insert name.lexeme true).contains other
      rw [Bindings.contains_insert, Bindings.contains_insert]
    refine ⟨?_, fun other => ?_⟩
    · show List.Forall₂ Lists _ around.scopes
      rw [heq]
      exact .cons hfalse hrest
    · have hother : ((scope.declared.insert name.lexeme true).get? other == some false) = false :=
        (hpending other).trans (h.settled other)
      show ((scope.declared.insert name.lexeme false).get? other == some false) =
        (name.lexeme == other && !around.scopes.isEmpty)
      rw [heq]
      rw [Bindings.get?_insert] at hother ⊢
      by_cases hname : other = name.lexeme
      · simp [hname]
      · rw [if_neg hname] at hother ⊢
        rw [hother, beq_eq_false_iff_ne.mpr (Ne.symm hname)]
        rfl

end Whereabouts

/-! ## Statements -/

/-- What comes of a statement is what comes of its places, wherever the pass comes to it. -/
def Stmt.Agrees (s : Stmt Label) : Prop :=
  ∀ around context, around.Enters context s →
    outcomesOf (s.visit around.surroundings context) = siteOutcomes (s.sites around)

section
variable {around : Whereabouts Label} {context : Context}

/-- The statements of a body, behind others of it. -/
theorem outcomes_body {o : BodyOf Label} {surroundings : Surroundings} {scope : OpenScope}
    {earlier body : List (Stmt Label)}
    (hsurroundings : ∀ earlier s,
      Whereabouts.surroundings (.body o earlier s :: around) = surroundings)
    (h : around.Shows context)
    (hlists : Whereabouts.Lists scope (lexemes (o.params ++ Stmt.declaresAll earlier)))
    (hdefined : ∀ name, scope.declared.get? name ≠ some false)
    (hbody : ∀ s ∈ body, s.Agrees) :
    outcomesOf (Stmt.visitAll surroundings (scope :: context) body) =
      siteOutcomes (Stmt.sitesAll o around earlier body) := by
  induction body generalizing scope earlier with
  | nil => rfl
  | cons s body ih =>
    obtain ⟨hs, hbody⟩ := List.forall_mem_cons.mp hbody
    have hrest := ih (hlists.statement s)
      (Whereabouts.get?_introduceAll_ne hdefined s.declares) hbody
    rw [Stmt.visitAll, Stmt.sitesAll, Context.introduceAll_cons, outcomesOf, siteOutcomes,
      List.flatMap_append, List.flatMap_append, ← hsurroundings earlier s]
    refine congrArg₂ (· ++ ·) (hs _ _ (.body h hlists hdefined)) ?_
    rw [hsurroundings]
    exact hrest

theorem outcomes_function {f : Function Label} (isMethod : Bool) {kind : FunctionContext}
    (hkind : kind = if isMethod then f.methodContext else .function) (h : around.Shows context)
    (hbody : ∀ s ∈ f.body, s.Agrees) :
    outcomesOf (Function.visit around.surroundings kind context f) =
      siteOutcomes (Function.sites isMethod around f) := by
  obtain ⟨name, params, body⟩ := f
  have hsurroundings : ∀ earlier s, Whereabouts.surroundings
      (.body (.function ⟨name, params, body⟩ isMethod) earlier s :: around) =
        ⟨kind, around.surroundings.classBody⟩ := by
    intro earlier s
    rw [hkind]
    cases isMethod <;> rfl
  have hempty : Whereabouts.Lists (.fresh (FunctionOf.scopeNames ⟨name, params, body⟩))
      (lexemes []) := fun _ => rfl
  rw [Function.visit, Function.sites, Context.introduceAll_cons, outcomesOf, siteOutcomes,
    List.flatMap_append, List.flatMap_append]
  refine congrArg₂ (· ++ ·) (outcomes_parameters hempty params) ?_
  refine outcomes_body hsurroundings h ?_
    (Whereabouts.get?_introduceAll_ne (fun _ => by simp [OpenScope.fresh]) params) hbody
  show Whereabouts.Lists _ (lexemes (params ++ []))
  rw [List.append_nil]
  exact hempty.introduceAll params

theorem outcomes_methods {methods : List (Function Label)} (h : around.Shows context)
    (hbodies : ∀ m ∈ methods, ∀ s ∈ m.body, s.Agrees) :
    outcomesOf (Function.visitMethods around.surroundings context methods) =
      siteOutcomes (Function.sitesAll around methods) := by
  induction methods with
  | nil => rfl
  | cons m methods ih =>
    obtain ⟨hbody, hbodies⟩ := List.forall_mem_cons.mp hbodies
    rw [Function.visitMethods, Function.sitesAll, outcomesOf, siteOutcomes, List.flatMap_append,
      List.flatMap_append]
    exact congrArg₂ (· ++ ·) (outcomes_function true rfl h hbody) (ih hbodies)

theorem Stmt.Shaped.agrees {s : Stmt Label} (hs : s.Shaped) : s.Agrees := by
  induction hs with
  | expression | print =>
    intro around context h
    exact outcomes_expression _ (h.shows rfl)
  | @var name initial =>
    intro around context h
    rw [Stmt.visit, Stmt.sites, outcomesOf, List.flatMap_append, siteOutcomes, List.flatMap_cons]
    -- the initializer is at a place behind the declaration, where the name is not defined yet
    exact congrArg₂ (· ++ ·) (outcomes_redeclared (h.before name.lexeme))
      (outcomes_option initial h.initializer)
  | block _ ih =>
    intro around context h
    exact outcomes_body (o := .block) (fun _ _ => rfl) (h.shows rfl) (fun _ => rfl)
      (fun _ => by simp [OpenScope.fresh]) ih
  | ifThen _ _ hnone ih | whileLoop _ _ hnone ih =>
    intro around context h
    rw [Stmt.visit, Stmt.sites, outcomesOf, List.flatMap_append, siteOutcomes,
      List.flatMap_append]
    exact congrArg₂ (· ++ ·) (outcomes_expression _ (h.shows hnone))
      (ih around context (h.part hnone hnone))
  | @ifElse condition body other _ _ hnone _ hnone' ihbody ihother =>
    intro around context h
    -- neither branch declares a name, so the second is at a place like that of the first
    have hnone'' : (Stmt.ifElse condition body other).declares = [] := by
      rw [Stmt.declares, hnone, hnone', List.append_nil]
    rw [Stmt.visit, Stmt.sites, outcomesOf, List.flatMap_append, List.flatMap_append, siteOutcomes,
      List.flatMap_append, List.flatMap_append, hnone]
    exact congrArg₂ (· ++ ·)
      (congrArg₂ (· ++ ·) (outcomes_expression condition (h.shows hnone''))
        (ihbody around context (h.part hnone'' hnone)))
      (ihother around context (h.part hnone'' hnone'))
  | @function f _ ih =>
    intro around context h
    rw [Stmt.visit, Stmt.sites, outcomesOf, List.flatMap_append, siteOutcomes, List.flatMap_cons]
    exact congrArg₂ (· ++ ·) (outcomes_redeclared (h.before f.name.lexeme))
      (outcomes_function false rfl h.inside ih)
  | returnFrom =>
    intro around context h
    rw [Stmt.visit, Stmt.sites, outcomesOf, List.flatMap_append, siteOutcomes, List.flatMap_cons]
    exact congrArg₂ (· ++ ·) (outcomes_returnErrors _ _) (outcomes_option _ (h.shows rfl))
  | @classOf name superclass methods _ ih =>
    intro around context h
    cases superclass with
    | none =>
      have hmethods := outcomes_methods h.inside.plainMethods ih
      rw [Stmt.visit, Stmt.sites, outcomesOf, List.flatMap_append, siteOutcomes,
        List.flatMap_cons]
      exact congrArg₂ (· ++ ·) (outcomes_redeclared (h.before name.lexeme)) hmethods
    | some parent =>
      have hmethods := outcomes_methods h.inside.derivedMethods ih
      have hinherits : outcomesOf (if parent.name.lexeme = name.lexeme then
          [.error ⟨.inheritsFromItself, parent.name⟩] else []) =
            Site.outcomes ⟨.inheritance name parent.name, around⟩ := by
        rw [Site.outcomes, Site.errors_inheritance]
        by_cases heq : parent.name.lexeme = name.lexeme <;>
          simp [heq, Site.recorded?, Site.binding?, Finding.outcomes]
      have hparent := outcomes_reference h.inside .read parent
      rw [Stmt.visit, Stmt.sites, outcomesOf, List.flatMap_append, List.flatMap_append,
        List.flatMap_append, siteOutcomes, List.flatMap_cons, List.flatMap_cons,
        List.flatMap_cons, List.append_assoc, List.append_assoc]
      exact congrArg₂ (· ++ ·) (outcomes_redeclared (h.before name.lexeme))
        (congrArg₂ (· ++ ·) hinherits (congrArg₂ (· ++ ·) hparent hmethods))

end

/-- What comes of a program is what comes of its places, in the same order. -/
theorem outcomes_program {program : List (Stmt Label)} (h : ∀ s ∈ program, s.Shaped) :
    outcomesOf (visitProgram program) = siteOutcomes (sitesOf program) := by
  induction program with
  | nil => rfl
  | cons s program ih =>
    obtain ⟨hs, hprogram⟩ := List.forall_mem_cons.mp h
    have hfirst := hs.agrees [] [] (.top s)
    rw [visitProgram, Stmt.visitAll, Context.introduceAll_nil, outcomesOf, List.flatMap_append,
      sitesOf, List.flatMap_cons, siteOutcomes, List.flatMap_append]
    exact congrArg₂ (· ++ ·) hfirst (ih hprogram)

/-! ## Bindings and errors apart -/

theorem filterMap_getRight?_outcomes (f : Finding Label) :
    f.outcomes.filterMap Sum.getRight? = f.error?.toList := by
  cases f with
  | error e => rfl
  | use u =>
    rw [Finding.outcomes]
    cases u.binding? <;> rfl

theorem filterMap_getLeft?_outcomes (f : Finding Label) :
    f.outcomes.filterMap Sum.getLeft? = f.binding?.toList := by
  cases f with
  | error e => rfl
  | use u =>
    show (u.binding?.toList.map Sum.inl).filterMap Sum.getLeft? = u.binding?.toList
    cases u.binding? <;> rfl

theorem Site.filterMap_getRight?_outcomes (site : Site Label) :
    site.outcomes.filterMap Sum.getRight? = site.errors := by
  have hright : Sum.getRight? ∘ @Sum.inr Binding ScopeError = some := rfl
  rw [outcomes, List.filterMap_append, List.filterMap_map, hright, List.filterMap_some]
  cases site.recorded? <;> exact List.append_nil _

theorem Site.filterMap_getLeft?_outcomes (site : Site Label) :
    site.outcomes.filterMap Sum.getLeft? = site.recorded?.toList := by
  have hleft : Sum.getLeft? ∘ @Sum.inr Binding ScopeError = fun _ => none := rfl
  rw [outcomes, List.filterMap_append, List.filterMap_map, hleft, List.filterMap_none]
  cases site.recorded? <;> rfl

theorem filterMap_error?_visitProgram {program : List (Stmt Label)}
    (h : ∀ s ∈ program, s.Shaped) :
    (visitProgram program).filterMap Finding.error? = (sitesOf program).flatMap Site.errors := by
  have houtcomes := congrArg (List.filterMap Sum.getRight?) (outcomes_program h)
  simpa only [outcomesOf, siteOutcomes, List.filterMap_flatMap, filterMap_getRight?_outcomes,
    Site.filterMap_getRight?_outcomes, ← List.filterMap_eq_flatMap_toList] using houtcomes

/-! ## The word this -/

/-- The names that a step outward declares. -/
def Enclosure.names : Enclosure ι → List Token
  | .body owner earlier current => owner.params ++ Stmt.declaresAll (earlier ++ [current])
  | .methods _ | .initializer _ => []

/-- What is declared around a place has a name. -/
def Whereabouts.Named (around : Whereabouts ι) : Prop := ∀ e ∈ around, ∀ t ∈ e.names, t.IsName

/-- Outside all classes no scope has the word `this`. -/
theorem Whereabouts.Named.this_notMem {around : Whereabouts ι} (h : around.Named)
    (hclass : around.class? = none) : ∀ names ∈ around.scopes, "this" ∉ names := by
  intro names hnames hthis
  obtain ⟨e, he, hnames⟩ := List.mem_flatMap.mp hnames
  cases e with
  | body owner earlier current =>
    obtain rfl := List.mem_singleton.mp hnames
    obtain ⟨t, ht, hlexeme⟩ := List.mem_map.mp hthis
    exact (h _ he t ht).1 hlexeme
  | methods derived => exact absurd (List.findSome?_eq_none_iff.mp hclass _ he) (by simp)
  | initializer name => cases hnames

theorem Whereabouts.Named.cons {around : Whereabouts ι} {e : Enclosure ι}
    (hnames : ∀ t ∈ e.names, t.IsName) (h : around.Named) : Whereabouts.Named (e :: around) :=
  List.forall_mem_cons.mpr ⟨hnames, h⟩

/-- A reference to `this` is spelled so. -/
def Occurrence.Spelled : Occurrence ι → Prop
  | .reference .this ref => ref.name.lexeme = "this"
  | _ => True

/-- A place where the words `this` and `super` are no names and a reference to `this` is spelled
so. -/
structure Site.Worded (site : Site ι) : Prop where
  around : site.around.Named
  occurrence : site.occurrence.Spelled

/-- So the pass leaves no binding of the place out: outside all classes `this` has none. -/
theorem Site.Worded.recorded?_eq {site : Site Label} (h : site.Worded) :
    site.recorded? = site.binding? := by
  obtain ⟨occurrence, around⟩ := site
  cases occurrence with
  | reference use ref =>
    rw [recorded?_reference]
    split
    · rename_i houtside
      obtain ⟨rfl, hclass⟩ := houtside
      have hhops : around.hops? ref.name.lexeme = none := by
        have hthis : ref.name.lexeme = "this" := h.occurrence
        rw [hthis, Whereabouts.hops?, List.findIdx?_eq_none_iff]
        exact fun names hnames => by simpa using h.around.this_notMem hclass names hnames
      simp [binding?, hhops]
    · rfl
  | _ => rfl

section
variable {around : Whereabouts ι}

theorem worded_expression {e : Expr ι} (he : e.WellFormed) (h : around.Named) :
    ∀ site ∈ e.sites around, site.Worded := by
  intro site hsite
  obtain ⟨⟨use, ref⟩, hr, rfl⟩ := List.mem_map.mp hsite
  cases use with
  | this => exact ⟨h, (he.references_word _ hr).1 rfl⟩
  | _ => exact ⟨h, trivial⟩

theorem worded_option {value : Option (Expr ι)} (he : ∀ e ∈ value, e.WellFormed)
    (h : around.Named) : ∀ site ∈ Expr.sitesOption around value, site.Worded := by
  cases value with
  | none => exact List.forall_mem_nil _
  | some e => exact worded_expression (he e rfl) h

theorem worded_parameters (h : around.Named) (earlier names : List Token) :
    ∀ site ∈ parameterSites around earlier names, site.Worded := by
  induction names generalizing earlier with
  | nil => exact List.forall_mem_nil _
  | cons name names ih => exact List.forall_mem_cons.mpr ⟨⟨h, trivial⟩, ih _⟩

/-- The statements of a body, behind others of it. -/
theorem worded_body {o : BodyOf ι} {earlier body : List (Stmt ι)} (h : around.Named)
    (hnames : ∀ t ∈ o.params ++ Stmt.declaresAll (earlier ++ body), t.IsName)
    (hbody : ∀ s ∈ body, ∀ around : Whereabouts ι, around.Named →
      ∀ site ∈ s.sites around, site.Worded) :
    ∀ site ∈ Stmt.sitesAll o around earlier body, site.Worded := by
  induction body generalizing earlier with
  | nil => exact List.forall_mem_nil _
  | cons s body ih =>
    obtain ⟨hs, hbody⟩ := List.forall_mem_cons.mp hbody
    rw [List.append_cons] at hnames
    have hfirst : ∀ t ∈ o.params ++ Stmt.declaresAll (earlier ++ [s]), t.IsName := by
      intro t ht
      refine hnames t ?_
      rw [Stmt.declaresAll, List.flatMap_append, ← List.append_assoc]
      exact List.mem_append_left _ ht
    exact List.forall_mem_append.mpr ⟨hs _ (h.cons hfirst), ih hnames hbody⟩

theorem worded_function {f : Function ι} {isMethod : Bool} (h : around.Named)
    (hf : f.WellFormed) (hbody : ∀ s ∈ f.body, ∀ around : Whereabouts ι, around.Named →
      ∀ site ∈ s.sites around, site.Worded) :
    ∀ site ∈ Function.sites isMethod around f, site.Worded := by
  obtain ⟨name, params, body⟩ := f
  have hnames : ∀ t ∈ params ++ Stmt.declaresAll ([] ++ body), t.IsName := by
    refine List.forall_mem_append.mpr ⟨hf.params, fun t ht => ?_⟩
    obtain ⟨s, hs, ht⟩ := List.mem_flatMap.mp ht
    exact (hf.body s hs).isName_of_declares t ht
  exact List.forall_mem_append.mpr ⟨worded_parameters h [] params, worded_body h hnames hbody⟩

theorem worded_methods {methods : List (Function ι)} (h : around.Named)
    (hwf : ∀ m ∈ methods, m.WellFormed) (hbodies : ∀ m ∈ methods, ∀ s ∈ m.body,
      ∀ around : Whereabouts ι, around.Named → ∀ site ∈ s.sites around, site.Worded) :
    ∀ site ∈ Function.sitesAll around methods, site.Worded := by
  induction methods with
  | nil => exact List.forall_mem_nil _
  | cons m methods ih =>
    obtain ⟨hm, hwf⟩ := List.forall_mem_cons.mp hwf
    obtain ⟨hbody, hbodies⟩ := List.forall_mem_cons.mp hbodies
    exact List.forall_mem_append.mpr ⟨worded_function h hm hbody, ih hwf hbodies⟩

theorem Stmt.WellFormed.worded {s : Stmt ι} (hs : s.WellFormed) (around : Whereabouts ι)
    (h : around.Named) : ∀ site ∈ s.sites around, site.Worded := by
  induction hs generalizing around with
  | expression hvalue | print hvalue =>
    rw [Stmt.sites]
    exact worded_expression hvalue h
  | var _ hinitial =>
    rw [Stmt.sites]
    exact List.forall_mem_cons.mpr
      ⟨⟨h, trivial⟩, worded_option hinitial (h.cons (List.forall_mem_nil _))⟩
  | block hbody ih =>
    rw [Stmt.sites]
    refine worded_body h (fun t ht => ?_) ih
    obtain ⟨s, hs, ht⟩ := List.mem_flatMap.mp ht
    exact (hbody s hs).isName_of_declares t ht
  | ifThen hcondition _ _ ih | whileLoop hcondition _ _ ih =>
    rw [Stmt.sites]
    exact List.forall_mem_append.mpr ⟨worded_expression hcondition h, ih around h⟩
  | ifElse hcondition _ _ _ _ ihbody ihother =>
    rw [Stmt.sites]
    refine List.forall_mem_append.mpr ⟨List.forall_mem_append.mpr ⟨?_, ?_⟩, ihother around h⟩
    · exact worded_expression hcondition h
    · exact ihbody around h
  | function _ hparams hbody ih =>
    rw [Stmt.sites]
    exact List.forall_mem_cons.mpr ⟨⟨h, trivial⟩, worded_function h ⟨hparams, hbody⟩ ih⟩
  | returnFrom hvalue =>
    rw [Stmt.sites]
    exact List.forall_mem_cons.mpr ⟨⟨h, trivial⟩, worded_option hvalue h⟩
  | @classOf name superclass methods _ _ hparams hbodies ih =>
    have hmethods : ∀ derived, ∀ site ∈ Function.sitesAll (.methods derived :: around) methods,
        site.Worded := fun derived =>
      worded_methods (h.cons (List.forall_mem_nil _)) (fun m hm => ⟨hparams m hm, hbodies m hm⟩) ih
    cases superclass with
    | none =>
      rw [Stmt.sites]
      exact List.forall_mem_cons.mpr ⟨⟨h, trivial⟩, hmethods false⟩
    | some parent =>
      rw [Stmt.sites, List.forall_mem_cons, List.forall_mem_cons, List.forall_mem_cons]
      exact ⟨⟨h, trivial⟩, ⟨h, trivial⟩, ⟨h, trivial⟩, hmethods true⟩

end

theorem filterMap_binding?_visitProgram {program : List (Stmt Label)}
    (h : ∀ s ∈ program, s.WellFormed) :
    (visitProgram program).filterMap Finding.binding? = (sitesOf program).filterMap Site.binding? := by
  have hworded : ∀ site ∈ sitesOf program, site.recorded? = site.binding? := by
    intro site hsite
    obtain ⟨s, hs, hsite⟩ := List.mem_flatMap.mp hsite
    exact ((h s hs).worded [] (List.forall_mem_nil _) site hsite).recorded?_eq
  have houtcomes := congrArg (List.filterMap Sum.getLeft?)
    (outcomes_program fun s hs => (h s hs).shaped)
  rw [← List.filterMap_congr hworded]
  simpa only [outcomesOf, siteOutcomes, List.filterMap_flatMap, filterMap_getLeft?_outcomes,
    Site.filterMap_getLeft?_outcomes, ← List.filterMap_eq_flatMap_toList] using houtcomes

end LoxLang
