import LoxLang.Proofs.Scope.Binding
import LoxLang.Proofs.Scope.Spots

/-! # Programs ready to run

A part of a program is ready at its place if it is well-formed, breaks no rule about names and
jumps, and meets a demand `Q`: each of its references satisfies a condition, and so does each spot to
which the binding pass comes from it.  What a run may count on at each part follows from what holds
of the whole, and is here taken apart form by form.

The scopes around a part are in order as well (`Context.Coherent`). -/

namespace LoxLang

open Binder (Surroundings FunctionContext ClassContext)

variable {ι : Type}

/-! ## Open scopes -/

namespace OpenScope

theorem has_mark (scope : OpenScope) (name other : String) (d : Bool) :
    (scope.mark name d).has other = (other == name || scope.has other) :=
  Bindings.contains_insert ..

@[simp] theorem whole_mark (scope : OpenScope) (name : String) (d : Bool) :
    (scope.mark name d).whole = scope.whole := rfl

@[simp] theorem has_fresh (names : List Token) (name : String) :
    (fresh names).has name = false := rfl

@[simp] theorem get?_ofWord (word name : String) :
    (ofWord word).declared.get? name = if name = word then some true else none := by
  simp [ofWord, Bindings.get?_insert]

theorem has_ofWord (word name : String) : (ofWord word).has name = (name == word) := by
  by_cases h : name = word <;> simp [has, Bindings.contains, h]

end OpenScope

namespace Context

/-- Every name that is declared in a scope is defined. -/
def Defined (context : Context) : Prop :=
  ∀ scope ∈ context, ∀ name, scope.declared.get? name ≠ some false

@[simp] theorem mark_cons (name : String) (d : Bool) (scope : OpenScope) (outer : Context) :
    Context.mark name d (scope :: outer) = scope.mark name d :: outer := rfl

@[simp] theorem hops?_cons (name : String) (scope : OpenScope) (outer : Context) :
    Context.hops? name (scope :: outer) =
      if scope.has name then some 0 else (outer.hops? name).map (· + 1) := by
  simp [hops?, List.findIdx?_cons]

theorem hops?_mark_of_ne {name other : String} (h : other ≠ name) (d : Bool) (context : Context) :
    (context.mark name d).hops? other = context.hops? other := by
  cases context with
  | nil => rfl
  | cons scope outer => simp [OpenScope.has_mark, h]

/-- Declaring names does not change what will be declared anywhere in the innermost scope. -/
theorem exists_of_mem_head?_introduceAll {names : List Token} {context : Context}
    {scope : OpenScope} (h : scope ∈ (context.introduceAll names).head?) :
    ∃ scope' ∈ context.head?, scope.whole = scope'.whole := by
  induction names generalizing context with
  | nil => exact ⟨scope, h, rfl⟩
  | cons name names ih =>
    obtain ⟨scope', hscope', hwhole⟩ := ih h
    cases context with
    | nil => exact nomatch hscope'
    | cons first outer =>
      cases hscope'
      exact ⟨first, rfl, hwhole⟩

theorem Defined.tail {context : Context} (h : context.Defined) : Context.Defined context.tail :=
  fun scope hscope => h scope (List.mem_of_mem_tail hscope)

theorem Defined.introduce {context : Context} (h : Context.Defined context.tail)
    (hhead : ∀ scope ∈ context.head?, ∀ name, scope.declared.get? name ≠ some false)
    (name : Token) : (context.introduce name).Defined := by
  cases context with
  | nil => exact List.forall_mem_nil _
  | cons scope outer =>
    refine List.forall_mem_cons.mpr ⟨fun other => ?_, h⟩
    simp only [OpenScope.mark, Bindings.get?_insert]
    split
    · simp
    · exact hhead scope rfl other

theorem Defined.head {context : Context} (h : context.Defined) :
    ∀ scope ∈ context.head?, ∀ name, scope.declared.get? name ≠ some false :=
  fun scope hscope => h scope (List.mem_of_mem_head? hscope)

theorem Defined.introduceAll {context : Context} (h : context.Defined) (names : List Token) :
    (context.introduceAll names).Defined := by
  induction names generalizing context with
  | nil => exact h
  | cons name names ih => exact ih (h.tail.introduce h.head name)

theorem Defined.cons {scope : OpenScope} {context : Context} (h : context.Defined)
    (hscope : ∀ name, scope.declared.get? name ≠ some false) :
    Context.Defined (scope :: context) := List.forall_mem_cons.mpr ⟨hscope, h⟩

theorem not_isPending {context : Context} (h : context.Defined) (name : String) :
    context.isPending name = false := by
  cases context with
  | nil => rfl
  | cons scope outer =>
    have := h scope List.mem_cons_self name
    simpa [isPending] using this

/-- The scopes that are open at a point are in order.  What is declared in a scope is among its
names, `this` and `super` are defined from the first in the scopes made for them and in no other
scopes, and in a derived class the nearest `this` lies directly inside the nearest `super`. -/
structure Coherent (classBody : ClassContext) (context : Context) : Prop where
  whole : ∀ scope ∈ context, ∀ name, scope.has name → name ∈ scope.whole
  this : ∀ scope ∈ context, "this" ∈ scope.whole → scope.has "this"
  super : ∀ scope ∈ context, "super" ∈ scope.whole → scope.has "super"
  defined : ∀ scope ∈ context, scope.declared.get? "this" ≠ some false ∧
    scope.declared.get? "super" ≠ some false
  derived : classBody = .derived →
    ∃ hops, context.hops? "super" = some (hops + 1) ∧ context.hops? "this" = some hops

namespace Coherent

variable {classBody : ClassContext} {context : Context}

theorem nil : Coherent .outside [] where
  whole := nofun
  this := nofun
  super := nofun
  defined := nofun
  derived := nofun

theorem mark (h : Coherent classBody context) {name : Token} (hname : name.IsName)
    (hwhole : ∀ scope ∈ context.head?, name.lexeme ∈ scope.whole) (d : Bool) :
    Coherent classBody (context.mark name.lexeme d) := by
  cases context with
  | nil => exact h
  | cons scope outer =>
    obtain ⟨hscope, houter⟩ := List.forall_mem_cons.mp h.whole
    obtain ⟨hthis, houter_this⟩ := List.forall_mem_cons.mp h.this
    obtain ⟨hsuper, houter_super⟩ := List.forall_mem_cons.mp h.super
    obtain ⟨hdefined, houter_defined⟩ := List.forall_mem_cons.mp h.defined
    refine ⟨List.forall_mem_cons.mpr ⟨fun other hother => ?_, houter⟩,
      List.forall_mem_cons.mpr ⟨fun hw => ?_, houter_this⟩,
      List.forall_mem_cons.mpr ⟨fun hw => ?_, houter_super⟩,
      List.forall_mem_cons.mpr ⟨?_, houter_defined⟩, fun hc => ?_⟩
    · rw [OpenScope.has_mark, Bool.or_eq_true, beq_iff_eq] at hother
      rcases hother with rfl | hother
      · exact hwhole scope rfl
      · exact hscope other hother
    · rw [OpenScope.has_mark, hthis hw, Bool.or_true]
    · rw [OpenScope.has_mark, hsuper hw, Bool.or_true]
    · simpa [OpenScope.mark, Bindings.get?_insert, Ne.symm hname.1, Ne.symm hname.2] using hdefined
    · rw [hops?_mark_of_ne hname.1.symm, hops?_mark_of_ne hname.2.symm]
      exact h.derived hc

theorem introduce (h : Coherent classBody context) {name : Token} (hname : name.IsName)
    (hwhole : ∀ scope ∈ context.head?, name.lexeme ∈ scope.whole) :
    Coherent classBody (context.introduce name) := h.mark hname hwhole true

theorem introduceAll {names : List Token} (h : Coherent classBody context)
    (hnames : ∀ name ∈ names, name.IsName)
    (hwhole : ∀ scope ∈ context.head?, ∀ name ∈ names, name.lexeme ∈ scope.whole) :
    Coherent classBody (context.introduceAll names) := by
  induction names generalizing context with
  | nil => exact h
  | cons name names ih =>
    obtain ⟨hname, hnames⟩ := List.forall_mem_cons.mp hnames
    refine ih (h.introduce hname fun scope hs => hwhole scope hs name List.mem_cons_self) hnames ?_
    cases context with
    | nil => exact nofun
    | cons scope outer =>
      rintro _ ⟨⟩ name' hname'
      exact hwhole scope rfl name' (List.mem_cons_of_mem name hname')

theorem not_isPending_this (h : Coherent classBody context) : context.isPending "this" = false := by
  cases context with
  | nil => rfl
  | cons scope outer =>
    have := (h.defined scope List.mem_cons_self).1
    simpa [isPending] using this

theorem not_isPending_super (h : Coherent classBody context) :
    context.isPending "super" = false := by
  cases context with
  | nil => rfl
  | cons scope outer =>
    have := (h.defined scope List.mem_cons_self).2
    simpa [isPending] using this

/-- A scope of names lies in order inside others. -/
theorem fresh (h : Coherent classBody context) {names : List Token}
    (hnames : ∀ name ∈ names, name.IsName) :
    Coherent classBody (OpenScope.fresh names :: context) := by
  have hne : ∀ word, (∀ name ∈ names, name.lexeme ≠ word) → word ∉ (OpenScope.fresh names).whole := by
    rintro word hword hw
    obtain ⟨name, hname, heq⟩ := List.mem_map.mp hw
    exact hword name hname heq
  refine ⟨List.forall_mem_cons.mpr ⟨nofun, h.whole⟩,
    List.forall_mem_cons.mpr ⟨fun hw => ?_, h.this⟩,
    List.forall_mem_cons.mpr ⟨fun hw => ?_, h.super⟩,
    List.forall_mem_cons.mpr ⟨⟨nofun, nofun⟩, h.defined⟩, fun hc => ?_⟩
  · exact absurd hw (hne "this" fun name hname => (hnames name hname).1)
  · exact absurd hw (hne "super" fun name hname => (hnames name hname).2)
  · obtain ⟨hops, hsuper, hthis⟩ := h.derived hc
    exact ⟨hops + 1, by simp [hsuper], by simp [hthis]⟩

/-- The scope of `this` lies in order inside others, in a class without a superclass. -/
theorem plain (h : Coherent classBody context) :
    Coherent .plain (OpenScope.ofWord "this" :: context) := by
  refine ⟨List.forall_mem_cons.mpr ⟨fun name hname => ?_, h.whole⟩,
    List.forall_mem_cons.mpr ⟨fun _ => rfl, h.this⟩,
    List.forall_mem_cons.mpr ⟨fun hw => ?_, h.super⟩,
    List.forall_mem_cons.mpr ⟨by simp, h.defined⟩, nofun⟩
  · rw [OpenScope.has_ofWord, beq_iff_eq] at hname
    simp [OpenScope.ofWord, hname]
  · simp [OpenScope.ofWord] at hw

/-- The scopes of `this` and `super` lie in order inside others, in a class with a superclass. -/
theorem derive (h : Coherent classBody context) :
    Coherent .derived (OpenScope.ofWord "this" :: OpenScope.ofWord "super" :: context) := by
  have hsuper : Coherent .plain (OpenScope.ofWord "super" :: context) := by
    refine ⟨List.forall_mem_cons.mpr ⟨fun name hname => ?_, h.whole⟩,
      List.forall_mem_cons.mpr ⟨fun hw => ?_, h.this⟩,
      List.forall_mem_cons.mpr ⟨fun _ => rfl, h.super⟩,
      List.forall_mem_cons.mpr ⟨by simp, h.defined⟩, nofun⟩
    · rw [OpenScope.has_ofWord, beq_iff_eq] at hname
      simp [OpenScope.ofWord, hname]
    · simp [OpenScope.ofWord] at hw
  exact { hsuper.plain with derived := fun _ => ⟨0, by simp [OpenScope.has_ofWord],
    by simp [OpenScope.has_ofWord]⟩ }

end Coherent

end Context

/-! ## Parts that are ready -/

/-- What is asked of a program: of its references and of its expressions and statements, each at its
place. -/
structure Demand (ι : Type) where
  use : Use ι → Prop
  spot : Spot ι → Prop

namespace Demand

instance : CoeFun (Demand ι) fun _ => Use ι → Prop := ⟨Demand.use⟩

/-- Nothing is asked. -/
def nothing : Demand ι := ⟨fun _ => True, fun _ => True⟩

/-- Something is asked of references only. -/
abbrev ofUses (Q : Use ι → Prop) : Demand ι := ⟨Q, fun _ => True⟩

/-- Something more is asked of references. -/
abbrev also (P : Use ι → Prop) (Q : Demand ι) : Demand ι := ⟨fun u => P u ∧ Q u, Q.spot⟩

/-- What is asked of spots holds wherever the pass comes from a spot. -/
def Covers (Q : Demand ι) (p : Spot ι) : Prop := ∀ q, p.Reaches q → Q.spot q

variable {Q : Demand ι} {p q : Spot ι}

theorem Covers.here (h : Q.Covers p) : Q.spot p := h p .refl

theorem Covers.next (h : Q.Covers p) (hq : q ∈ p.next) : Q.Covers q :=
  fun r hr => h r (.head hq hr)

theorem covers_ofUses (P : Use ι → Prop) (p : Spot ι) : (ofUses P).Covers p :=
  fun _ _ => trivial

end Demand

/-- A finding is a reference that satisfies a condition, and no broken rule. -/
def Finding.Good (Q : Use ι → Prop) : Finding ι → Prop
  | .use u => Q u
  | .error _ => False

variable {Q : Demand ι} {around : Surroundings} {context : Context}

/-- An expression is ready at its place. -/
structure Expr.Ready (Q : Demand ι) (around : Surroundings) (context : Context)
    (e : Expr ι) : Prop where
  wellFormed : e.WellFormed
  good : ∀ f ∈ e.visit around context, f.Good Q
  covers : Q.Covers ⟨.expression e, around, context⟩

/-- A statement is ready at its place, in a scope that has been made for the names it declares. -/
structure Stmt.Ready (Q : Demand ι) (around : Surroundings) (context : Context)
    (s : Stmt ι) : Prop where
  wellFormed : s.WellFormed
  good : ∀ f ∈ s.visit around context, f.Good Q
  declares : ∀ scope ∈ context.head?, ∀ name ∈ s.declares, name.lexeme ∈ scope.whole
  covers : Q.Covers ⟨.statement s, around, context⟩

/-- Statements that follow each other are ready at their place. -/
structure Stmt.ReadyAll (Q : Demand ι) (around : Surroundings) (context : Context)
    (ss : List (Stmt ι)) : Prop where
  wellFormed : ∀ s ∈ ss, s.WellFormed
  good : ∀ f ∈ Stmt.visitAll around context ss, f.Good Q
  declares : ∀ scope ∈ context.head?, ∀ name ∈ Stmt.declaresAll ss, name.lexeme ∈ scope.whole
  covers : ∀ p ∈ Stmt.spotsAll around context ss, Q.Covers p

/-- A function or method is ready at its place. -/
structure FunctionOf.Ready (Q : Demand ι) (around : Surroundings) (kind : FunctionContext)
    (context : Context) (f : Function ι) : Prop where
  wellFormed : f.WellFormed
  good : ∀ x ∈ Function.visit around kind context f, x.Good Q
  covers : ∀ p ∈ f.spots around kind context, Q.Covers p

/-- What is left to know of a reference without errors. -/
theorem Use.ready_of_findings {Q : Use ι → Prop} {u : Use ι} (h : ∀ f ∈ u.findings, f.Good Q) :
    u.errors = [] ∧ (u.kind ≠ .this ∨ u.around.classBody ≠ .outside → Q u) := by
  unfold findings at h
  refine ⟨?_, fun hu => ?_⟩
  · cases he : u.errors with
    | nil => rfl
    | cons e es => exact (h (.error e) (by simp [he])).elim
  · rw [if_neg fun hn => hu.elim (· hn.1) (· hn.2)] at h
    exact h (.use u) (by simp)

theorem Use.ready_of_read {ref : Ref ι}
    (h : ∀ f ∈ Use.findings ⟨ref, .read, around, context⟩, f.Good Q) :
    context.isPending ref.name.lexeme = false ∧ Q ⟨ref, .read, around, context⟩ := by
  obtain ⟨herrors, hQ⟩ := Use.ready_of_findings h
  refine ⟨?_, hQ (.inl nofun)⟩
  cases hp : context.isPending ref.name.lexeme with
  | false => rfl
  | true => simp [Use.errors, Use.isPending, hp] at herrors

namespace Expr.Ready

variable {e part left right operand inner callee object value : Expr ι} {op paren name : Token}
  {arguments : List (Expr ι)} {ref : Ref ι}

theorem covers_part (h : e.Ready Q around context) (hpart : part ∈ e.parts) :
    Q.Covers ⟨.expression part, around, context⟩ :=
  h.covers.next (List.mem_map_of_mem hpart)

theorem nameRef (h : (Expr.nameRef ref).Ready Q around context) :
    ref.name.IsName ∧ context.isPending ref.name.lexeme = false ∧
      Q ⟨ref, .read, around, context⟩ := by
  obtain ⟨⟨hname⟩, hgood, _⟩ := h
  exact ⟨‹_›, Use.ready_of_read (by rwa [visit_nameRef] at hgood)⟩

theorem assign (h : (Expr.assign ref value).Ready Q around context) :
    ref.name.IsName ∧ value.Ready Q around context ∧ Q ⟨ref, .assign, around, context⟩ := by
  have hcovers := h.covers_part List.mem_cons_self
  obtain ⟨hwf, hgood, _⟩ := h
  rw [visit_assign, List.forall_mem_append] at hgood
  cases hwf with
  | assign hname hvalue =>
    exact ⟨hname, ⟨hvalue, hgood.1, hcovers⟩, hgood.2 _ (List.mem_singleton_self _)⟩

theorem unary (h : (Expr.unary op operand).Ready Q around context) :
    operand.Ready Q around context := by
  have hcovers := h.covers_part List.mem_cons_self
  obtain ⟨hwf, hgood, _⟩ := h
  cases hwf with
  | unary hoperand => exact ⟨hoperand, hgood, hcovers⟩

theorem binary (h : (Expr.binary left op right).Ready Q around context) :
    left.Ready Q around context ∧ right.Ready Q around context := by
  have hcovers := h.covers_part List.mem_cons_self
  have hcovers' := h.covers_part (List.mem_cons_of_mem left List.mem_cons_self)
  obtain ⟨hwf, hgood, _⟩ := h
  rw [visit_binary, List.forall_mem_append] at hgood
  cases hwf with
  | binary hleft hright => exact ⟨⟨hleft, hgood.1, hcovers⟩, ⟨hright, hgood.2, hcovers'⟩⟩

theorem logical (h : (Expr.logical left op right).Ready Q around context) :
    left.Ready Q around context ∧ right.Ready Q around context := by
  have hcovers := h.covers_part List.mem_cons_self
  have hcovers' := h.covers_part (List.mem_cons_of_mem left List.mem_cons_self)
  obtain ⟨hwf, hgood, _⟩ := h
  rw [visit_logical, List.forall_mem_append] at hgood
  cases hwf with
  | logical hleft hright => exact ⟨⟨hleft, hgood.1, hcovers⟩, ⟨hright, hgood.2, hcovers'⟩⟩

theorem group (h : (Expr.group inner).Ready Q around context) : inner.Ready Q around context := by
  have hcovers := h.covers_part List.mem_cons_self
  obtain ⟨hwf, hgood, _⟩ := h
  cases hwf with
  | group hinner => exact ⟨hinner, hgood, hcovers⟩

theorem call (h : (Expr.call callee paren arguments).Ready Q around context) :
    callee.Ready Q around context ∧ ∀ a ∈ arguments, a.Ready Q around context := by
  have hcovers := h.covers_part List.mem_cons_self
  have hcovers' : ∀ a ∈ arguments, Q.Covers ⟨.expression a, around, context⟩ :=
    fun a ha => h.covers_part (List.mem_cons_of_mem callee ha)
  obtain ⟨hwf, hgood, _⟩ := h
  rw [visit_call, List.forall_mem_append] at hgood
  cases hwf with
  | call hcallee harguments =>
    exact ⟨⟨hcallee, hgood.1, hcovers⟩, fun a ha =>
      ⟨harguments a ha, fun f hf => hgood.2 f (List.mem_flatMap.mpr ⟨a, ha, hf⟩), hcovers' a ha⟩⟩

theorem get (h : (Expr.get object name).Ready Q around context) :
    object.Ready Q around context := by
  have hcovers := h.covers_part List.mem_cons_self
  obtain ⟨hwf, hgood, _⟩ := h
  cases hwf with
  | get hobject => exact ⟨hobject, hgood, hcovers⟩

theorem set (h : (Expr.set object name value).Ready Q around context) :
    object.Ready Q around context ∧ value.Ready Q around context := by
  have hcovers := h.covers_part List.mem_cons_self
  have hcovers' := h.covers_part (List.mem_cons_of_mem value List.mem_cons_self)
  obtain ⟨hwf, hgood, _⟩ := h
  rw [visit_set, List.forall_mem_append] at hgood
  cases hwf with
  | set hobject hvalue => exact ⟨⟨hobject, hgood.2, hcovers'⟩, ⟨hvalue, hgood.1, hcovers⟩⟩

theorem thisRef (h : (Expr.thisRef ref).Ready Q around context) :
    ref.name.lexeme = "this" ∧ Q ⟨ref, .this, around, context⟩ := by
  obtain ⟨hwf, hgood, _⟩ := h
  rw [visit_thisRef] at hgood
  obtain ⟨herrors, hQ⟩ := Use.ready_of_findings hgood
  cases hwf with
  | thisRef hthis =>
    refine ⟨hthis, hQ (.inr fun (hc : around.classBody = .outside) => ?_)⟩
    simp [Use.errors, hc] at herrors

theorem superRef (h : (Expr.superRef ref name).Ready Q around context) :
    ref.name.lexeme = "super" ∧ around.classBody = .derived ∧
      Q ⟨ref, .super, around, context⟩ := by
  obtain ⟨hwf, hgood, _⟩ := h
  rw [visit_superRef] at hgood
  obtain ⟨herrors, hQ⟩ := Use.ready_of_findings hgood
  cases hwf with
  | superRef hsuper =>
    refine ⟨hsuper, ?_, hQ (.inl nofun)⟩
    cases hc : around.classBody with
    | derived => rfl
    | outside | plain => simp [Use.errors, hc] at herrors

theorem ofOption {e : Option (Expr ι)} (hwf : ∀ x ∈ e, x.WellFormed)
    (hgood : ∀ f ∈ Expr.visitOption around context e, f.Good Q)
    (hcovers : ∀ p ∈ e.toList.map fun x => ⟨.expression x, around, context⟩, Q.Covers p) :
    ∀ x ∈ e, x.Ready Q around context := by
  rintro x ⟨⟩
  exact ⟨hwf x rfl, hgood, hcovers _ List.mem_cons_self⟩

end Expr.Ready

theorem FunctionOf.Ready.body {f : Function ι} {kind : FunctionContext}
    (h : f.Ready Q around kind context) :
    Stmt.ReadyAll Q ⟨kind, around.classBody⟩
      (Context.introduceAll f.params (.fresh f.scopeNames :: context)) f.body := by
  obtain ⟨⟨_, hbody⟩, hgood, hcovers⟩ := h
  obtain ⟨name, params, body⟩ := f
  rw [Function.visit, List.forall_mem_append] at hgood
  refine ⟨hbody, hgood.2, fun scope hscope name' hname' => ?_, hcovers⟩
  obtain ⟨_, ⟨⟩, hwhole⟩ := Context.exists_of_mem_head?_introduceAll hscope
  rw [hwhole]
  exact List.mem_map_of_mem (List.mem_append_right params hname')

theorem FunctionOf.Ready.ofMethods {ms : List (Function ι)} (hwf : ∀ m ∈ ms, m.WellFormed)
    (hgood : ∀ f ∈ Function.visitMethods around context ms, f.Good Q)
    (hcovers : ∀ p ∈ ms.flatMap fun m => m.spots around m.methodContext context, Q.Covers p) :
    ∀ m ∈ ms, m.Ready Q around m.methodContext context := by
  induction ms with
  | nil => exact nofun
  | cons m ms ih =>
    rw [Function.visitMethods, List.forall_mem_append] at hgood
    rw [List.flatMap_cons, List.forall_mem_append] at hcovers
    obtain ⟨hm, hms⟩ := List.forall_mem_cons.mp hwf
    exact List.forall_mem_cons.mpr ⟨⟨hm, hgood.1, hcovers.1⟩, ih hms hgood.2 hcovers.2⟩

namespace Stmt

section
variable {value condition : Expr ι} {initial result : Option (Expr ι)} {name keyword : Token}
  {s body other : Stmt ι} {ss : List (Stmt ι)} {f : Function ι} {methods : List (Function ι)}
  {parent : Ref ι}

theorem ReadyAll.cons (h : ReadyAll Q around context (s :: ss)) :
    s.Ready Q around context ∧ ReadyAll Q around (context.introduceAll s.declares) ss := by
  obtain ⟨hwf, hgood, hdeclares, hcovers⟩ := h
  obtain ⟨hs, hss⟩ := List.forall_mem_cons.mp hwf
  obtain ⟨hcovers, hcovers'⟩ := List.forall_mem_cons.mp hcovers
  rw [visitAll, List.forall_mem_append] at hgood
  rw [declaresAll, List.flatMap_cons] at hdeclares
  refine ⟨⟨hs, hgood.1, fun scope hscope name hname => ?_, hcovers⟩,
    ⟨hss, hgood.2, fun scope hscope name hname => ?_, hcovers'⟩⟩
  · exact hdeclares scope hscope name (List.mem_append_left _ hname)
  · obtain ⟨scope', hscope', hwhole⟩ := Context.exists_of_mem_head?_introduceAll hscope
    rw [hwhole]
    exact hdeclares scope' hscope' name (List.mem_append_right _ hname)

theorem Ready.expression (h : (Stmt.expression value).Ready Q around context) :
    value.Ready Q around context := by
  obtain ⟨hwf, hgood, _, hcovers⟩ := h
  cases hwf with
  | expression hvalue => exact ⟨hvalue, hgood, hcovers.next List.mem_cons_self⟩

theorem Ready.print (h : (Stmt.print value).Ready Q around context) :
    value.Ready Q around context := by
  obtain ⟨hwf, hgood, _, hcovers⟩ := h
  cases hwf with
  | print hvalue => exact ⟨hvalue, hgood, hcovers.next List.mem_cons_self⟩

theorem Ready.var (h : (Stmt.var name initial).Ready Q around context) :
    name.IsName ∧ ∀ e ∈ initial, e.Ready Q around (context.mark name.lexeme false) := by
  obtain ⟨hwf, hgood, _, hcovers⟩ := h
  rw [visit, List.forall_mem_append] at hgood
  cases hwf with
  | var hname hinitial =>
    exact ⟨hname, .ofOption hinitial hgood.2 fun _ hp => hcovers.next hp⟩

theorem Ready.block (h : (Stmt.block ss).Ready Q around context) :
    ReadyAll Q around (.fresh (declaresAll ss) :: context) ss := by
  obtain ⟨hwf, hgood, _, hcovers⟩ := h
  cases hwf with
  | block hbody =>
    refine ⟨hbody, hgood, ?_, fun _ hp => hcovers.next hp⟩
    rintro _ ⟨⟩ name hname
    exact List.mem_map_of_mem hname

theorem Ready.ofDeclaresNothing (hwf : s.WellFormed) (hgood : ∀ f ∈ s.visit around context, f.Good Q)
    (hnone : s.declares = []) (hcovers : Q.Covers ⟨.statement s, around, context⟩) :
    s.Ready Q around context :=
  ⟨hwf, hgood, by simp [hnone], hcovers⟩

theorem Ready.ifThen (h : (Stmt.ifThen condition body).Ready Q around context) :
    condition.Ready Q around context ∧ body.Ready Q around context ∧ body.declares = [] := by
  obtain ⟨hwf, hgood, _, hcovers⟩ := h
  rw [visit, List.forall_mem_append] at hgood
  cases hwf with
  | ifThen hcondition hbody hnone =>
    exact ⟨⟨hcondition, hgood.1, hcovers.next List.mem_cons_self⟩, .ofDeclaresNothing hbody hgood.2
      hnone (hcovers.next (List.mem_cons_of_mem _ List.mem_cons_self)), hnone⟩

theorem Ready.whileLoop (h : (Stmt.whileLoop condition body).Ready Q around context) :
    condition.Ready Q around context ∧ body.Ready Q around context ∧ body.declares = [] := by
  obtain ⟨hwf, hgood, _, hcovers⟩ := h
  rw [visit, List.forall_mem_append] at hgood
  cases hwf with
  | whileLoop hcondition hbody hnone =>
    exact ⟨⟨hcondition, hgood.1, hcovers.next List.mem_cons_self⟩, .ofDeclaresNothing hbody hgood.2
      hnone (hcovers.next (List.mem_cons_of_mem _ List.mem_cons_self)), hnone⟩

theorem Ready.ifElse (h : (Stmt.ifElse condition body other).Ready Q around context) :
    condition.Ready Q around context ∧ (body.Ready Q around context ∧ body.declares = []) ∧
      other.Ready Q around context ∧ other.declares = [] := by
  obtain ⟨hwf, hgood, _, hcovers⟩ := h
  rw [visit, List.forall_mem_append, List.forall_mem_append] at hgood
  obtain ⟨⟨hc, hb⟩, ho⟩ := hgood
  have hcondition := hcovers.next List.mem_cons_self
  have hbody := hcovers.next (List.mem_cons_of_mem _ List.mem_cons_self)
  have hother := hcovers.next (List.mem_cons_of_mem _ (List.mem_cons_of_mem _ List.mem_cons_self))
  cases hwf with
  | ifElse hwfc hwfb hnone hwfo hnone' =>
    rw [hnone] at ho hother
    exact ⟨⟨hwfc, hc, hcondition⟩, ⟨.ofDeclaresNothing hwfb hb hnone hbody, hnone⟩,
      .ofDeclaresNothing hwfo ho hnone' hother, hnone'⟩

theorem Ready.function (h : (Stmt.function f).Ready Q around context) :
    f.name.IsName ∧ f.Ready Q around .function (context.introduce f.name) := by
  obtain ⟨hwf, hgood, _, hcovers⟩ := h
  rw [visit, List.forall_mem_append] at hgood
  cases hwf with
  | function hname hparams hbody =>
    exact ⟨hname, ⟨hparams, hbody⟩, hgood.2, fun _ hp => hcovers.next hp⟩

theorem Ready.returnFrom (h : (Stmt.returnFrom keyword result).Ready Q around context) :
    ∀ e ∈ result, e.Ready Q around context := by
  obtain ⟨hwf, hgood, _, hcovers⟩ := h
  rw [visit, List.forall_mem_append] at hgood
  cases hwf with
  | returnFrom hvalue => exact .ofOption hvalue hgood.2 fun _ hp => hcovers.next hp

theorem Ready.classOf (h : (Stmt.classOf name none methods).Ready Q around context) :
    name.IsName ∧ ∀ m ∈ methods, m.Ready Q ⟨around.function, .plain⟩ m.methodContext
      (.ofWord "this" :: context.introduce name) := by
  obtain ⟨hwf, hgood, _, hcovers⟩ := h
  rw [visit, List.forall_mem_append] at hgood
  have hmethods := hwf.methods
  cases hwf with
  | classOf hname =>
    exact ⟨hname, .ofMethods hmethods hgood.2 fun _ hp => hcovers.next hp⟩

theorem Ready.subclassOf (h : (Stmt.classOf name (some parent) methods).Ready Q around context) :
    name.IsName ∧ parent.name.IsName ∧ parent.name.lexeme ≠ name.lexeme ∧
      (context.introduce name).isPending parent.name.lexeme = false ∧
      Q ⟨parent, .read, around, context.introduce name⟩ ∧
      ∀ m ∈ methods, m.Ready Q ⟨around.function, .derived⟩ m.methodContext
        (.ofWord "this" :: .ofWord "super" :: context.introduce name) := by
  obtain ⟨hwf, hgood, _, hcovers⟩ := h
  rw [visit, List.forall_mem_append, List.forall_mem_append, List.forall_mem_append] at hgood
  obtain ⟨⟨⟨_, hself⟩, hparent⟩, hms⟩ := hgood
  obtain ⟨hpending, hQ⟩ := Use.ready_of_read hparent
  have hne : parent.name.lexeme ≠ name.lexeme := by
    intro heq
    rw [if_pos heq] at hself
    exact hself _ (List.mem_singleton_self _)
  have hmethods := hwf.methods
  cases hwf with
  | classOf hname hsuperclass =>
    exact ⟨hname, hsuperclass parent rfl, hne, hpending, hQ,
      .ofMethods hmethods hms fun _ hp => hcovers.next (List.mem_cons_of_mem _ hp)⟩

/-- The name of a superclass is read where the name of the class is declared already. -/
theorem Ready.superclass (h : (Stmt.classOf name (some parent) methods).Ready Q around context) :
    (Expr.nameRef parent).Ready Q around (context.introduce name) := by
  obtain ⟨hwf, hgood, _, hcovers⟩ := h
  rw [visit, List.forall_mem_append, List.forall_mem_append] at hgood
  obtain ⟨⟨_, hparent⟩, _⟩ := hgood
  cases hwf with
  | classOf _ hsuperclass =>
    exact ⟨.nameRef (hsuperclass parent rfl), by rwa [Expr.visit_nameRef],
      hcovers.next List.mem_cons_self⟩

end

end Stmt

end LoxLang
