import LoxLang.Proofs.Scope.Ready

/-! # Moments of the binding pass

The binding pass makes one visit after another, each in the state in which it is at that moment.
`Binder.Comes` says to which expressions and statements it goes on from a visit, and in which state;
there is one case for each place where the pass calls itself, with what it does before.  To every spot
of a program that it goes through it comes with just the scopes open that the spot has
(`exists_visit`), and where it leaves a scope, just those names are declared in it that the scope
declares anywhere (`contains_iff_of_body`). -/

namespace LoxLang

open Binder (Surroundings FunctionContext ClassContext)

/-- The condition of a branch or loop, and the statements that it decides about. -/
def Stmt.branches? {ι : Type} : Stmt ι → Option (Expr ι × List (Stmt ι))
  | .ifThen condition body | .whileLoop condition body => some (condition, [body])
  | .ifElse condition body other => some (condition, [body, other])
  | _ => none

/-- Names that are declared one after another are declared in the innermost scope. -/
theorem Context.exists_introduceAll_cons (names : List Token) (first : OpenScope)
    (outer : Context) :
    ∃ scope, Context.introduceAll names (first :: outer) = scope :: outer ∧
      ∀ name, scope.has name ↔ name ∈ names.map Token.lexeme ∨ first.has name := by
  induction names generalizing first with
  | nil => exact ⟨first, rfl, fun name => (or_iff_right List.not_mem_nil).symm⟩
  | cons t names ih =>
    obtain ⟨scope, hscope, hhas⟩ := ih (first.mark t.lexeme true)
    refine ⟨scope, hscope, fun name => (hhas name).trans ?_⟩
    rw [OpenScope.has_mark, Bool.or_eq_true, beq_iff_eq, List.map_cons, List.mem_cons]
    tauto

namespace Binder

/-- An expression or a statement that the pass sets out to bind, with the levels of nesting that are
left for it. -/
inductive Visit
  | expression (depth : Nat) (around : Surroundings) (e : Expr Label)
  | statement (depth : Nat) (around : Surroundings) (st : Stmt Label)

/-- What the pass does in a visit. -/
def Visit.pass : Visit → Pass Unit
  | .expression depth around e => Binder.expression around depth e
  | .statement depth around st => Binder.statement depth around st

/-- The state in a new scope. -/
def State.inside (s : State) : State := { s with scopes := Bindings.empty :: s.scopes }

/-- Takes down that a token breaks a rule, if it does. -/
def reportIf (p : Prop) [Decidable p] (fault : ScopeFault) (place : Token) : Pass Unit :=
  if p then report fault place else pure ()

/-- What the pass does in a class statement before it comes to the methods. -/
def openClass (around : Surroundings) (name : Token) : Option (Ref Label) → Pass Unit
  | none => introduce name
  | some parent => do
    introduce name
    reportIf (parent.name.lexeme = name.lexeme) .inheritsFromItself parent.name
    readName around parent
    modify State.inside
    mark "super" true

/-- The class in whose body the methods of a class statement are. -/
def classBodyOf : Option (Ref Label) → ClassContext
  | none => .plain
  | some _ => .derived

/-- In a function the pass comes to a statement of its body. -/
def ComesInside (depth : Nat) (around : Surroundings) (kind : FunctionContext)
    (f : Function Label) (s : State) (st : Stmt Label) (s' : State) : Prop :=
  ∃ earlier later s₁, f.body = earlier ++ st :: later ∧
    f.params.forM introduce s.inside = .ok () s₁ ∧
    earlier.forM (statement depth ⟨kind, around.classBody⟩) s₁ = .ok () s'

/-- Among methods, in the scope of `this`, the pass comes to a statement of one of them. -/
def ComesToMethod (depth : Nat) (around : Surroundings) (ms : List (Function Label)) (s : State)
    (kind : FunctionContext) (st : Stmt Label) (s' : State) : Prop :=
  ∃ earlier m later s₁ s₂, ms = earlier ++ m :: later ∧ kind = m.methodContext ∧
    mark "this" true s.inside = .ok () s₁ ∧
    earlier.forM (fun m => function around m.methodContext (statement depth) m) s₁ = .ok () s₂ ∧
    ComesInside depth around kind m s₂ st s'

/-- From a visit the pass goes on to another in some state. -/
inductive Comes : Visit × State → Visit × State → Prop
  | part {depth : Nat} {around : Surroundings} {e part : Expr Label}
      {earlier later : List (Expr Label)} {s s' : State}
      (hparts : e.parts = earlier ++ part :: later)
      (hearlier : earlier.forM (expression around depth) s = .ok () s') :
      Comes (.expression (depth + 1) around e, s) (.expression depth around part, s')
  | value {depth : Nat} {around : Surroundings} {st : Stmt Label} {e : Expr Label} {s : State}
      (hvalue : st = .expression e ∨ st = .print e) :
      Comes (.statement (depth + 1) around st, s) (.expression depth around e, s)
  | initial {depth : Nat} {around : Surroundings} {name : Token} {e : Expr Label} {s s' : State}
      (hname : declare name s = .ok () s') :
      Comes (.statement (depth + 1) around (.var name (some e)), s) (.expression depth around e, s')
  | returned {depth : Nat} {around : Surroundings} {keyword : Token} {e : Expr Label}
      {s s₁ s' : State}
      (hplace : reportIf (around.function = .outside) .returnOutsideFunction keyword s = .ok () s₁)
      (hvalue : reportIf (around.function = .initializer) .valueFromInitializer keyword s₁ =
        .ok () s') :
      Comes (.statement (depth + 1) around (.returnFrom keyword (some e)), s)
        (.expression depth around e, s')
  | condition {depth : Nat} {around : Surroundings} {st : Stmt Label} {e : Expr Label}
      {bodies : List (Stmt Label)} {s : State} (hbranches : st.branches? = some (e, bodies)) :
      Comes (.statement (depth + 1) around st, s) (.expression depth around e, s)
  | branch {depth : Nat} {around : Surroundings} {st body : Stmt Label} {e : Expr Label}
      {earlier later : List (Stmt Label)} {s s₁ s' : State}
      (hbranches : st.branches? = some (e, earlier ++ body :: later))
      (hcondition : expression around depth e s = .ok () s₁)
      (hearlier : earlier.forM (statement depth around) s₁ = .ok () s') :
      Comes (.statement (depth + 1) around st, s) (.statement depth around body, s')
  | block {depth : Nat} {around : Surroundings} {earlier later : List (Stmt Label)}
      {st : Stmt Label} {s s' : State}
      (hearlier : earlier.forM (statement depth around) s.inside = .ok () s') :
      Comes (.statement (depth + 1) around (.block (earlier ++ st :: later)), s)
        (.statement depth around st, s')
  | function {depth : Nat} {around : Surroundings} {f : Function Label} {st : Stmt Label}
      {s s₁ s' : State} (hname : introduce f.name s = .ok () s₁)
      (hbody : ComesInside depth around .function f s₁ st s') :
      Comes (.statement (depth + 1) around (.function f), s)
        (.statement depth ⟨.function, around.classBody⟩ st, s')
  /-- The name of a superclass is bound as any name that is read. -/
  | superclass {depth : Nat} {around : Surroundings} {name : Token} {parent : Ref Label}
      {ms : List (Function Label)} {s s₁ s' : State} (hname : introduce name s = .ok () s₁)
      (hself : reportIf (parent.name.lexeme = name.lexeme) .inheritsFromItself parent.name s₁ =
        .ok () s') :
      Comes (.statement (depth + 1) around (.classOf name (some parent) ms), s)
        (.expression (depth + 1) around (.nameRef parent), s')
  | method {depth : Nat} {around : Surroundings} {name : Token} {superclass : Option (Ref Label)}
      {ms : List (Function Label)} {kind : FunctionContext} {st : Stmt Label} {s s₁ s' : State}
      (hopen : openClass around name superclass s = .ok () s₁)
      (hmethod : ComesToMethod depth ⟨around.function, classBodyOf superclass⟩ ms s₁ kind st s') :
      Comes (.statement (depth + 1) around (.classOf name superclass ms), s)
        (.statement depth ⟨kind, classBodyOf superclass⟩ st, s')

/-- The pass over a program makes a visit in a state. -/
def Visits (depth : Nat) (program : List (Stmt Label)) (table : BindingTable) (v : Visit)
    (s : State) : Prop :=
  ∃ earlier st later s₁, program = earlier ++ st :: later ∧
    earlier.forM (statement depth ⟨.outside, .outside⟩) ⟨[], [], table⟩ = .ok () s₁ ∧
    Relation.ReflTransGen Comes (.statement depth ⟨.outside, .outside⟩ st, s₁) (v, s)

/-! ## Open scopes on the way -/

/-- Steps that the pass goes through lead from open scopes to others. -/
def Moves (x : Pass Unit) (context context' : Context) : Prop :=
  ∀ s s', s.scopes = context.map OpenScope.declared → x s = .ok () s' →
    s'.scopes = context'.map OpenScope.declared

section
variable {α : Type} {depth : Nat} {around : Surroundings} {context context' context'' : Context}
  {s s' : State} {x y : Pass Unit}

theorem Finds.moves {fs : List (Finding Label)} (h : Finds x context fs context') :
    Moves x context context' := by
  intro s s' hs hx
  have hends := h s hs
  rw [hx] at hends
  exact hends.scopes_eq

theorem Moves.bind (hx : Moves x context context') (hy : Moves y context' context'') :
    Moves (do x; y) context context'' := by
  intro s s' hs h
  obtain ⟨_, s₁, hx', hy'⟩ := EStateM.bind_eq_ok.mp h
  exact hy s₁ s' (hx s s₁ hs hx') hy'

theorem moves_reportIf (p : Prop) [Decidable p] (fault : ScopeFault) (place : Token)
    (context : Context) : Moves (reportIf p fault place) context context := by
  unfold reportIf
  split
  · exact (finds_report context fault place).moves
  · exact (finds_pure context).moves

/-- The scopes around the scope of `this` in the methods of a class. -/
def methodContextOf (name : Token) (superclass : Option (Ref Label)) (context : Context) : Context :=
  match superclass with
  | none => context.introduce name
  | some _ => .ofWord "super" :: context.introduce name

theorem moves_inside (whole : List String) (context : Context) :
    Moves (modify State.inside) context (⟨Bindings.empty, whole⟩ :: context) := by
  intro s s' hs h
  cases h
  exact congrArg (List.cons Bindings.empty) hs

theorem moves_openClass (name : Token) (superclass : Option (Ref Label)) (context : Context) :
    Moves (openClass around name superclass) context
      (methodContextOf name superclass context) := by
  have hname := (finds_introduce context name).moves
  cases superclass with
  | none => exact hname
  | some parent =>
    have hself := moves_reportIf (parent.name.lexeme = name.lexeme) .inheritsFromItself parent.name
      (context.introduce name)
    have hparent := (finds_readName (context.introduce name) around parent).moves
    have hsuper := (finds_mark (⟨Bindings.empty, ["super"]⟩ :: context.introduce name) "super"
      true).moves
    exact hname.bind (hself.bind (hparent.bind ((moves_inside ["super"] _).bind hsuper)))

/-- **The names declared anywhere in a scope** are those that are declared in it where the pass
leaves it. -/
theorem contains_iff_of_body {params : List Token} {body : List (Stmt Label)}
    (hwf : ∀ st ∈ body, st.WellFormed) (hs : s.scopes = context.map OpenScope.declared)
    (h : (do params.forM introduce; body.forM (statement depth around)) s.inside = .ok () s') :
    ∃ scope, s'.scopes = scope :: s.scopes ∧
      ∀ name, scope.contains name ↔
        name ∈ (OpenScope.fresh (params ++ Stmt.declaresAll body)).whole := by
  have hmoves : Moves (do params.forM introduce; body.forM (statement depth around))
      (.fresh (params ++ Stmt.declaresAll body) :: context) _ :=
    (finds_introduceAll _ params).moves.bind
      (finds_all _ fun st hst context => finds_statement (hwf st hst).known depth around context).moves
  rw [← Context.introduceAll_append] at hmoves
  obtain ⟨scope, hscope, hhas⟩ := Context.exists_introduceAll_cons
    (params ++ Stmt.declaresAll body) (.fresh (params ++ Stmt.declaresAll body)) context
  refine ⟨scope.declared, ?_, fun name => (hhas name).trans (or_iff_left nofun)⟩
  rw [hmoves s.inside s' (congrArg (List.cons Bindings.empty) hs) h, hscope, hs, List.map_cons]

/-- What is done in a new scope has been done if the whole is. -/
theorem exists_of_inScope (h : inScope x s = .ok () s') : ∃ s₁, x s.inside = .ok () s₁ := by
  obtain ⟨_, _, hopen, h⟩ := EStateM.bind_eq_ok.mp h
  cases hopen
  obtain ⟨_, s₁, hx, _⟩ := EStateM.bind_eq_ok.mp h
  exact ⟨s₁, hx⟩

theorem exists_of_forM {run : α → Pass Unit} {earlier later : List α} {a : α}
    (h : (earlier ++ a :: later).forM run s = .ok () s') :
    ∃ s₁ s₂, earlier.forM run s = .ok () s₁ ∧ run a s₁ = .ok () s₂ := by
  have hsplit : (earlier ++ a :: later).forM run =
      (do earlier.forM run; run a; later.forM run) := List.forM_append
  rw [hsplit] at h
  obtain ⟨_, s₁, hearlier, h⟩ := EStateM.bind_eq_ok.mp h
  obtain ⟨_, s₂, ha, _⟩ := EStateM.bind_eq_ok.mp h
  exact ⟨s₁, s₂, hearlier, ha⟩

/-- An expression is bound by binding its parts first. -/
theorem exists_of_expression {e : Expr Label} (h : expression around (depth + 1) e s = .ok () s') :
    ∃ s₁, e.parts.forM (expression around depth) s = .ok () s₁ := by
  cases e with
  | literal | nameRef | thisRef | superRef | unknown => exact ⟨s, rfl⟩
  | assign ref value =>
    obtain ⟨_, s₁, hvalue, _⟩ := EStateM.bind_eq_ok.mp h
    exact ⟨s₁, EStateM.bind_ok hvalue⟩
  | unary op operand => exact ⟨s', EStateM.bind_ok h⟩
  | group inner => exact ⟨s', EStateM.bind_ok h⟩
  | get object name => exact ⟨s', EStateM.bind_ok h⟩
  | binary left op right | logical left op right =>
    obtain ⟨_, s₁, hleft, hright⟩ := EStateM.bind_eq_ok.mp h
    exact ⟨s', (EStateM.bind_ok hleft).trans (EStateM.bind_ok hright)⟩
  | set object name value =>
    obtain ⟨_, s₁, hvalue, hobject⟩ := EStateM.bind_eq_ok.mp h
    exact ⟨s', (EStateM.bind_ok hvalue).trans (EStateM.bind_ok hobject)⟩
  | call callee paren arguments => exact ⟨s', h⟩

theorem statement_returnFrom (keyword : Token) (e : Expr Label) :
    statement (depth + 1) around (.returnFrom keyword (some e)) = (do
      reportIf (around.function = .outside) .returnOutsideFunction keyword
      reportIf (around.function = .initializer) .valueFromInitializer keyword
      expression around depth e) := by
  by_cases hplace : around.function = .outside <;>
    by_cases hvalue : around.function = .initializer <;>
      simp [statement, reportIf, hplace, hvalue]

theorem statement_subclassOf (name : Token) (parent : Ref Label) (ms : List (Function Label)) :
    statement (depth + 1) around (.classOf name (some parent) ms) = (do
      introduce name
      reportIf (parent.name.lexeme = name.lexeme) .inheritsFromItself parent.name
      readName around parent
      inScope do
        mark "super" true
        methods ⟨around.function, .derived⟩ (statement depth) ms) := by
  by_cases hself : parent.name.lexeme = name.lexeme <;> simp [statement, reportIf, hself]

end

end Binder

/-! ## From spot to spot -/

/-- The code is well-formed. -/
def Code.WellFormed {ι : Type} : Code ι → Prop
  | .expression e => e.WellFormed
  | .statement st => st.WellFormed

/-- The visit to a spot. -/
def Spot.visit (depth : Nat) (p : Spot Label) : Binder.Visit :=
  match p.code with
  | .expression e => .expression depth p.around e
  | .statement st => .statement depth p.around st

/-- The statements that a condition decides about follow each other. -/
theorem Stmt.spots_of_branches {ι : Type} {st : Stmt ι} {condition : Expr ι}
    {bodies : List (Stmt ι)} (h : st.branches? = some (condition, bodies)) (around : Surroundings)
    (context : Context) :
    st.spots around context =
      ⟨.expression condition, around, context⟩ :: Stmt.spotsAll around context bodies := by
  cases st <;> cases h <;> rfl

theorem Stmt.WellFormed.branches {ι : Type} {st : Stmt ι} {condition : Expr ι}
    {bodies : List (Stmt ι)} (h : st.WellFormed)
    (hbranches : st.branches? = some (condition, bodies)) :
    condition.WellFormed ∧ ∀ body ∈ bodies, body.WellFormed := by
  cases h with
  | ifThen hcondition hbody | whileLoop hcondition hbody =>
    cases hbranches
    exact ⟨hcondition, List.forall_mem_singleton.mpr hbody⟩
  | ifElse hcondition hbody _ hother =>
    cases hbranches
    exact ⟨hcondition, List.forall_mem_cons.mpr ⟨hbody, List.forall_mem_singleton.mpr hother⟩⟩
  | _ => cases hbranches

theorem Expr.WellFormed.parts {ι : Type} {e : Expr ι} (h : e.WellFormed) :
    ∀ part ∈ e.parts, part.WellFormed := by
  cases h with
  | literal | nameRef | thisRef | superRef => exact List.forall_mem_nil _
  | assign _ hvalue => exact List.forall_mem_singleton.mpr hvalue
  | unary hpart | group hpart | get hpart => exact List.forall_mem_singleton.mpr hpart
  | binary hleft hright | logical hleft hright =>
    exact List.forall_mem_cons.mpr ⟨hleft, List.forall_mem_singleton.mpr hright⟩
  | set hobject hvalue =>
    exact List.forall_mem_cons.mpr ⟨hvalue, List.forall_mem_singleton.mpr hobject⟩
  | call hcallee harguments => exact List.forall_mem_cons.mpr ⟨hcallee, harguments⟩

namespace Binder

variable {depth : Nat} {around : Surroundings} {context : Context} {s s' : State} {p q : Spot Label}

/-- In a state with the open scopes of a spot the pass goes through the spot. -/
structure GoesThrough (depth : Nat) (p : Spot Label) (s : State) : Prop where
  scopes : s.scopes = p.context.map OpenScope.declared
  wellFormed : p.code.WellFormed
  ends : ∃ s', (p.visit depth).pass s = .ok () s'

/-- Through statements the pass comes to each of them. -/
theorem exists_of_mem_spotsAll {ss : List (Stmt Label)} (hq : q ∈ Stmt.spotsAll around context ss)
    (hwf : ∀ st ∈ ss, st.WellFormed) (hs : s.scopes = context.map OpenScope.declared)
    (h : ss.forM (statement depth around) s = .ok () s') :
    ∃ earlier st later s₁, ss = earlier ++ st :: later ∧
      earlier.forM (statement depth around) s = .ok () s₁ ∧
      q.visit depth = .statement depth around st ∧ GoesThrough depth q s₁ := by
  induction ss generalizing s context with
  | nil => cases hq
  | cons first rest ih =>
    obtain ⟨hfirst, hrest⟩ := List.forall_mem_cons.mp hwf
    obtain ⟨_, s₁, hran, h⟩ := EStateM.bind_eq_ok.mp h
    rcases List.mem_cons.mp hq with rfl | hq
    · exact ⟨[], first, rest, s, rfl, rfl, rfl, hs, hfirst, s₁, hran⟩
    · have hs₁ := (finds_statement hfirst.known depth around context).moves s s₁ hs hran
      obtain ⟨earlier, st, later, s₂, rfl, hearlier, hvisit, hthrough⟩ := ih hq hrest hs₁ h
      exact ⟨first :: earlier, st, later, s₂, rfl, (EStateM.bind_ok hran).trans hearlier, hvisit,
        hthrough⟩

/-- Through a function the pass comes to the statements of its body. -/
theorem exists_of_mem_function {f : Function Label} {kind : FunctionContext}
    (hq : q ∈ f.spots around kind context) (hwf : f.WellFormed)
    (hs : s.scopes = context.map OpenScope.declared)
    (h : function around kind (statement depth) f s = .ok () s') :
    ∃ st s₁, ComesInside depth around kind f s st s₁ ∧
      q.visit depth = .statement depth ⟨kind, around.classBody⟩ st ∧ GoesThrough depth q s₁ := by
  obtain ⟨_, h⟩ := exists_of_inScope h
  obtain ⟨_, s₁, hparams, hbody⟩ := EStateM.bind_eq_ok.mp h
  have hs₁ := (finds_introduceAll (.fresh f.scopeNames :: context) f.params).moves _ s₁
    (congrArg (List.cons Bindings.empty) hs) hparams
  obtain ⟨earlier, st, later, s₂, hsplit, hearlier, hvisit, hthrough⟩ :=
    exists_of_mem_spotsAll hq hwf.body hs₁ hbody
  exact ⟨st, s₂, ⟨earlier, later, s₁, hsplit, hparams, hearlier⟩, hvisit, hthrough⟩

/-- Through methods the pass comes to the statements of each of them. -/
theorem exists_of_mem_methods {ms : List (Function Label)}
    (hq : q ∈ ms.flatMap fun m => m.spots around m.methodContext (.ofWord "this" :: context))
    (hwf : ∀ m ∈ ms, m.WellFormed) (hs : s.scopes = context.map OpenScope.declared)
    (h : methods around (statement depth) ms s = .ok () s') :
    ∃ kind st s₁, ComesToMethod depth around ms s kind st s₁ ∧
      q.visit depth = .statement depth ⟨kind, around.classBody⟩ st ∧ GoesThrough depth q s₁ := by
  obtain ⟨_, h⟩ := exists_of_inScope h
  obtain ⟨_, s₁, hthis, hms⟩ := EStateM.bind_eq_ok.mp h
  have hs₁ := (finds_mark (⟨Bindings.empty, ["this"]⟩ :: context) "this" true).moves _ s₁
    (congrArg (List.cons Bindings.empty) hs) hthis
  obtain ⟨m, hm, hspots⟩ := List.mem_flatMap.mp hq
  obtain ⟨earlier, later, rfl⟩ := List.append_of_mem hm
  obtain ⟨s₂, s₃, hearlier, hran⟩ := exists_of_forM hms
  have hran : function around m.methodContext (statement depth) m s₂ = .ok () s₃ := hran
  have hs₂ := (Finds.forM fun m hm => finds_function m.methodContext (.ofWord "this" :: context)
    fun st hst around context =>
      finds_statement ((hwf m (List.mem_append_left _ hm)).body st hst).known depth around
        context).moves s₁ s₂ hs₁ hearlier
  obtain ⟨st, s₄, hinside, hvisit, hthrough⟩ := exists_of_mem_function hspots (hwf m hm) hs₂ hran
  exact ⟨m.methodContext, st, s₄, ⟨earlier, m, later, s₁, s₂, rfl, rfl, hthis, hearlier, hinside⟩,
    hvisit, hthrough⟩

/-- From an expression the pass goes on to each of its parts. -/
theorem exists_of_mem_parts {e part : Expr Label} (hpart : part ∈ e.parts) (hwf : e.WellFormed)
    (hs : s.scopes = context.map OpenScope.declared)
    (h : expression around (depth + 1) e s = .ok () s') :
    ∃ s₁, Comes (.expression (depth + 1) around e, s) (.expression depth around part, s₁) ∧
      GoesThrough depth ⟨.expression part, around, context⟩ s₁ := by
  obtain ⟨_, hparts⟩ := exists_of_expression h
  obtain ⟨earlier, later, hsplit⟩ := List.append_of_mem hpart
  have hwf := hwf.parts
  rw [hsplit] at hparts hwf
  obtain ⟨s₁, s₂, hearlier, hran⟩ := exists_of_forM hparts
  have hfinds : ∀ a ∈ earlier, Finds (expression around depth a) context (a.visit around context)
      context := fun a ha => finds_expression (hwf a (List.mem_append_left _ ha)).known depth context
  have hs₁ := (Finds.forM hfinds).moves s s₁ hs hearlier
  exact ⟨s₁, .part hsplit hearlier, hs₁, hwf part (by simp), s₂, hran⟩

/-- From a branch or loop the pass goes on to the condition, and from there to what it decides about. -/
theorem exists_of_mem_branches {st : Stmt Label} {condition : Expr Label}
    {bodies : List (Stmt Label)} (hbranches : st.branches? = some (condition, bodies))
    (hq : q ∈ st.spots around context) (hwf : st.WellFormed)
    (hs : s.scopes = context.map OpenScope.declared)
    (h : statement (depth + 1) around st s = .ok () s') :
    ∃ s₁, Comes (.statement (depth + 1) around st, s) (q.visit depth, s₁) ∧
      GoesThrough depth q s₁ := by
  obtain ⟨s₁, s₂, hcondition, hbodies⟩ : ∃ s₁ s₂, expression around depth condition s = .ok () s₁ ∧
      bodies.forM (statement depth around) s₁ = .ok () s₂ := by
    cases st with
    | ifThen | whileLoop =>
      cases hbranches
      obtain ⟨_, s₁, hcondition, hbody⟩ := EStateM.bind_eq_ok.mp h
      exact ⟨s₁, s', hcondition, EStateM.bind_ok hbody⟩
    | ifElse =>
      cases hbranches
      obtain ⟨_, s₁, hcondition, h⟩ := EStateM.bind_eq_ok.mp h
      obtain ⟨_, s₂, hbody, hother⟩ := EStateM.bind_eq_ok.mp h
      exact ⟨s₁, s', hcondition, (EStateM.bind_ok hbody).trans (EStateM.bind_ok hother)⟩
    | _ => cases hbranches
  obtain ⟨hwfcondition, hwfbodies⟩ := hwf.branches hbranches
  rw [Stmt.spots_of_branches hbranches] at hq
  rcases List.mem_cons.mp hq with rfl | hq
  · exact ⟨s, .condition hbranches, hs, hwfcondition, s₁, hcondition⟩
  · have hs₁ := (finds_expression hwfcondition.known depth context).moves s s₁ hs
      hcondition
    obtain ⟨earlier, body, later, s₃, rfl, hearlier, hvisit, hthrough⟩ :=
      exists_of_mem_spotsAll hq hwfbodies hs₁ hbodies
    exact ⟨s₃, hvisit ▸ .branch hbranches hcondition hearlier, hthrough⟩

/-- In a class statement the pass opens the scopes around the methods and goes through these. -/
theorem exists_of_classOf {name : Token} {superclass : Option (Ref Label)}
    {ms : List (Function Label)}
    (h : statement (depth + 1) around (.classOf name superclass ms) s = .ok () s') :
    ∃ s₁ s₂, openClass around name superclass s = .ok () s₁ ∧
      methods ⟨around.function, classBodyOf superclass⟩ (statement depth) ms s₁ = .ok () s₂ := by
  cases superclass with
  | none =>
    obtain ⟨_, s₁, hname, hms⟩ := EStateM.bind_eq_ok.mp h
    exact ⟨s₁, s', hname, hms⟩
  | some parent =>
    rw [statement_subclassOf] at h
    obtain ⟨_, s₁, hname, h⟩ := EStateM.bind_eq_ok.mp h
    obtain ⟨_, s₂, hself, h⟩ := EStateM.bind_eq_ok.mp h
    obtain ⟨_, s₃, hparent, h⟩ := EStateM.bind_eq_ok.mp h
    obtain ⟨_, h⟩ := exists_of_inScope h
    obtain ⟨_, s₄, hsuper, hms⟩ := EStateM.bind_eq_ok.mp h
    refine ⟨s₄, _, ?_, hms⟩
    rw [openClass, EStateM.bind_ok hname, EStateM.bind_ok hself, EStateM.bind_ok hparent]
    exact hsuper

/-- From a class statement the pass goes on to the name of the superclass, and to the methods. -/
theorem exists_of_mem_classOf {name : Token} {superclass : Option (Ref Label)}
    {ms : List (Function Label)}
    (hq : q ∈ (Stmt.classOf name superclass ms).spots around context)
    (hwf : (Stmt.classOf name superclass ms).WellFormed)
    (hs : s.scopes = context.map OpenScope.declared)
    (h : statement (depth + 1) around (.classOf name superclass ms) s = .ok () s') :
    ∃ depth' s₁, Comes (.statement (depth + 1) around (.classOf name superclass ms), s)
      (q.visit depth', s₁) ∧ GoesThrough depth' q s₁ := by
  obtain ⟨s₁, s₂, hopen, hms⟩ := exists_of_classOf h
  have hs₁ := moves_openClass name superclass context s s₁ hs hopen
  have hmethod : ∀ {outer : Context}, s₁.scopes = outer.map OpenScope.declared →
      q ∈ (ms.flatMap fun m => m.spots ⟨around.function, classBodyOf superclass⟩ m.methodContext
        (.ofWord "this" :: outer)) →
      ∃ depth' s₁, Comes (.statement (depth + 1) around (.classOf name superclass ms), s)
        (q.visit depth', s₁) ∧ GoesThrough depth' q s₁ := by
    intro outer hs₁ hq
    obtain ⟨kind, st, s₃, hcomes, hvisit, hthrough⟩ := exists_of_mem_methods hq hwf.methods hs₁ hms
    exact ⟨depth, s₃, hvisit ▸ .method hopen hcomes, hthrough⟩
  cases superclass with
  | none => exact hmethod hs₁ hq
  | some parent =>
    rcases List.mem_cons.mp hq with rfl | hq
    · obtain ⟨_, s₃, hname, h⟩ := EStateM.bind_eq_ok.mp hopen
      obtain ⟨_, s₄, hself, h⟩ := EStateM.bind_eq_ok.mp h
      obtain ⟨_, s₅, hparent, _⟩ := EStateM.bind_eq_ok.mp h
      have hs₃ := (finds_introduce context name).moves s s₃ hs hname
      have hs₄ := moves_reportIf _ _ _ _ s₃ s₄ hs₃ hself
      cases hwf with
      | classOf _ hwfparent =>
        exact ⟨depth + 1, s₄, .superclass hname hself, hs₄, .nameRef (hwfparent parent rfl), s₅,
          hparent⟩
    · exact hmethod hs₁ hq

/-- From a statement the pass goes on to each part that it has. -/
theorem exists_of_mem_spots {st : Stmt Label} (hq : q ∈ st.spots around context)
    (hwf : st.WellFormed) (hs : s.scopes = context.map OpenScope.declared)
    (h : statement (depth + 1) around st s = .ok () s') :
    ∃ depth' s₁, Comes (.statement (depth + 1) around st, s) (q.visit depth', s₁) ∧
      GoesThrough depth' q s₁ := by
  cases st with
  | expression value =>
    obtain rfl := List.mem_singleton.mp hq
    cases hwf with
    | expression hvalue => exact ⟨depth, s, .value (.inl rfl), hs, hvalue, s', h⟩
  | print value =>
    obtain rfl := List.mem_singleton.mp hq
    cases hwf with
    | print hvalue => exact ⟨depth, s, .value (.inr rfl), hs, hvalue, s', h⟩
  | var name initial =>
    obtain ⟨e, he, rfl⟩ := List.mem_map.mp hq
    obtain rfl := Option.mem_toList.mp he
    obtain ⟨_, s₁, hname, h⟩ := EStateM.bind_eq_ok.mp h
    obtain ⟨_, s₂, hran, _⟩ := EStateM.bind_eq_ok.mp h
    cases hwf with
    | var _ hinitial =>
      exact ⟨depth, s₁, .initial hname, (finds_declare context name).moves s s₁ hs hname,
        hinitial e rfl, s₂, hran⟩
  | block body =>
    obtain ⟨_, h⟩ := exists_of_inScope h
    cases hwf with
    | block hbody =>
      obtain ⟨earlier, st, later, s₁, rfl, hearlier, hvisit, hthrough⟩ :=
        exists_of_mem_spotsAll hq hbody (congrArg (List.cons Bindings.empty) hs) h
      exact ⟨depth, s₁, hvisit ▸ .block hearlier, hthrough⟩
  | ifThen | whileLoop | ifElse => exact ⟨depth, exists_of_mem_branches rfl hq hwf hs h⟩
  | function f =>
    obtain ⟨_, s₁, hname, h⟩ := EStateM.bind_eq_ok.mp h
    cases hwf with
    | function _ hparams hbody =>
      obtain ⟨st, s₂, hinside, hvisit, hthrough⟩ := exists_of_mem_function hq ⟨hparams, hbody⟩
        ((finds_introduce context f.name).moves s s₁ hs hname) h
      exact ⟨depth, s₂, hvisit ▸ .function hname hinside, hthrough⟩
  | returnFrom keyword value =>
    obtain ⟨e, he, rfl⟩ := List.mem_map.mp hq
    obtain rfl := Option.mem_toList.mp he
    rw [statement_returnFrom] at h
    obtain ⟨_, s₁, hplace, h⟩ := EStateM.bind_eq_ok.mp h
    obtain ⟨_, s₂, hvalue, hran⟩ := EStateM.bind_eq_ok.mp h
    have hs₁ := moves_reportIf _ _ _ context s s₁ hs hplace
    cases hwf with
    | returnFrom hwfvalue =>
      exact ⟨depth, s₂, .returned hplace hvalue, moves_reportIf _ _ _ context s₁ s₂ hs₁ hvalue,
        hwfvalue e rfl, s', hran⟩
  | classOf name superclass ms => exact exists_of_mem_classOf hq hwf hs h
  | unknown form => cases hq

/-- **From a spot the pass goes on to the next ones**, each with the scopes open that it has. -/
theorem GoesThrough.next (h : GoesThrough depth p s) (hq : q ∈ p.next) :
    ∃ depth' s', Comes (p.visit depth, s) (q.visit depth', s') ∧ GoesThrough depth' q s' := by
  obtain ⟨code, around, context⟩ := p
  obtain ⟨hs, hwf, s', hran⟩ := h
  cases depth with
  | zero => cases code <;> cases hran
  | succ depth =>
    cases code with
    | expression e =>
      obtain ⟨part, hpart, rfl⟩ := List.mem_map.mp hq
      obtain ⟨s₁, hcomes⟩ := exists_of_mem_parts hpart hwf hs hran
      exact ⟨depth, s₁, hcomes⟩
    | statement st => exact exists_of_mem_spots hq hwf hs hran

theorem GoesThrough.reaches (h : GoesThrough depth p s) (hq : p.Reaches q) :
    ∃ depth' s', Relation.ReflTransGen Comes (p.visit depth, s) (q.visit depth', s') ∧
      GoesThrough depth' q s' := by
  induction hq with
  | refl => exact ⟨depth, s, .refl, h⟩
  | tail _ hnext ih =>
    obtain ⟨d, s₁, hcomes, hthrough⟩ := ih
    obtain ⟨d', s₂, hcome, hthrough'⟩ := hthrough.next hnext
    exact ⟨d', s₂, hcomes.tail hcome, hthrough'⟩

/-- **The pass comes to every spot of a program that it goes through**, with the scopes open that the
spot has. -/
theorem exists_visit {program : List (Stmt Label)} (hwf : ∀ st ∈ program, st.WellFormed)
    {table : BindingTable} (hfault : (bindProgram depth program table).fault = none)
    (hp : p.IsOf program) :
    ∃ depth' s, Visits depth program table (p.visit depth') s ∧
      s.scopes = p.context.map OpenScope.declared := by
  obtain ⟨root, hroot, hreaches⟩ := hp
  obtain ⟨s', hran⟩ : ∃ s', program.forM (statement depth ⟨.outside, .outside⟩) ⟨[], [], table⟩ =
      .ok () s' := by
    unfold bindProgram at hfault
    split at hfault
    · exact ⟨_, ‹_›⟩
    · cases hfault
  obtain ⟨earlier, st, later, s₁, hsplit, hearlier, hvisit, hthrough⟩ :=
    exists_of_mem_spotsAll hroot hwf rfl hran
  obtain ⟨d, s₂, hcomes, hthrough'⟩ := hthrough.reaches hreaches
  exact ⟨d, s₂, ⟨earlier, st, later, s₁, hsplit, hearlier, hvisit ▸ hcomes⟩, hthrough'.scopes⟩

end Binder
end LoxLang
