import LoxLang.Proofs.Computation
import LoxLang.Proofs.Scope.Bindings

/-! # The binding pass finds what there is to find

The binding pass over a well-formed program adds to the table the bindings of the references that
`visit` lists, and to the errors those that `visit` lists, in the same order.  If the program nests
too deep for it, the table holds the bindings of some first part of that list. -/

namespace LoxLang

namespace Context

@[simp] theorem mark_mark (name : String) (d d' : Bool) (context : Context) :
    (context.mark name d).mark name d' = context.mark name d' := by
  cases context <;> simp [mark, OpenScope.mark]

@[simp] theorem tail_mark (name : String) (d : Bool) (context : Context) :
    (context.mark name d).tail = context.tail := by
  cases context <;> rfl

@[simp] theorem tail_introduceAll (names : List Token) (context : Context) :
    (context.introduceAll names).tail = context.tail := by
  induction names generalizing context with
  | nil => rfl
  | cons name names ih => exact (ih _).trans (tail_mark ..)

theorem introduceAll_append (names names' : List Token) (context : Context) :
    context.introduceAll (names ++ names') = (context.introduceAll names).introduceAll names' :=
  List.foldl_append

end Context

namespace BindingTable

/-- Records bindings in their order. -/
def recordAll (bs : List Binding) (t : BindingTable) : BindingTable :=
  bs.foldl (fun t b => t.record b) t

theorem recordAll_append (bs bs' : List Binding) (t : BindingTable) :
    t.recordAll (bs ++ bs') = (t.recordAll bs).recordAll bs' := List.foldl_append

end BindingTable

/-- What the table keeps of a reference, if it means a local variable. -/
def Use.binding? (u : Use Label) : Option Binding :=
  u.hops?.map fun hops =>
    ⟨u.ref.label, u.kind, u.ref.name, hops, u.around.function = .outside⟩

namespace Finding

/-- What the table keeps of a finding. -/
def binding? (f : Finding Label) : Option Binding := f.use?.bind Use.binding?

end Finding

namespace Binder

/-- From a state the pass has come to another, with other open scopes and with findings. -/
structure State.Goes (s : State) (context : Context) (fs : List (Finding Label)) (s' : State) :
    Prop where
  scopes_eq : s'.scopes = context.map OpenScope.declared
  errors_eq : s'.errors = s.errors ++ fs.filterMap Finding.error?
  table_eq : s'.table = s.table.recordAll (fs.filterMap Finding.binding?)

/-- A step of the pass, begun with some open scopes, finds what it is to find and ends with other
open scopes.  It stops for nothing but its limit of nesting. -/
def Finds (x : Pass Unit) (context : Context) (fs : List (Finding Label))
    (context' : Context) : Prop :=
  ∀ s : State, s.scopes = context.map OpenScope.declared →
    match x s with
    | .ok _ s' => s.Goes context' fs s'
    | .error f s' => f = .tooDeep ∧ ∃ gs, gs <+: fs ∧
        s'.table = s.table.recordAll (gs.filterMap Finding.binding?)

section
variable {context context' context'' : Context} {fs gs : List (Finding Label)} {x y : Pass Unit}

theorem State.Goes.trans {s s' s'' : State} (h : s.Goes context fs s')
    (h' : s'.Goes context' gs s'') : s.Goes context' (fs ++ gs) s'' where
  scopes_eq := h'.scopes_eq
  errors_eq := by rw [h'.errors_eq, h.errors_eq, List.filterMap_append, List.append_assoc]
  table_eq := by
    rw [h'.table_eq, h.table_eq, List.filterMap_append, BindingTable.recordAll_append]

theorem finds_pure (context : Context) : Finds (pure ()) context [] context :=
  fun _ hs => ⟨hs, (List.append_nil _).symm, rfl⟩

theorem finds_tooDeep : Finds (throw .tooDeep) context fs context' :=
  fun _ _ => ⟨rfl, [], List.nil_prefix, rfl⟩

theorem Finds.bind (hx : Finds x context fs context') (hy : Finds y context' gs context'') :
    Finds (do x; y) context (fs ++ gs) context'' := by
  intro s hs
  have hx := hx s hs
  rw [EStateM.bind_apply]
  split at hx
  · rename_i s' hs'
    rw [hs']
    have hy := hy s' hx.scopes_eq
    show match y s' with | .ok _ _ => _ | .error _ _ => _
    split at hy
    · exact hx.trans hy
    · obtain ⟨hf, gs', ⟨rest, rfl⟩, htable⟩ := hy
      refine ⟨hf, fs ++ gs', ⟨rest, by simp⟩, ?_⟩
      rw [htable, hx.table_eq, List.filterMap_append, BindingTable.recordAll_append]
  · rename_i h
    rw [h]
    obtain ⟨hf, gs', hprefix, htable⟩ := hx
    exact ⟨hf, gs', hprefix.trans (List.prefix_append ..), htable⟩

/-- Steps that leave the open scopes alone, one for each member of a list. -/
theorem Finds.forM {α : Type} {run : α → Pass Unit} {found : α → List (Finding Label)}
    {as : List α} (h : ∀ a ∈ as, Finds (run a) context (found a) context) :
    Finds (as.forM run) context (as.flatMap found) context := by
  induction as with
  | nil => exact finds_pure context
  | cons a as ih =>
    rw [List.flatMap_cons]
    exact (h a List.mem_cons_self).bind (ih fun b hb => h b (List.mem_cons_of_mem a hb))

/-- What is done in a new scope leaves the scopes around it as they are. -/
theorem Finds.inScope {scope : OpenScope} (hscope : scope.declared = Bindings.empty)
    (htail : context'.tail = context) (hx : Finds x (scope :: context) fs context') :
    Finds (inScope x) context fs context := by
  intro s hs
  have hx := hx { s with scopes := Bindings.empty :: s.scopes } (by simp [hs, hscope])
  unfold Binder.inScope
  rw [EStateM.bind_ok (EStateM.modify_apply _ s), EStateM.bind_apply]
  split at hx
  · rename_i s' h
    rw [h]
    refine ⟨?_, hx.errors_eq, hx.table_eq⟩
    show s'.scopes.tail = _
    rw [hx.scopes_eq, ← htail, List.map_tail]
  · rename_i h
    rw [h]
    exact hx

end

/-! ## The single steps -/

theorem finds_report (context : Context) (fault : ScopeFault) (place : Token) :
    Finds (report fault place) context [.error ⟨fault, place⟩] context :=
  fun _ hs => ⟨hs, rfl, rfl⟩

theorem finds_mark (context : Context) (name : String) (defined : Bool) :
    Finds (mark name defined) context [] (context.mark name defined) := by
  intro s hs
  cases context with
  | nil =>
    simp only [mark, EStateM.modify_apply]
    rw [hs]
    exact ⟨hs, (List.append_nil _).symm, rfl⟩
  | cons scope outer =>
    simp only [mark, EStateM.modify_apply]
    rw [hs]
    exact ⟨rfl, (List.append_nil _).symm, rfl⟩

theorem finds_declare (context : Context) (name : Token) :
    Finds (declare name) context (context.redeclared name) (context.mark name.lexeme false) := by
  intro s hs
  have hc : s.scopes.head?.any (fun scope => scope.contains name.lexeme) =
      context.head?.any (fun scope => scope.has name.lexeme) := by
    rw [hs]
    cases context <;> rfl
  unfold declare Context.redeclared
  rw [EStateM.bind_ok (EStateM.get_apply s), hc]
  have hmark := finds_mark context name.lexeme false
  cases context.head?.any (fun scope => scope.has name.lexeme) with
  | true => exact (finds_report context .alreadyDeclared name).bind hmark s hs
  | false => exact (finds_pure context).bind hmark s hs

theorem finds_introduce (context : Context) (name : Token) :
    Finds (introduce name) context (context.redeclared name) (context.introduce name) := by
  have h := (finds_declare context name).bind (finds_mark _ name.lexeme true)
  rwa [List.append_nil, Context.mark_mark] at h

theorem finds_introduceAll (context : Context) (names : List Token) :
    Finds (names.forM introduce) context (context.redeclaredAll names)
      (context.introduceAll names) := by
  induction names generalizing context with
  | nil => exact finds_pure context
  | cons name names ih => exact (finds_introduce context name).bind (ih _)

theorem finds_bind (context : Context) (around : Surroundings) (kind : RefUse)
    (ref : Ref Label) :
    Finds (bind around kind ref) context [.use ⟨ref, kind, around, context⟩] context := by
  intro s hs
  have hhops : s.scopes.findIdx? (fun scope => scope.contains ref.name.lexeme) =
      context.hops? ref.name.lexeme := by
    rw [hs, Context.hops?, List.findIdx?_map]
    rfl
  simp only [bind, EStateM.modify_apply, hhops]
  cases h : context.hops? ref.name.lexeme with
  | none =>
    have hnone : Use.binding? ⟨ref, kind, around, context⟩ = none := by
      simp [Use.binding?, Use.hops?, h]
    exact ⟨hs, (List.append_nil _).symm, by simp [Finding.binding?, Finding.use?, hnone,
      BindingTable.recordAll]⟩
  | some hops =>
    have hsome : Use.binding? ⟨ref, kind, around, context⟩ =
        some ⟨ref.label, kind, ref.name, hops, around.function = .outside⟩ := by
      simp [Use.binding?, Use.hops?, h]
    exact ⟨hs, (List.append_nil _).symm, by simp [Finding.binding?, Finding.use?, hsome,
      BindingTable.recordAll]⟩

theorem finds_readName (context : Context) (around : Surroundings) (ref : Ref Label) :
    Finds (readName around ref) context (Use.findings ⟨ref, .read, around, context⟩) context := by
  intro s hs
  have hc : s.scopes.head?.any (fun scope => scope.get? ref.name.lexeme == some false) =
      context.isPending ref.name.lexeme := by
    rw [hs]
    cases context <;> rfl
  have hbind := finds_bind context around .read ref
  unfold readName Use.findings Use.errors Use.isPending
  rw [EStateM.bind_ok (EStateM.get_apply s), hc]
  cases hp : context.isPending ref.name.lexeme with
  | true => simpa [hp] using (finds_report context .readInOwnInitializer ref.name).bind hbind s hs
  | false => simpa [hp] using (finds_pure context).bind hbind s hs

/-! ## Expressions and statements -/

variable {around : Surroundings}

theorem finds_expression {e : Expr Label} (he : e.Known) (depth : Nat) (context : Context) :
    Finds (expression around depth e) context (e.visit around context) context := by
  induction depth generalizing e with
  | zero => exact finds_tooDeep
  | succ depth ih =>
    cases he with
    | literal => exact finds_pure context
    | nameRef ref =>
      rw [Expr.visit_nameRef]
      exact finds_readName context around ref
    | @assign ref _ hvalue =>
      rw [Expr.visit_assign]
      exact (ih hvalue).bind (finds_bind context around .assign ref)
    | unary h | group h | get h => exact ih h
    | binary hleft hright =>
      rw [Expr.visit_binary]
      exact (ih hleft).bind (ih hright)
    | logical hleft hright =>
      rw [Expr.visit_logical]
      exact (ih hleft).bind (ih hright)
    | call hcallee harguments =>
      rw [Expr.visit_call]
      exact (ih hcallee).bind (Finds.forM fun a ha => ih (harguments a ha))
    | set hobject hvalue =>
      rw [Expr.visit_set]
      exact (ih hvalue).bind (ih hobject)
    | thisRef ref =>
      rw [Expr.visit_thisRef]
      unfold expression Use.findings Use.errors
      cases h : around.classBody with
      | outside => exact finds_report context .thisOutsideClass ref.name
      | plain | derived => exact finds_bind context around .this ref
    | superRef ref =>
      have hbind := finds_bind context around .super ref
      rw [Expr.visit_superRef]
      unfold expression Use.findings Use.errors
      cases h : around.classBody with
      | outside => exact (finds_report context .superOutsideClass ref.name).bind hbind
      | plain => exact (finds_report context .superWithoutSuperclass ref.name).bind hbind
      | derived => exact (finds_pure context).bind hbind

/-- Statements, one after another. -/
theorem finds_all {body : List (Stmt Label)} {run : Stmt Label → Pass Unit} (context : Context)
    (h : ∀ s ∈ body, ∀ context,
      Finds (run s) context (s.visit around context) (context.introduceAll s.declares)) :
    Finds (body.forM run) context (Stmt.visitAll around context body)
      (context.introduceAll (Stmt.declaresAll body)) := by
  induction body generalizing context with
  | nil => exact finds_pure context
  | cons s ss ih =>
    rw [Stmt.declaresAll, List.flatMap_cons, Context.introduceAll_append]
    exact (h s List.mem_cons_self context).bind
      (ih _ fun s' hs' => h s' (List.mem_cons_of_mem s hs'))

theorem finds_function {f : Function Label} {run : Surroundings → Stmt Label → Pass Unit}
    (kind : FunctionContext) (context : Context)
    (h : ∀ s ∈ f.body, ∀ around context,
      Finds (run around s) context (s.visit around context) (context.introduceAll s.declares)) :
    Finds (function around kind run f) context (Function.visit around kind context f)
      context := by
  obtain ⟨name, params, body⟩ := f
  have hparams := finds_introduceAll
    (.fresh (FunctionOf.scopeNames ⟨name, params, body⟩) :: context) params
  refine Finds.inScope rfl ?_ (hparams.bind (finds_all _ fun s hs context => h s hs _ context))
  rw [Context.tail_introduceAll, Context.tail_introduceAll, List.tail_cons]

theorem finds_methods {ms : List (Function Label)} {run : Surroundings → Stmt Label → Pass Unit}
    (context : Context)
    (h : ∀ m ∈ ms, ∀ s ∈ m.body, ∀ around context,
      Finds (run around s) context (s.visit around context) (context.introduceAll s.declares)) :
    Finds (methods around run ms) context
      (Function.visitMethods around (.ofWord "this" :: context) ms) context := by
  have hms : Finds
      (ms.forM fun m => function around (if m.isInitializer then .initializer else .method) run m)
      (.ofWord "this" :: context) (Function.visitMethods around (.ofWord "this" :: context) ms)
      (.ofWord "this" :: context) := by
    induction ms with
    | nil => exact finds_pure _
    | cons m ms ih =>
      exact (finds_function _ _ (h m List.mem_cons_self)).bind
        (ih fun m' hm' => h m' (List.mem_cons_of_mem m hm'))
  have hmark : Finds (mark "this" true) (⟨Bindings.empty, []⟩ :: context) [] _ :=
    finds_mark _ "this" true
  exact Finds.inScope rfl rfl (hmark.bind hms)

theorem finds_returnFrom {keyword : Token} {value : Option (Expr Label)}
    (hvalue : ∀ e ∈ value, e.Known) (depth : Nat) (context : Context) :
    Finds (statement (depth + 1) around (.returnFrom keyword value)) context
      ((Stmt.returnFrom keyword value).visit around context) context := by
  have hrest : Finds (value.forM fun e => do
      if around.function = .initializer then report .valueFromInitializer keyword
      expression around depth e) context
      ((if value.isSome ∧ around.function = .initializer then
        [.error ⟨.valueFromInitializer, keyword⟩] else []) ++
          Expr.visitOption around context value) context := by
    cases value with
    | none => exact finds_pure context
    | some e =>
      have he : Finds (expression around depth e) context (e.visit around context) context :=
        finds_expression (hvalue e rfl) depth context
      by_cases h : around.function = .initializer
      · simpa [h, Expr.visitOption] using
          (finds_report context .valueFromInitializer keyword).bind he
      · simpa [h, Expr.visitOption] using (finds_pure context).bind he
  rw [Stmt.visit, returnErrors, List.append_assoc]
  by_cases h : around.function = .outside
  · simpa [statement, h] using (finds_report context .returnOutsideFunction keyword).bind hrest
  · simpa [statement, h] using (finds_pure context).bind hrest

theorem finds_subclass {name : Token} {parent : Ref Label} {ms : List (Function Label)}
    {depth : Nat} (context : Context)
    (h : ∀ m ∈ ms, ∀ s ∈ m.body, ∀ around context,
      Finds (statement depth around s) context (s.visit around context)
        (context.introduceAll s.declares)) :
    Finds (statement (depth + 1) around (.classOf name (some parent) ms)) context
      ((Stmt.classOf name (some parent) ms).visit around context) (context.introduce name) := by
  have hname := finds_introduce context name
  have hparent := finds_readName (context.introduce name) around parent
  have hms : Finds (methods ⟨around.function, .derived⟩ (statement depth) ms) _ _ _ :=
    finds_methods (.ofWord "super" :: context.introduce name) h
  have hmark : Finds (mark "super" true) (⟨Bindings.empty, []⟩ :: context.introduce name) [] _ :=
    finds_mark _ "super" true
  have hrest := hparent.bind (Finds.inScope rfl rfl (hmark.bind hms))
  rw [Stmt.visit, List.append_assoc, List.append_assoc]
  by_cases hself : parent.name.lexeme = name.lexeme
  · simpa [statement, hself] using
      hname.bind ((finds_report _ .inheritsFromItself parent.name).bind hrest)
  · simpa [statement, hself] using hname.bind ((finds_pure _).bind hrest)

theorem finds_statement {s : Stmt Label} (hs : s.Known) (depth : Nat)
    (around : Surroundings) (context : Context) :
    Finds (statement depth around s) context (s.visit around context)
      (context.introduceAll s.declares) := by
  induction depth generalizing s around context with
  | zero => exact finds_tooDeep
  | succ depth ih =>
    cases hs with
    | expression hvalue | print hvalue => exact finds_expression hvalue depth context
    | @var name initial hinitial =>
      cases initial with
      | none =>
        have h := (finds_declare context name).bind (finds_mark _ name.lexeme true)
        rw [Context.mark_mark] at h
        exact h
      | some e =>
        -- the initial value is bound between the declaration of the name and its definition
        have he : Finds (expression around depth e) _ _ _ :=
          finds_expression (hinitial e rfl) depth (context.mark name.lexeme false)
        have h := (finds_declare context name).bind (he.bind (finds_mark _ name.lexeme true))
        rw [Context.mark_mark, List.append_nil] at h
        exact h
    | block hbody =>
      refine Finds.inScope rfl ?_ (finds_all _ fun s hs context => ih (hbody s hs) around context)
      rw [Context.tail_introduceAll, List.tail_cons]
    | ifThen hcondition hbody | whileLoop hcondition hbody =>
      exact (finds_expression hcondition depth context).bind (ih hbody around context)
    | ifElse hcondition hbody hother =>
      -- no scope is left between the branches: the second is bound behind the names of the first
      rw [Stmt.declares, Context.introduceAll_append, Stmt.visit, List.append_assoc]
      exact (finds_expression hcondition depth context).bind
        ((ih hbody around context).bind (ih hother around _))
    | @function f hbody =>
      exact (finds_introduce context f.name).bind
        (finds_function _ _ fun s hs around context => ih (hbody s hs) around context)
    | returnFrom hvalue => exact finds_returnFrom hvalue depth context
    | @classOf name superclass methods hbodies =>
      have hmethods := fun m hm s hs => ih (hbodies m hm s hs)
      cases superclass with
      | none => exact (finds_introduce context name).bind (finds_methods _ hmethods)
      | some parent => exact finds_subclass context hmethods

end Binder

/-- **The binding pass finds what there is to find**: the errors of the program and the bindings
of its references, in their order, if its forms are known.  If it stops, then at its limit of
nesting, with the bindings of some first part of the findings. -/
theorem bindProgram_spec {program : List (Stmt Label)} (h : ∀ s ∈ program, s.Known)
    (depth : Nat) (table : BindingTable) :
    let found := bindProgram depth program table
    ∃ gs, gs <+: visitProgram program ∧
      found.table = table.recordAll (gs.filterMap Finding.binding?) ∧
      match found.fault with
      | none => gs = visitProgram program ∧
          found.errors = (visitProgram program).filterMap Finding.error?
      | some f => f = .tooDeep := by
  have hfinds := Binder.finds_all []
    (fun s hs context => Binder.finds_statement (h s hs) depth ⟨.outside, .outside⟩ context)
    ⟨[], [], table⟩ rfl
  unfold bindProgram
  split at hfinds
  · rename_i heq
    rw [heq]
    exact ⟨_, List.prefix_rfl, hfinds.table_eq, rfl, hfinds.errors_eq.trans (List.nil_append _)⟩
  · rename_i heq
    rw [heq]
    obtain ⟨hf, gs, hprefix, htable⟩ := hfinds
    exact ⟨gs, hprefix, htable, hf⟩

end LoxLang
