import LoxLang.Proofs.Machine.Marks

/-! # Running a program with changed names

A program is run by the hops in a table, and the same program with names changed in some local
scopes is run by the same table, on a machine that is alike.  Both runs take the same steps.  All
four parts of the evaluator are proved together, by induction on the levels of nesting that are left
(`agrees`). -/

namespace LoxLang

open Machine

/-- Two actions that began at some marks have ended alike. -/
abbrev EndsAlike {α β : Type} (r : Renaming) (marks : Marks) (P : Marks → α → β → Prop) :
    EStateM.Result Halt Machine α → EStateM.Result Halt Machine β → Prop :=
  Abreast r.likeness marks P

/-! ## The parts of the evaluator -/

/-- Evaluations with `depth` levels left agree. -/
def EvaluatesAlike (r : Renaming) (S : Setting) (depth : Nat) : Prop :=
  ∀ {marks : Marks} {inside : List Bool} {env : Env} {e : Expr Label}, e.WellFormed →
    Marked marks inside env → Agree r.likeness marks (Value.Alike r.likeness)
      (evaluate S depth env e) (evaluate S depth env (e.mapNames (r.reference inside)))

/-- Calls with `depth` levels left agree. -/
def CallsAlike (r : Renaming) (S : Setting) (depth : Nat) : Prop :=
  ∀ {marks : Marks} {callee callee' : Callee} {as as' : List Value},
    callee.Alike r.likeness marks callee' → List.Forall₂ (Value.Alike r.likeness marks) as as' →
      Agree r.likeness marks (Value.Alike r.likeness) (call S depth callee as)
        (call S depth callee' as')

/-- Executions of functions with `depth` levels left agree. -/
def InvokesAlike (r : Renaming) (S : Setting) (depth : Nat) : Prop :=
  ∀ {marks : Marks} {f f' : Closure} {as as' : List Value}, f.Renamed r [] marks f' →
    List.Forall₂ (Value.Alike r.likeness marks) as as' →
      Agree r.likeness marks (Value.Alike r.likeness) (invoke S depth f as) (invoke S depth f' as')

/-- Executions of statements with `depth` levels left agree. -/
def ExecutesAlike (r : Renaming) (S : Setting) (depth : Nat) : Prop :=
  ∀ {marks : Marks} {inside : List Bool} {env : Env} {s s' : Stmt Label}, s.WellFormed →
    Stmt.Renamed r inside s s' → Marked marks inside env →
      Agree r.likeness marks (Completion.Alike r.likeness) (execute S depth env s)
        (execute S depth env s')

section
variable {r : Renaming} (hr : r.Lawful) {clock : Nat → Float} {rounds depth : Nat}

include hr in
theorem evaluatesAlike_succ (heval : EvaluatesAlike r ⟨.byHops r.table, clock, rounds⟩ depth)
    (hcall : CallsAlike r ⟨.byHops r.table, clock, rounds⟩ depth) :
    EvaluatesAlike r ⟨.byHops r.table, clock, rounds⟩ (depth + 1) := by
  intro marks inside env e he henv
  cases he with
  | literal value => exact agree_value (.datum value)
  | @nameRef ref => exact agree_read hr henv ref
  | @thisRef ref hthis =>
    have hread := agree_read hr henv ref
    rwa [hr.reference_this hthis] at hread
  | @assign ref value _ hvalue =>
    refine (heval hvalue henv).bind fun marks₁ v v' hmarks hv => ?_
    exact (agree_assign hr (henv.mono hmarks) ref hv).bind
      fun marks₂ _ _ hmarks' _ => agree_value (hv.mono hmarks')
  | unary hoperand => exact agree_unary (heval hoperand henv) _
  | binary hleft hright => exact agree_binary (heval hleft henv) (heval hright henv) _
  | logical hleft hright => exact agree_logical (heval hleft henv) (heval hright henv) _
  | group hinner => exact heval hinner henv
  | @call callee paren arguments hcallee harguments =>
    rw [Expr.mapNames, Expr.mapNamesAll_eq]
    refine agree_call (heval hcallee henv) (agree_mapM ?_ Value.Alike.mono)
      (fun marks₁ c c' as as' _ hc has => hcall hc has) paren
    rw [List.forall₂_map_right_iff]
    exact List.forall₂_same.mpr fun a ha => heval (harguments a ha) henv
  | get hobject => exact agree_getProperty (takes_likeness r) (heval hobject henv) _
  | set hobject hvalue => exact agree_setProperty (heval hobject henv) (heval hvalue henv) _
  | @superRef ref method =>
    exact agree_superMethod (takes_likeness r) (agree_parent hr henv ref) method

theorem callsAlike_succ (hinvoke : InvokesAlike r ⟨.byHops r.table, clock, rounds⟩ depth) :
    CallsAlike r ⟨.byHops r.table, clock, rounds⟩ (depth + 1) := by
  intro marks callee callee' as as' hcallee has
  cases hcallee with
  | clock => exact r.ofCode.agree_readClock rfl
  | function hf => exact hinvoke hf has
  | classOf hc =>
    exact agree_makeObject (takes_likeness r)
      (fun marks' f f' hmarks hf => hinvoke hf (has.imp fun _ _ h => h.mono hmarks)) hc

include hr in
theorem invokesAlike_succ (hexec : ExecutesAlike r ⟨.byHops r.table, clock, rounds⟩ depth) :
    InvokesAlike r ⟨.byHops r.table, clock, rounds⟩ (depth + 1) := by
  intro marks f f' as as' hf has
  obtain ⟨inside, hmarked, hdeclaration⟩ := hf.declaration
  have hwf := hf.wellFormed
  unfold invoke invokeOuter
  rw [hf.env]
  generalize f.declaration = g, f'.declaration = g' at hwf hdeclaration ⊢
  cases hdeclaration with
  | @intro _ here name params body body' hbody =>
    -- the scopes around the body are those of the declaration, not those of the call
    have hparams : List.Forall₂ (fun p p' : Token => p'.lexeme = r.name here p.lexeme) params
        (params.map (r.token here)) :=
      List.forall₂_map_right_iff.mpr (List.forall₂_same.mpr fun _ _ => rfl)
    refine (agree_matchArguments _ hparams has).bind fun marks₁ vars vars' hmarks hvars => ?_
    have hscope := Bindings.Matches.ofList (hr.name_injective here) hvars
    refine (agree_enter here hscope (hmarked.mono hmarks)).bind ?_
    rintro marks₂ _ env hmarks' ⟨rfl, henv⟩
    have hbody : List.Forall₂ (fun s s' => s.WellFormed ∧ Stmt.Renamed r (here :: inside) s s')
        body body' := Stmt.RenamedAll.forall₂ hbody hwf.body
    refine Agree.bind (P := Completion.Alike r.likeness)
      (agree_runAll (hbody.imp fun s s' hs => hexec hs.1 hs.2 henv)) fun marks₃ c c' hmarks'' hc => ?_
    have hf := ((hf.mono hmarks).mono hmarks').mono hmarks''
    exact agree_resultOf hf.isInitializer (agree_thisOf hr hf) hc

include hr in
theorem executesAlike_succ (heval : EvaluatesAlike r ⟨.byHops r.table, clock, rounds⟩ depth)
    (hexec : ExecutesAlike r ⟨.byHops r.table, clock, rounds⟩ depth) :
    ExecutesAlike r ⟨.byHops r.table, clock, rounds⟩ (depth + 1) := by
  intro marks inside env s s' hwf hs henv
  cases hs with
  | expression value =>
    cases hwf with
    | expression hvalue => exact (heval hvalue henv).done
  | print value =>
    cases hwf with
    | print hvalue => exact agree_printed (heval hvalue henv)
  | var name initial =>
    cases hwf with
    | var _ hinitial =>
      cases initial with
      | none => exact (agree_define hr henv name.lexeme Value.alike_nil).done
      | some e =>
        refine (heval (hinitial e rfl) henv).bind fun _ v v' hmarks hv => ?_
        exact (agree_define hr (henv.mono hmarks) name.lexeme hv).done
  | block here hbody =>
    cases hwf with
    | block hbodywf =>
      -- the scope of the block says by `here` whether names change in it
      refine (agree_enter here (Bindings.matches_empty _ _) henv).bind ?_
      rintro marks₁ _ inner hmarks ⟨rfl, hinner⟩
      exact agree_runAll ((hbody.forall₂ hbodywf).imp fun s s' hs => hexec hs.1 hs.2 hinner)
  | ifThen condition hbody =>
    cases hwf with
    | ifThen hcondition hbodywf =>
      exact agree_branch (heval hcondition henv) (hexec hbodywf hbody henv)
        (agree_pure fun _ _ => .normal)
  | ifElse condition hbody hother =>
    cases hwf with
    | ifElse hcondition hbodywf _ hotherwf =>
      exact agree_branch (heval hcondition henv) (hexec hbodywf hbody henv)
        (hexec hotherwf hother henv)
  | whileLoop condition hbody =>
    cases hwf with
    | whileLoop hcondition hbodywf =>
      exact agree_runWhile (agree_test (heval hcondition henv)) (hexec hbodywf hbody henv) rounds
  | @function _ f f' hname hf =>
    cases hwf with
    | function _ hparams hbodies =>
      refine agree_freshId.bind ?_
      rintro marks₁ _ id hmarks rfl
      -- the function keeps its name, so the variable that holds it has the same name in both
      have hfunction : Value.Alike r.likeness marks₁ (.function ⟨id, f, env, false⟩)
          (.function ⟨id, f', env, false⟩) :=
        .function ⟨rfl, rfl, rfl, ⟨hparams, hbodies⟩, inside, henv.mono hmarks, hf⟩
      have hdefine := agree_define hr (henv.mono hmarks) f.name.lexeme hfunction
      rw [hname] at hdefine
      rw [hf.name_eq]
      exact hdefine.done
  | returnFrom keyword value =>
    cases hwf with
    | returnFrom hvalue =>
      cases value with
      | none => exact agree_pure fun _ _ => .returned Value.alike_nil
      | some e => exact agree_returned (heval (hvalue e rfl) henv)
  | classOf hname hmethods => exact (agree_makeClass hr henv hname .none hwf.methods hmethods).done
  | subclassOf parent hname hmethods =>
    have hmethodswf := hwf.methods
    cases hwf with
    | classOf _ hsuperclass =>
      refine (heval (.nameRef (hsuperclass parent rfl)) henv).bind fun marks₁ v v' hmarks hv => ?_
      cases hv with
      | classOf hc =>
        exact (agree_makeClass hr (henv.mono hmarks) hname (.some hc) hmethodswf hmethods).done
      | _ => exact agree_fail _ (r.line_reference inside parent)
  | unknown form => exact agree_fault _

include hr in
/-- **All four parts agree**, however many levels are left. -/
theorem agrees (clock : Nat → Float) (rounds depth : Nat) :
    EvaluatesAlike r ⟨.byHops r.table, clock, rounds⟩ depth ∧
      CallsAlike r ⟨.byHops r.table, clock, rounds⟩ depth ∧
      InvokesAlike r ⟨.byHops r.table, clock, rounds⟩ depth ∧
      ExecutesAlike r ⟨.byHops r.table, clock, rounds⟩ depth := by
  induction depth with
  | zero =>
    -- no level is left: both runs stop there
    exact ⟨fun _ _ => agree_fault .tooDeep, fun _ _ => agree_fault .tooDeep,
      fun _ _ => agree_fault .tooDeep, fun _ _ _ => agree_fault .tooDeep⟩
  | succ depth ih =>
    obtain ⟨heval, hcall, hinvoke, hexec⟩ := ih
    exact ⟨evaluatesAlike_succ hr heval hcall, callsAlike_succ hinvoke,
      invokesAlike_succ hr hexec, executesAlike_succ hr heval hexec⟩

include hr in
/-- **A program with changed names runs like the program itself.** -/
theorem endsAlike_runProgram (clock : Nat → Float) (rounds depth : Nat) {marks : Marks}
    {m m' : Machine} (hm : m.Alike r.likeness marks m') {program program' : List (Stmt Label)}
    (hwf : ∀ s ∈ program, s.WellFormed) (hprogram : Stmt.RenamedAll r [] program program') :
    EndsAlike r marks (fun _ _ _ => True)
      (runProgram ⟨.byHops r.table, clock, rounds⟩ depth program m)
      (runProgram ⟨.byHops r.table, clock, rounds⟩ depth program' m') := by
  have hstore : Store.Renamed r (Value.Alike r.likeness) marks m.store m'.store := hm.store
  refine agree_forM ((hprogram.forall₂ hwf).imp fun s s' hs => ?_) marks m m' List.prefix_rfl hm
  exact ((agrees hr clock rounds depth).2.2.2 hs.1 hs.2 (.globals hstore.globals)).bind
    fun _ _ _ _ _ => agree_pure fun _ _ => trivial

end

/-! ## Machines before the run -/

/-- The scopes of an environment that fits a plan are planned. -/
theorem Shape.lt_of_mem {W : Plan} {context : Context} {env : Env} (h : Shape W context env)
    (hpos : 0 < W.length) : ∀ id ∈ env, id < W.length := by
  induction h with
  | globals => simpa [globalEnv] using hpos
  | scope _ hplan _ ih =>
    exact List.forall_mem_cons.mpr ⟨(List.getElem?_eq_some_iff.mp hplan).1, ih⟩

section
variable (r : Renaming) {Q : Demand Label} {W : Plan} {m : Machine}

/-- Where no scope is marked, names change in none of those around a place. -/
theorem Shape.unmarked {context : Context} {env : Env} (h : Shape W context env)
    (hpos : 0 < W.length) : Marked (List.replicate W.length false) [] env := by
  intro i id hid
  have hlt := h.lt_of_mem hpos id (List.mem_of_getElem? hid)
  rw [List.getElem?_replicate, if_pos hlt, List.getD_nil]

theorem Closure.renamed_self {marks : Marks} {more : List Bool} {f : Closure}
    (hmore : ∀ here ∈ more, here = false) (henv : Marked marks [] f.env)
    (hwf : f.declaration.WellFormed) : f.Renamed r more marks f := by
  refine ⟨rfl, rfl, rfl, hwf, [], henv, Function.renamed_self fun s _ => Stmt.renamed_self ?_ s⟩
  simpa using hmore

theorem ClassValue.Sound.alike_self {store : Store Value} {c : ClassValue} (h : c.Sound Q W store)
    (hpos : 0 < W.length) : c.Alike r.likeness (List.replicate W.length false) c := by
  have hlevel : ∀ level ∈ c.lineage, level.Alike r.likeness (List.replicate W.length false) level := by
    refine fun level hlevel => ⟨rfl, rfl, Bindings.matches_self fun name f hf => ?_⟩
    obtain ⟨_, _, _, hat⟩ := h level hlevel name f hf
    exact Closure.renamed_self r (by simp) (hat.shape.unmarked hpos) hat.ready.wellFormed
  obtain ⟨hown, habove⟩ := List.forall_mem_cons.mp hlevel
  exact ⟨hown, List.forall₂_same.mpr habove⟩

theorem Value.Sound.alike_self {store : Store Value} {v : Value} (h : v.Sound Q W store)
    (hpos : 0 < W.length) : v.Alike r.likeness (List.replicate W.length false) v := by
  cases v with
  | datum d => exact .datum d
  | clock => exact .clock
  | function f =>
    obtain ⟨_, _, _, hat⟩ := h
    exact .function
      (Closure.renamed_self r (by simp) (hat.stands.shape.unmarked hpos) hat.ready.wellFormed)
  | classOf c => exact .classOf (ClassValue.Sound.alike_self r h hpos)
  | object id c => exact .object (A := r.likeness) rfl (ClassValue.Sound.alike_self r h hpos)

/-- **A machine in order is alike to itself**, with no scope marked. -/
theorem Machine.Sound.alike_self (hm : m.Sound Q W) :
    m.Alike r.likeness (List.replicate W.length false) m := by
  have hpos : 0 < W.length := hm.length ▸ hm.pos
  have hlength : (List.replicate W.length false).length = m.store.nextId :=
    List.length_replicate.trans hm.length
  refine ⟨⟨hlength, hlength, ?_, ?_⟩, ⟨rfl, ?_⟩, rfl, rfl, rfl⟩
  · rw [List.getElem?_replicate, if_pos hpos]
  · intro id here hhere
    obtain rfl : here = false := List.eq_of_mem_replicate (List.mem_of_getElem? hhere)
    exact Bindings.matches_self fun name v hv => (hm.values id name v hv).alike_self r hpos
  · exact fun id => Bindings.matches_self fun name v hv =>
      (hm.fields id name v hv).alike_self r hpos

end

end LoxLang
