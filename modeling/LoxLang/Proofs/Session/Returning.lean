import LoxLang.Proofs.Machine.Jumping
import LoxLang.Proofs.Session.Placed
import LoxLang.Proofs.Session.Renaming

/-! # Returns that jump, in a session

The runs of a session are compared to those in which a `return` is an exception that is caught where
a function is called (`runJumping`).  Nothing tells the two apart (`runsJumping_eq`). -/

namespace LoxLang
namespace Session

/-! ## Runs in which returns jump -/

/-- Executes a program in which returns jump, and reports the runtime error that ends it, if one
does.  Nothing comes of it if a `return` is not caught. -/
def executeJumping (config : Config) (program : List (Stmt Label)) (s : Session) :
    Option (Except Fault (Option RuntimeError) × Session) :=
  match Jumping.runProgram ⟨.byHops s.table, config.clock, config.rounds⟩ config.nesting program
      s.machine with
  | .ok _ m => some (.ok none, { s with machine := m })
  | .error (.halt (.error e)) m =>
    some (.ok (some e), { s with machine := m, log := s.log.report e.diagnostic })
  | .error (.halt (.fault f)) m => some (.error f, { s with machine := m })
  | .error (.returned _) _ => none

/-- Binds a program and executes it so, unless binding finds errors. -/
def bindAndJump (config : Config) (program : List (Stmt Label)) (s : Session) :
    Option (Option Fault × Session) :=
  match s.bind config program with
  | (_, some f, s) => some (some f, s)
  | (errors, none, s) =>
    let s := { s with log := s.log.reportAll (errors.map ScopeError.diagnostic) }
    if s.log.hasError then some (none, s)
    else (s.executeJumping config program).map fun ended =>
      match ended with
      | (.ok _, s) => (none, s)
      | (.error f, s) => (some f, s)

/-- Runs a source text in whose program returns jump. -/
def runJumping (config : Config) (source : String) (s : Session) :
    Option (Option Fault × Session) :=
  match { s with log := s.log.clear }.read config source with
  | (.error f, s) => some (some f, s)
  | (.ok none, s) => some (none, s)
  | (.ok (some program), s) =>
    let (program, s) := s.adopt program
    (s.bindAndJump config program).map fun ran => (ran.1, ran.2.dropTopLevel)

/-- Runs source texts so one after another. -/
def runsJumping : List (Config × String) → Session → Option (List (Option Fault) × Session)
  | [], s => some ([], s)
  | (config, source) :: rest, s =>
    (s.runJumping config source).bind fun ran =>
      (ran.2.runsJumping rest).map fun others => (ran.1 :: others.1, others.2)

section
variable {config : Config} {s : Session}

/-- Execution does the same if returns jump. -/
theorem executeJumping_eq {Q : Demand Label} {program : List (Stmt Label)}
    (hprogram : Stmt.ReadyAll Q ⟨.outside, .outside⟩ [] program) :
    s.executeJumping config program = some (s.execute config program) := by
  unfold executeJumping execute executeVia
  rw [Jumping.runProgram_eq hprogram]
  unfold Jumping.lift
  rcases Machine.runProgram ⟨.byHops s.table, config.clock, config.rounds⟩ config.nesting program
    s.machine with _ | ⟨_ | _, _⟩ <;> rfl

/-- A run does the same if returns jump. -/
theorem runJumping_eq (hs : s.Sound .nothing) (source : String) :
    s.runJumping config source = some (s.run config source) := by
  unfold runJumping run runVia
  rcases read_cases config source { s with log := s.log.clear } with
    hread | ⟨log, ⟨hread, _⟩ | ⟨program, hread, _, haccepted⟩⟩
  · rw [hread]
  · rw [hread]
  rw [hread]
  obtain ⟨_, _, _, hspec⟩ := bindProgram_spec
    (Stmt.known_of_wellFormed (Stmt.wellFormed_relabelAll (n := s.nextLabel) haccepted.wellFormed))
    config.nesting s.table
  simp only [adopt, bindAndJump, bindAndExecute, bind]
  cases hf : (bindProgram config.nesting (Stmt.relabelAll s.nextLabel program).1 s.table).fault with
  | some f => rfl
  | none =>
    rw [hf] at hspec
    obtain ⟨_, herrors⟩ := hspec
    dsimp only
    split
    · rfl
    · rename_i hclean
      have hnone := Log.eq_nil_of_hasError (fun d hd => ?_) (eq_false_of_ne_true hclean)
      · have hbinds : s.Binds config program :=
          ⟨hf, herrors.symm.trans (List.map_eq_nil_iff.mp hnone)⟩
        obtain ⟨_, _, _, _, hready⟩ := hs.prepared haccepted.wellFormed hbinds
        rw [executeJumping_eq hready]
        unfold execute
        generalize executeVia Access.byHops config _ _ = ended
        obtain ⟨_ | _, _⟩ := ended <;> rfl
      · obtain ⟨e, _, rfl⟩ := List.mem_map.mp hd
        rfl

theorem runsJumping_eq (hs : s.Sound .nothing) (sources : List (Config × String)) :
    s.runsJumping sources = some (s.runSources sources) := by
  induction sources generalizing s with
  | nil => rfl
  | cons first rest ih =>
    rw [runsJumping, runJumping_eq hs, Option.bind_some, ih (hs.run first.1 first.2).2]
    rfl

end

/-! ## Where returns end -/

section
variable {passesOn : Bool} {runs : List (Config × String)}

/-- A statement outside all blocks and functions completes normally, if it completes. -/
theorem Executes.normal {earlier : List (Config × String)} {config : Config}
    {program : List (Stmt Unit)} (h : Executes passesOn runs earlier config program)
    {before later : List (Stmt Label)} {st : Stmt Label}
    (hprogram : (Stmt.relabelAll (after passesOn earlier).nextLabel program).1 =
      before ++ st :: later) (S : Setting) (depth : Nat) {m m' : Machine} {c : Machine.Completion}
    (hran : Machine.execute S depth Machine.globalEnv st m = .ok c m') : c = .normal := by
  obtain ⟨Q, _, _, _, hready⟩ :=
    (sound_of_runSources (s := after passesOn earlier) rfl).prepared h.wellFormed h.binds
  have hexec : ExecutesNormally S Q depth := executesNormally S Q depth
  refine hexec.all rfl hready Machine.globalEnv st ?_ m c m' hran
  rw [hprogram]
  exact List.mem_append_right _ List.mem_cons_self

theorem Action.getAt_eq_ok {env : Env} {hops : Int} {name : String} {m m' : Machine} {v : Value}
    (h : Action.getAt env hops name m = .ok v m') : m' = m := by
  rw [Action.getAt, EStateM.bind_ok (EStateM.get_apply m)] at h
  cases hget : m.store.getAt env hops name with
  | error f =>
    rw [hget] at h
    cases h
  | ok value =>
    rw [hget] at h
    cases h
    rfl

/-- A call of a method that sets up objects yields the object that the method was taken from. -/
theorem Happens.initializer {S : Setting} {depth : Nat} {f : Closure} {values : List Value}
    {m : Machine} (h : Happens passesOn runs S (.invoke (depth + 1) f values) m)
    (hinitializer : f.isInitializer) :
    ∃ t rest id c, f.env = t :: rest ∧ m.store.get? t "this" = some (.object id c) ∧
      ∀ v m', Machine.invoke S (depth + 1) f values m = .ok v m' → v = .object id c := by
  obtain ⟨hplace, hleaves, _⟩ := h.placed
  cases hplace.task.1 with
  | function _ _ _ hkind => exact absurd (hinitializer.symm.trans hkind) Bool.noConfusion
  | @method _ _ t rest _ _ henv hthis =>
    obtain ⟨id, c, hthis⟩ := hthis.this
    refine ⟨t, rest, id, c, henv, hthis, fun v m' hran => ?_⟩
    -- what is in the scope of the method is still there at the end of the call
    obtain ⟨_, hkeeps, _⟩ := Leaves.of_ok hleaves hran
    rw [Machine.invoke] at hran
    obtain ⟨_, _, _, hran⟩ := EStateM.bind_eq_ok.mp hran
    obtain ⟨_, _, _, hran⟩ := EStateM.bind_eq_ok.mp hran
    obtain ⟨_, m₂, _, hran⟩ := EStateM.bind_eq_ok.mp hran
    unfold Machine.resultOf at hran
    rw [if_pos hinitializer, henv] at hran
    obtain rfl := Action.getAt_eq_ok hran
    have hfound : Action.getAt (t :: rest) ((0 : Nat) : Int) "this" m' = .ok (.object id c) m' :=
      Action.getAt_apply rfl (hkeeps.some (.inl rfl) hthis)
    cases hran.symm.trans hfound
    rfl

/-- A call of a class yields the new object. -/
theorem object_of_call {S : Setting} {depth : Nat} {c : ClassValue} {values : List Value}
    {m m' : Machine} {v : Value}
    (hran : Machine.call S (depth + 1) (.classOf c) values m = .ok v m') :
    v = .object m.objects.size c := by
  rw [Machine.call] at hran
  obtain ⟨object, m₁, hobject, hran⟩ := EStateM.bind_eq_ok.mp hran
  cases hobject
  cases hinitializer : c.initializer? with
  | none =>
    rw [hinitializer] at hran
    cases hran
    rfl
  | some method =>
    rw [hinitializer] at hran
    obtain ⟨_, _, _, hran⟩ := EStateM.bind_eq_ok.mp hran
    obtain ⟨_, _, _, hran⟩ := EStateM.bind_eq_ok.mp hran
    cases hran
    rfl

end

/-- **A return as a value is a return as a jump.**  Every session runs in the same way, with the same
faults, reports and prints and the same variables, functions, classes and objects after it, if a
`return` is an exception that is caught where a function is called: none is ever left uncaught.  The
statements outside all functions complete normally, if they complete.  A call of a method that sets
up objects yields the object that the method was taken from, whatever it returns and however it is
reached, and a call of a class yields the new object. -/
theorem returns_jump (passesOn : Bool) (runs : List (Config × String)) :
    (start passesOn).runsJumping runs = some ((start passesOn).runSources runs) ∧
    (∀ earlier config program, Executes passesOn runs earlier config program →
      ∀ before st later,
        (Stmt.relabelAll (after passesOn earlier).nextLabel program).1 = before ++ st :: later →
        ∀ m c m', Machine.execute ((after passesOn earlier).setting config program) config.nesting
          Machine.globalEnv st m = .ok c m' → c = .normal) ∧
    (∀ S depth f values m, Happens passesOn runs S (.invoke (depth + 1) f values) m →
      f.isInitializer → ∃ t rest id c, f.env = t :: rest ∧
        m.store.get? t "this" = some (.object id c) ∧
        ∀ v m', Machine.invoke S (depth + 1) f values m = .ok v m' → v = .object id c) ∧
    ∀ S depth c values m v m',
      Machine.call S (depth + 1) (.classOf c) values m = .ok v m' → v = .object m.objects.size c :=
  ⟨runsJumping_eq (sound_start _ passesOn) runs,
    fun _ _ _ h _ _ _ hprogram _ _ _ hran => h.normal hprogram _ _ hran,
    fun _ _ _ _ _ h hinitializer => h.initializer hinitializer,
    fun _ _ _ _ _ _ _ hran => object_of_call hran⟩

/-- A loop in a block in a function is left by a `return`; a method that sets up objects is called once
more. -/
def returningSource : String :=
  "fun f() \x7b while (true) \x7b if (true) return 1; \x7d \x7d print f(); " ++
    "class A \x7b init() \x7b return; \x7d \x7d A().init();"

theorem returns_jump_returning :
    (start true).runsJumping [(shortly, returningSource)] =
        some ((start true).runSources [(shortly, returningSource)]) ∧
      ((start true).runSources [(shortly, returningSource)]).2.machine.output = "1\n" ∧
      ∃ S depth f values m, Happens true [(shortly, returningSource)] S
          (.invoke (depth + 1) f values) m ∧ f.isInitializer ∧
        ∃ t rest id c, f.env = t :: rest ∧ m.store.get? t "this" = some (.object id c) ∧
          ∀ v m', Machine.invoke S (depth + 1) f values m = .ok v m' → v = .object id c := by
  obtain ⟨hsame, _, hinitializer, _⟩ := returns_jump true [(shortly, returningSource)]
  refine ⟨hsame, by decide +kernel, ?_⟩
  have hthrough : ((start true).run shortly returningSource).1 = none := by decide +kernel
  obtain ⟨program, haccepted, hbinds⟩ := accepted_of_through hthrough (by decide +kernel)
  have hcalled : let program := firstProgram shortly returningSource
      (lastCalled? ⟨.byHops (BindingTable.empty.recordAll
          ((visitProgram program).filterMap Finding.binding?)), shortly.clock, shortly.rounds⟩
        45 program Machine.start).any (fun called => called.1.declaration.params.isEmpty &&
          called.1.isInitializer) := by decide +kernel
  rw [firstProgram_eq haccepted true] at hcalled
  obtain ⟨⟨f, m⟩, hlast, hcalled⟩ := (Option.any_eq_true _ _).mp hcalled
  obtain ⟨hparams, hinit⟩ := Bool.and_eq_true_iff.mp hcalled
  have h : Happens true [(shortly, returningSource)] ((start true).setting shortly program)
      (.invoke 47 f []) m :=
    ⟨[], shortly, program, ⟨⟨returningSource, [], rfl, haccepted⟩, hbinds⟩, rfl,
      begins_lastCalled hlast (List.isEmpty_iff.mp hparams)⟩
  exact ⟨_, 46, f, [], m, h, hinit, hinitializer _ _ _ _ _ h hinit⟩

end Session
end LoxLang
