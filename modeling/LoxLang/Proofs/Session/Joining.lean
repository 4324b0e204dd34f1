import LoxLang.Proofs.Grammar.Joining
import LoxLang.Proofs.Machine.Retelling
import LoxLang.Proofs.Scope.Nesting
import LoxLang.Proofs.Session.Safety

/-! # Joining runs

Running one source text and then another in the same session does what running the two as one text,
with a line end between them, does.  The program of the joint text consists of the two programs, the
second on later lines (`Accepted.append`).  Its binding pass finds what the two passes find.  Its run
goes through the first program by the same bindings, and through the second by a table that has kept
the bindings of references outside functions which the session drops between two runs: no function
of the first program ever asks for them. -/

namespace LoxLang

/-! ## The joint program -/

/-- Two accepted texts with a line end between them are accepted, and their program is that of the
first and then that of the second, further down. -/
theorem Accepted.append {config : Config} {source more : String}
    {program program' : List (Stmt Unit)} (h : Accepted config source program) (h' : Accepted config more program') :
    Accepted config (source ++ "\n" ++ more)
      (program ++ program'.map (Stmt.map id (Token.down (Source.linesOf source)))) := by
  obtain ⟨htokens, herrors⟩ := Source.tokenize_append_newline (Source.closed_of_errors_eq_nil h.1) more
  refine ⟨?_, ?_⟩
  · rw [herrors, h.1, h'.1]
    rfl
  · have hparse := h.2
    rw [Source.tokens_eq] at hparse
    rw [htokens]
    exact parse_append (Token.kind_down _) (Token.literal_down _)
      (Source.noEnd_tokensBeforeEnd source) rfl (Source.hasEnd_tokenize more) hparse h'.2

namespace Session

/-! ## Runs without static errors -/

/-- The table with the bindings of a program whose references have the next labels. -/
def boundTable (program : List (Stmt Unit)) (s : Session) : BindingTable :=
  s.table.recordAll
    ((visitProgram (Stmt.relabelAll s.nextLabel program).1).filterMap Finding.binding?)

/-- A program breaks no rule about names and jumps, and does not nest too deep for the binding
pass. -/
structure Binds (config : Config) (program : List (Stmt Unit)) (s : Session) : Prop where
  fault : (bindProgram config.nesting (Stmt.relabelAll s.nextLabel program).1 s.table).fault = none
  errors : (visitProgram (Stmt.relabelAll s.nextLabel program).1).filterMap Finding.error? = []

/-- The execution of a program whose references have the next labels. -/
def executed (config : Config) (program : List (Stmt Unit)) (s : Session) :
    EStateM.Result Halt Machine Unit :=
  Machine.runProgram ⟨.byHops (s.boundTable program), config.clock, config.rounds⟩ config.nesting
    (Stmt.relabelAll s.nextLabel program).1 s.machine

/-- The session after the execution of a program, and the fault that stopped it, if one did. -/
def concluded (program : List (Stmt Unit)) (s : Session) :
    EStateM.Result Halt Machine Unit → Option Fault × Session
  | .ok _ m =>
    (none, ⟨m, (s.boundTable program).dropTopLevel, (Stmt.relabelAll s.nextLabel program).2,
      s.log.clear⟩)
  | .error (.error e) m =>
    (none, ⟨m, (s.boundTable program).dropTopLevel, (Stmt.relabelAll s.nextLabel program).2,
      s.log.clear.report e.diagnostic⟩)
  | .error (.fault f) m =>
    (some f, ⟨m, (s.boundTable program).dropTopLevel, (Stmt.relabelAll s.nextLabel program).2,
      s.log.clear⟩)

section
variable {config : Config} {source : String} {program : List (Stmt Unit)} {s s' : Session}

/-- What binding a well-formed program without errors yields. -/
theorem Binds.bind_eq (h : s.Binds config program) (hwf : ∀ st ∈ program, st.WellFormed) :
    bindProgram config.nesting (Stmt.relabelAll s.nextLabel program).1 s.table =
      ⟨s.boundTable program, [], none⟩ := by
  obtain ⟨gs, _, htable, hfault⟩ := bindProgram_spec
    (Stmt.known_of_wellFormed (Stmt.wellFormed_relabelAll (n := s.nextLabel) hwf)) config.nesting
    s.table
  rw [h.fault] at hfault
  obtain ⟨rfl, herrors⟩ := hfault
  rw [h.errors] at herrors
  have hfault := h.fault
  generalize bindProgram config.nesting (Stmt.relabelAll s.nextLabel program).1 s.table = found
    at htable herrors hfault
  obtain ⟨table, errors, fault⟩ := found
  subst htable herrors hfault
  rfl

/-- What a session knows of references it knows when a program has been bound. -/
theorem recorded_boundTable (program : List (Stmt Unit)) {u : Use Label}
    (h : s.table.Recorded s.nextLabel u) :
    (s.boundTable program).Recorded (Stmt.relabelAll s.nextLabel program).2 u :=
  have hwithin := within_visitProgram s.nextLabel program
  h.recordAll hwithin.le fun b hb => (le_label_of_binding? hwithin b hb).1

/-- What a session asks for when a program has been bound, if it asks for `E` besides the bindings in
its table. -/
abbrev Demands (E : Demand Label) (program : List (Stmt Unit)) (s : Session) : Demand Label :=
  E.also ((s.boundTable program).Recorded (Stmt.relabelAll s.nextLabel program).2)

/-- The table has the hops of all references that are asked for. -/
theorem hops?_of_demands {E : Demand Label} :
    ∀ u, s.Demands E program u → (s.boundTable program).hops? u.ref.label = u.hops? :=
  fun _ h => h.1.hops_eq

section
variable {E E' : Demand Label} (hs : s.Sound E) (hE : E.StrongerInside E')
  (hwf : ∀ st ∈ program, st.WellFormed) (hbinds : s.Binds config program)
  (hmet : Met E' (Stmt.relabelAll s.nextLabel program).1)
include hs hE hwf hbinds hmet

/-- A session that meets a demand is ready for a program that meets it. -/
theorem Sound.prepared_of_met :
    (∃ W, s.machine.Sound (s.Demands E' program) W) ∧
      Stmt.ReadyAll (s.Demands E' program) ⟨.outside, .outside⟩ []
        (Stmt.relabelAll s.nextLabel program).1 := by
  obtain ⟨W, hmachine⟩ := hs.machine
  refine ⟨⟨W, hmachine.imp ⟨fun u hu h => ?_, hE.spot⟩⟩,
    readyAll_of_bound hs.table hwf hbinds.errors hmet⟩
  exact ⟨recorded_boundTable program h.1, hE.use u hu h.2⟩

/-- The execution of a program without broken rules leaves the machine in order. -/
theorem Sound.runs_executed :
    ∃ W, Runs (s.Demands E' program) W s.machine
      (Machine.runProgram ⟨.byHops (s.boundTable program), config.clock, config.rounds⟩
        config.nesting (Stmt.relabelAll s.nextLabel program).1)
      (Machine.runProgram ⟨.byHops (s.boundTable program), config.clock, config.rounds⟩
        config.nesting (Stmt.relabelAll s.nextLabel program).1) fun _ _ _ => True := by
  obtain ⟨⟨W, hmachine⟩, hready⟩ := hs.prepared_of_met hE hwf hbinds hmet
  exact ⟨W, runs_runProgram (agrees_recorded E' _ _) config.nesting hmachine hready⟩

end

/-- Reading an accepted source text yields its program. -/
theorem read_of_accepted (h : Accepted config source program) (s : Session) :
    read config source { s with log := s.log.clear } =
      (.ok (some program), { s with log := s.log.clear }) := by
  unfold read
  dsimp only
  rw [h.1, h.2]
  rfl

/-- A run of an accepted program that can be bound executes it. -/
theorem run_of_accepted (h : Accepted config source program) (hbinds : s.Binds config program) :
    s.run config source = s.concluded program (s.executed config program) := by
  have hbind := hbinds.bind_eq h.wellFormed
  unfold run runVia
  rw [read_of_accepted h s]
  have hclear : s.log.clear.hasError = false := rfl
  simp only [adopt, bindAndExecute, bind, hbind, List.map_nil, Log.reportAll, List.foldl_nil, hclear,
    Bool.false_eq_true, if_false, executeVia]
  cases hend : s.executed config program with
  | ok a m =>
    rw [executed] at hend
    rw [hend]
    rfl
  | error e m =>
    rw [executed] at hend
    rw [hend]
    cases e <;> rfl

/-- A run without static errors is one of an accepted program that can be bound. -/
theorem accepted_of_run (h : s.run config source = (none, s')) (hclean : s'.log.hasError = false) :
    ∃ program, Accepted config source program ∧ s.Binds config program := by
  unfold run runVia at h
  rcases read_cases config source { s with log := s.log.clear } with
    hread | ⟨log, ⟨hread, herror⟩ | ⟨program, hread, hlog, haccepted⟩⟩
  · rw [hread] at h
    cases h
  · rw [hread] at h
    cases h
    rw [herror] at hclean
    cases hclean
  rw [hread] at h
  refine ⟨program, haccepted, ?_⟩
  obtain ⟨gs, _, htable, hfault⟩ := bindProgram_spec
    (Stmt.known_of_wellFormed (Stmt.wellFormed_relabelAll (n := s.nextLabel) haccepted.wellFormed))
    config.nesting s.table
  simp only [adopt, bindAndExecute, bind] at h
  cases hf : (bindProgram config.nesting (Stmt.relabelAll s.nextLabel program).1 s.table).fault with
  | some f => simp [hf] at h
  | none =>
    rw [hf] at hfault h
    obtain ⟨rfl, herrors⟩ := hfault
    have hnone : (bindProgram config.nesting (Stmt.relabelAll s.nextLabel program).1
        s.table).errors.map ScopeError.diagnostic = [] := by
      dsimp only at h
      split at h
      · rename_i herror
        cases h
        exact absurd (herror.symm.trans hclean) Bool.false_ne_true.symm
      · rename_i herror
        refine Log.eq_nil_of_hasError (fun d hd => ?_) (eq_false_of_ne_true herror)
        obtain ⟨e, _, rfl⟩ := List.mem_map.mp hd
        rfl
    exact ⟨hf, herrors.symm.trans (List.map_eq_nil_iff.mp hnone)⟩

/-- A run that is through, without static errors, is one of an accepted program that can be
bound. -/
theorem accepted_of_through (hthrough : (s.run config source).1 = none)
    (hclean : (s.run config source).2.log.hasError = false) :
    ∃ program, Accepted config source program ∧ s.Binds config program :=
  accepted_of_run (Prod.ext hthrough rfl) hclean

/-! ## One run for two -/

/-- The bindings of a program come to those of the program before it. -/
theorem boundTable_append (program more : List (Stmt Unit)) (s : Session) :
    s.boundTable (program ++ more) = (s.boundTable program).recordAll
      ((visitProgram (Stmt.relabelAll (Stmt.relabelAll s.nextLabel program).2 more).1).filterMap
        Finding.binding?) := by
  unfold boundTable
  rw [Stmt.relabelAll_append, visitProgram_append, List.filterMap_append,
    BindingTable.recordAll_append]

/-- The session between two programs, after the first has been executed. -/
def between (program : List (Stmt Unit)) (s : Session) (m : Machine) : Session :=
  ⟨m, (s.boundTable program).dropTopLevel, (Stmt.relabelAll s.nextLabel program).2, s.log.clear⟩

theorem Binds.append {more : List (Stmt Unit)} {m : Machine} (h : s.Binds config program)
    (h' : (s.between program m).Binds config more) : s.Binds config (program ++ more) where
  fault := by
    rw [Stmt.relabelAll_append]
    exact fault_bindProgram_append h.fault h'.fault s.table
  errors := by
    have herrors := h'.errors
    rw [Stmt.relabelAll_append, visitProgram_append, List.filterMap_append, h.errors,
      List.nil_append]
    exact herrors

theorem Binds.map {φ : Token → Token} (hφ : ∀ t, (φ t).lexeme = t.lexeme)
    (h : s.Binds config program) : s.Binds config (program.map (Stmt.map id φ)) := by
  constructor
  · rw [Stmt.relabelAll_map, fault_bindProgram_map _ _ _ _ _ s.table]
    exact h.fault
  · rw [Stmt.relabelAll_map, visitProgram_map hφ, List.filterMap_map, List.filterMap_eq_nil_iff]
    intro f hf
    have hnone := List.filterMap_eq_nil_iff.mp h.errors f hf
    cases f with
    | use u => rfl
    | error e => cases hnone

theorem runProgram_append (S : Setting) (depth : Nat) (program more : List (Stmt Label)) :
    Machine.runProgram S depth (program ++ more) =
      (do Machine.runProgram S depth program; Machine.runProgram S depth more) :=
  List.forM_append

/-- By two tables that both know the hops of a program and of the functions that the machine holds,
the program does the same. -/
theorem runProgram_byHops {Q : Demand Label} {W : Plan} {m : Machine} {T T' : BindingTable}
    (config : Config) {program : List (Stmt Label)} (hm : m.Sound Q W)
    (hprogram : Stmt.ReadyAll Q ⟨.outside, .outside⟩ [] program)
    (hT : ∀ u, Q u → T.hops? u.ref.label = u.hops?)
    (hT' : ∀ u, Q u → T'.hops? u.ref.label = u.hops?) :
    Machine.runProgram ⟨.byHops T', config.clock, config.rounds⟩ config.nesting program m =
        Machine.runProgram ⟨.byHops T, config.clock, config.rounds⟩ config.nesting program m ∧
      ∀ m', Machine.runProgram ⟨.byHops T, config.clock, config.rounds⟩ config.nesting program m =
        .ok () m' → ∃ W', m'.Sound Q W' := by
  have hruns : Runs Q W m
      (Machine.runProgram ⟨.byHops T, config.clock, config.rounds⟩ config.nesting program)
      (Machine.runProgram ⟨.byHops T', config.clock, config.rounds⟩ config.nesting program)
      fun _ _ _ => True :=
    runs_runProgram (Access.agrees_byHops hT hT') config.nesting hm hprogram
  obtain ⟨heq, hruns⟩ := hruns
  refine ⟨heq, fun m' hm' => ?_⟩
  rw [hm'] at hruns
  obtain ⟨W', _, hsound, _⟩ := hruns
  exact ⟨W', hsound⟩

/-- **A program after another, in one run, does what it does in a run of its own.** -/
theorem executed_append {more : List (Stmt Unit)} {m : Machine} (hs : s.Sound .nothing)
    (hprogram : ∀ st ∈ program, st.WellFormed) (hmore : ∀ st ∈ more, st.WellFormed)
    (hbinds : s.Binds config program) (hend : s.executed config program = .ok () m)
    (hbinds' : (s.between program m).Binds config more) :
    s.executed config (program ++ more) = (s.between program m).executed config more := by
  have hwithin := within_visitProgram s.nextLabel program
  have hwithin' := within_visitProgram (Stmt.relabelAll s.nextLabel program).2 more
  have hbounds := le_label_of_binding? hwithin
  have hbounds' := le_label_of_binding? hwithin'
  have hbelow : (s.boundTable program).Below (Stmt.relabelAll s.nextLabel program).2 :=
    (hs.table.mono hwithin.le).recordAll fun b hb => (hbounds b hb).2
  have hjoint : ∀ {u}, (s.boundTable program).Recorded (Stmt.relabelAll s.nextLabel program).2 u →
      (s.boundTable (program ++ more)).Recorded
        (Stmt.relabelAll (Stmt.relabelAll s.nextLabel program).2 more).2 u := by
    intro u h
    rw [boundTable_append]
    exact h.recordAll hwithin'.le fun b hb => (hbounds' b hb).1
  -- The first program does not ask for the bindings of the second, which have other labels.
  obtain ⟨⟨W, hsound⟩, hready⟩ := hs.prepared_of_met (.refl _) hprogram hbinds (met_nothing _)
  obtain ⟨hfirst, hafter⟩ := runProgram_byHops config hsound hready hops?_of_demands
    fun _ h => (hjoint h.1).hops_eq
  obtain ⟨W', hsound'⟩ := hafter m hend
  -- What is dropped between the runs, the functions of the first program do not ask for.
  have hmiddle : m.Sound ((s.between program m).Demands
      (.ofUses ((s.boundTable (program ++ more)).Recorded
        (Stmt.relabelAll (Stmt.relabelAll s.nextLabel program).2 more).2)) more) W' :=
    hsound'.imp ⟨fun u hu ⟨h, _⟩ =>
      ⟨(h.dropTopLevel hu).recordAll hwithin'.le fun b hb => (hbounds' b hb).1, hjoint h⟩,
      fun _ _ _ => trivial⟩
  have hready' := readyAll_of_bound hbelow.dropTopLevel hmore hbinds'.errors
    (met_ofUses (P := (s.boundTable (program ++ more)).Recorded
      (Stmt.relabelAll (Stmt.relabelAll s.nextLabel program).2 more).2) fun u hu => by
        rw [boundTable_append]
        exact recorded_of_visitProgram hbelow more hu)
  obtain ⟨hsecond, _⟩ := runProgram_byHops config hmiddle hready' hops?_of_demands
    fun _ h => h.2.hops_eq
  unfold executed at hend ⊢
  rw [Stmt.relabelAll_append, runProgram_append, EStateM.bind_ok (hfirst.trans hend)]
  exact hsecond

/-- A program on other lines does the same up to lines. -/
theorem retell_executed_map (config : Config) (program : List (Stmt Unit)) (s : Session)
    {φ : Token → Token} (hlexeme : ∀ t, (φ t).lexeme = t.lexeme)
    (hlines : ∀ t, (φ t).unlined = t.unlined) :
    Action.retell (.ofToken Token.unlined) "" (fun a => a)
        (s.executed config (program.map (Stmt.map id φ))) =
      Action.retell (.ofToken Token.unlined) "" (fun a => a) (s.executed config program) := by
  have haccess : Access.byHops (s.boundTable (program.map (Stmt.map id φ))) =
      Access.byHops (s.boundTable program) := by
    refine Access.byHops_congr fun label => ?_
    unfold boundTable
    rw [Stmt.relabelAll_map, visitProgram_map hlexeme]
    exact hops?_recordAll_map hlexeme _ (fun _ => rfl) label
  unfold executed
  rw [haccess, Stmt.relabelAll_map]
  exact retell_runProgram_map _ _ _ _ _ _ hlines

end

/-! ## One text for two -/

theorem machine_concluded (program : List (Stmt Unit)) (s : Session)
    (r : EStateM.Result Halt Machine Unit) :
    (s.concluded program r).2.machine = Action.machineOf r := by
  cases r with
  | ok a m => rfl
  | error h m => cases h <;> rfl

/-- Executions that end in the same way up to lines conclude runs without static errors, with the same
fault, the same messages and the same machine, up to lines. -/
theorem concluded_of_retell (program program' : List (Stmt Unit)) (s s' : Session)
    {r r' : EStateM.Result Halt Machine Unit}
    (h : Action.retell (.ofToken Token.unlined) "" (fun a => a) r' =
      Action.retell (.ofToken Token.unlined) "" (fun a => a) r) :
    (s'.concluded program' r').1 = (s.concluded program r).1 ∧
      (s'.concluded program' r').2.log.hasError = false ∧
      (s'.concluded program' r').2.log.runtimeErrors.map Diagnostic.message =
        (s.concluded program r).2.log.runtimeErrors.map Diagnostic.message ∧
      (s'.concluded program' r').2.machine.unlined = (s.concluded program r).2.machine.unlined := by
  have hmachine := congrArg Action.machineOf h
  rw [Action.machineOf_retell, Action.machineOf_retell, Machine.retold_unlined,
    Machine.retold_unlined, ← machine_concluded program s, ← machine_concluded program' s']
    at hmachine
  cases r with
  | ok a m =>
    cases r' with
    | ok a' m' => exact ⟨rfl, rfl, rfl, hmachine⟩
    | error e' m' => cases h
  | error e m =>
    cases r' with
    | ok a' m' => cases h
    | error e' m' =>
      have hhalt : e'.map Token.unlined = e.map Token.unlined := by
        simp only [Action.retell, EStateM.Result.error.injEq] at h
        exact h.1
      cases e with
      | fault f =>
        cases e' with
        | fault f' =>
          have hfault : f' = f := by simpa [Halt.map] using hhalt
          exact ⟨congrArg some hfault, rfl, rfl, hmachine⟩
        | error e' => cases hhalt
      | error e =>
        cases e' with
        | fault f' => cases hhalt
        | error e' =>
          have hfault : e'.fault = e.fault := by
            simp only [Halt.map, RuntimeError.map, Halt.error.injEq, RuntimeError.mk.injEq] at hhalt
            exact hhalt.1
          refine ⟨rfl, rfl, ?_, hmachine⟩
          show [e'.fault.message] = [e.fault.message]
          rw [hfault]

/-- The first of two runs that ended without any error has left the session between the two. -/
theorem between_of_run {config : Config} {source : String} {program : List (Stmt Unit)}
    {s s' : Session} (haccepted : Accepted config source program) (hbinds : s.Binds config program)
    (h : s.run config source = (none, s')) (hended : s'.log.hasRuntimeError = false) :
    s.executed config program = .ok () s'.machine ∧ s' = s.between program s'.machine := by
  have hrun := (run_of_accepted haccepted hbinds).symm.trans h
  cases hend : s.executed config program with
  | ok a m =>
    rw [hend] at hrun
    cases hrun
    exact ⟨rfl, rfl⟩
  | error e m =>
    rw [hend] at hrun
    cases e with
    | fault f => cases hrun
    | error e =>
      cases hrun
      cases hended

/-- What a run prints comes behind what was printed before. -/
theorem exists_printed_run {config : Config} {source : String} {s s' : Session}
    (h : s.run config source = (none, s')) (hclean : s'.log.hasError = false) :
    ∃ printed, s'.machine.output = s.machine.output ++ printed := by
  obtain ⟨program, haccepted, hbinds⟩ := accepted_of_run h hclean
  have hrun := (run_of_accepted haccepted hbinds).symm.trans h
  have hmachine := machine_concluded program s (s.executed config program)
  rw [hrun] at hmachine
  rw [hmachine]
  exact exists_printed_runProgram ..

/-- The run of a joint text leaves what the second of two runs leaves, up to lines. -/
theorem Sound.run_append {config : Config} {source more : String} {s s₁ s₂ : Session}
    (hs : s.Sound .nothing)
    (hfirst : s.run config source = (none, s₁)) (hclean : s₁.log.hasError = false)
    (hended : s₁.log.hasRuntimeError = false)
    (hsecond : s₁.run config more = (none, s₂)) (hclean' : s₂.log.hasError = false) :
    ∃ s', s.run config (source ++ "\n" ++ more) = (none, s') ∧ s'.log.hasError = false ∧
      s'.log.runtimeErrors.map Diagnostic.message =
        s₂.log.runtimeErrors.map Diagnostic.message ∧
      s'.machine.unlined = s₂.machine.unlined := by
  obtain ⟨program, haccepted, hbinds⟩ := accepted_of_run hfirst hclean
  obtain ⟨program', haccepted', hbinds'⟩ := accepted_of_run hsecond hclean'
  obtain ⟨hend, hbetween⟩ := between_of_run haccepted hbinds hfirst hended
  -- The program of the joint text is that of the first, and that of the second on later lines.
  have hjoint := haccepted.append haccepted'
  have hlater : (s.between program s₁.machine).Binds config
      (program'.map (Stmt.map id (Token.down (Source.linesOf source)))) := by
    rw [← hbetween]
    exact hbinds'.map (Token.lexeme_down _)
  have hwf := fun st hst => hjoint.wellFormed st (List.mem_append_right program hst)
  have hrun := run_of_accepted hjoint (hbinds.append hlater)
  rw [executed_append hs haccepted.wellFormed hwf hbinds hend hlater, ← hbetween] at hrun
  -- Its execution ends as that of the second program does.
  have hsame := concluded_of_retell program'
    (program ++ program'.map (Stmt.map id (Token.down (Source.linesOf source)))) s₁ s
    (retell_executed_map config program' s₁ (Token.lexeme_down (Source.linesOf source))
      fun _ => rfl)
  rw [(run_of_accepted haccepted' hbinds').symm.trans hsecond, ← hrun] at hsame
  obtain ⟨hfault, hrest⟩ := hsame
  exact ⟨(s.run config (source ++ "\n" ++ more)).2, Prod.ext hfault rfl, hrest⟩

/-- **Splitting a source text over two runs does not change it.** Begun in a session that any runs
have led to, let a first run end without any error and a second one without static errors, and let
no limit stop them.  Then one run of the two texts with a line end between them is not stopped
either and has no static errors; it prints what the two runs print, one after the other, reports
the same runtime errors, and leaves the same variables with the same values, and all else that the
machine holds, up to the lines on which functions and classes stand. -/
theorem run_joined (passesOn : Bool) (history : List (Config × String)) (config : Config)
    (source more : String) {s s₁ s₂ : Session}
    (hs : ((start passesOn).runSources history).2 = s)
    (hfirst : s.run config source = (none, s₁)) (hclean : s₁.log.hasError = false)
    (hended : s₁.log.hasRuntimeError = false)
    (hsecond : s₁.run config more = (none, s₂)) (hclean' : s₂.log.hasError = false) :
    ∃ s' printed printed', s.run config (source ++ "\n" ++ more) = (none, s') ∧
      s'.log.hasError = false ∧
      s₁.machine.output = s.machine.output ++ printed ∧
      s₂.machine.output = s₁.machine.output ++ printed' ∧
      s'.machine.output = s.machine.output ++ (printed ++ printed') ∧
      s'.log.runtimeErrors.map Diagnostic.message =
        s₂.log.runtimeErrors.map Diagnostic.message ∧
      s'.machine.globals.map Value.unlined = s₂.machine.globals.map Value.unlined ∧
      s'.machine.unlined = s₂.machine.unlined := by
  have hsound : s.Sound .nothing := hs ▸ ((sound_start _ passesOn).runSources history).2
  obtain ⟨s', hrun, hclean', hmessages, hmachine⟩ :=
    hsound.run_append hfirst hclean hended hsecond hclean'
  obtain ⟨printed, hprinted⟩ := exists_printed_run hfirst hclean
  obtain ⟨printed', hprinted'⟩ := exists_printed_run hsecond ‹_›
  have houtput : s'.machine.unlined.output = s₂.machine.unlined.output := by rw [hmachine]
  have hglobals : s'.machine.unlined.globals = s₂.machine.unlined.globals := by rw [hmachine]
  rw [Machine.unlined, Machine.unlined, Machine.globals_map, Machine.globals_map] at hglobals
  refine ⟨s', printed, printed', hrun, hclean', hprinted, hprinted', ?_, hmessages, hglobals,
    hmachine⟩
  have hsame : s'.machine.output = s₂.machine.output := houtput
  rw [hsame, hprinted', hprinted, String.append_assoc]

/-- A function that keeps its argument. -/
def keepingSource : String :=
  "fun keep(x) \x7b fun kept() \x7b return x; \x7d return kept; \x7d"

/-- A call of what was kept, and then an error. -/
def callingSource : String := "\x7b var f = keep(seen); print f(); \x7d print missing;"

/-- Limits for short runs. -/
def shortly : Config := ⟨50, 50, fun _ => 0⟩

/-- A session that has a variable. -/
def seenSession : Session := ((start true).runSources [(shortly, "var seen = \"kept\";")]).2

/-- The session that then has the function, too. -/
def keptSession : Session := (seenSession.run shortly keepingSource).2

/-- The session after the call. -/
def calledSession : Session := (keptSession.run shortly callingSource).2

theorem run_joined_keeping :
    keptSession.log.hasError = false ∧ keptSession.log.hasRuntimeError = false ∧
      calledSession.log.hasError = false ∧
      ∃ s' printed printed',
        seenSession.run shortly (keepingSource ++ "\n" ++ callingSource) = (none, s') ∧
        s'.log.hasError = false ∧
        keptSession.machine.output = seenSession.machine.output ++ printed ∧
        calledSession.machine.output = keptSession.machine.output ++ printed' ∧
        s'.machine.output = seenSession.machine.output ++ (printed ++ printed') ∧
        s'.log.runtimeErrors.map Diagnostic.message =
          calledSession.log.runtimeErrors.map Diagnostic.message ∧
        s'.machine.globals.map Value.unlined = calledSession.machine.globals.map Value.unlined ∧
        s'.machine.unlined = calledSession.machine.unlined := by
  have hran : ∀ r : Option Fault × Session, r.1 = none → r = (none, r.2) := by
    rintro ⟨fault, s⟩ rfl
    rfl
  have hseen : ((start true).runSources [(shortly, "var seen = \"kept\";")]).2 = seenSession := by
    rw [seenSession]
  have hfirst : seenSession.run shortly keepingSource = (none, keptSession) := by
    rw [keptSession]
    exact hran _ (by decide +kernel)
  have hsecond : keptSession.run shortly callingSource = (none, calledSession) := by
    rw [calledSession]
    exact hran _ (by decide +kernel)
  have hclean : keptSession.log.hasError = false := by decide +kernel
  have hended : keptSession.log.hasRuntimeError = false := by decide +kernel
  have hclean' : calledSession.log.hasError = false := by decide +kernel
  exact ⟨hclean, hended, hclean', run_joined true [(shortly, "var seen = \"kept\";")] shortly
    keepingSource callingSource hseen hfirst hclean hended hsecond hclean'⟩

end Session
end LoxLang
