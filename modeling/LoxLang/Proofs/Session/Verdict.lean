import LoxLang.Proofs.Session.ByName
import LoxLang.Proofs.Session.Joining

/-! # How a run ends

A source that is run in a session ends in one of four ways: it is rejected, with reports of what is
wrong with it, and nothing of it is executed; its execution fails with a runtime error; the run is
cut off at a limit; or it comes to its end.  `Ends` says when it ends how, stage by stage, and
`run_ends` that every run ends in one of these ways, with what that means for the session. -/

namespace LoxLang

/-- How a run ends. -/
inductive Verdict
  /-- The source is wrong, and not executed. -/
  | rejected (reports : List Diagnostic)
  /-- The execution ends in a runtime error. -/
  | failed (e : RuntimeError)
  /-- The run is stopped. -/
  | cutOff (f : Fault)
  | finished

namespace Verdict

/-- What stopped the run. -/
def fault? : Verdict → Option Fault
  | cutOff f => some f
  | rejected _ | failed _ | finished => none

/-- How a run ends whose source is executed. -/
def ofExecution : EStateM.Result Halt Machine Unit → Verdict
  | .ok _ _ => finished
  | .error (.error e) _ => failed e
  | .error (.fault f) _ => cutOff f

/-- What is reported of the run. -/
def reports : Verdict → List Diagnostic
  | rejected ds => ds
  | failed e => [e.diagnostic]
  | cutOff _ | finished => []

end Verdict

/-- What is wrong with a source text before names are looked at: first with its tokens, then with
what they form. -/
def sourceReports (source : String) (errors : List SyntaxError) : List Diagnostic :=
  (Source.tokenize source).errors.map LexicalError.diagnostic ++
    errors.map SyntaxError.diagnostic

/-- What is wrong with the names and jumps of a program. -/
def scopeReports (program : List (Stmt Unit)) : List Diagnostic :=
  ((visitProgram program).filterMap Finding.error?).map ScopeError.diagnostic

theorem not_isRuntime_of_sourceReports {source : String} {errors : List SyntaxError} :
    ∀ d ∈ sourceReports source errors, d.isRuntime = false := by
  intro d hd
  rcases List.mem_append.mp hd with hd | hd
  · obtain ⟨e, _, rfl⟩ := List.mem_map.mp hd
    rfl
  · obtain ⟨e, _, rfl⟩ := List.mem_map.mp hd
    rfl

theorem not_isRuntime_of_scopeReports {program : List (Stmt Unit)} :
    ∀ d ∈ scopeReports program, d.isRuntime = false := by
  intro d hd
  obtain ⟨e, _, rfl⟩ := List.mem_map.mp hd
  rfl

theorem accepted_iff {config : Config} {source : String} {program : List (Stmt Unit)} :
    Accepted config source program ↔ ∃ errors,
      parse config.nesting (Source.tokenize source).tokens = .ok ⟨program, errors⟩ ∧
        sourceReports source errors = [] := by
  simp [Accepted, sourceReports, and_comm]

theorem not_accepted_of_sourceReports {config : Config} {source : String}
    {program program' : List (Stmt Unit)} {errors : List SyntaxError}
    (hparse : parse config.nesting (Source.tokenize source).tokens = .ok ⟨program, errors⟩)
    (hsome : sourceReports source errors ≠ []) : ¬ Accepted config source program' := by
  intro haccepted
  obtain ⟨errors', hparse', hnone⟩ := accepted_iff.mp haccepted
  cases hparse.symm.trans hparse'
  exact hsome hnone

namespace Session

/-- A run ends in the given way and leaves the machine. -/
inductive Ends (config : Config) (source : String) (s : Session) : Verdict → Machine → Prop
  | tooDeepToRead {f : Fault}
      (hparse : parse config.nesting (Source.tokenize source).tokens = .error f) :
      Ends config source s (.cutOff f) s.machine
  | misread {program : List (Stmt Unit)} {errors : List SyntaxError}
      (hparse : parse config.nesting (Source.tokenize source).tokens = .ok ⟨program, errors⟩)
      (hsome : sourceReports source errors ≠ []) :
      Ends config source s (.rejected (sourceReports source errors)) s.machine
  | tooDeepToBind {program : List (Stmt Unit)} (haccepted : Accepted config source program)
      {f : Fault} (hfault : (bindProgram config.nesting
        (Stmt.relabelAll s.nextLabel program).1 s.table).fault = some f) :
      Ends config source s (.cutOff f) s.machine
  | misbound {program : List (Stmt Unit)} (haccepted : Accepted config source program)
      (hfault : (bindProgram config.nesting
        (Stmt.relabelAll s.nextLabel program).1 s.table).fault = none)
      (hsome : scopeReports program ≠ []) :
      Ends config source s (.rejected (scopeReports program)) s.machine
  | executed {program : List (Stmt Unit)} (haccepted : Accepted config source program)
      (hbinds : s.Binds config program) :
      Ends config source s (.ofExecution (s.executed config program))
        (Action.machineOf (s.executed config program))

section
variable {config : Config} {source : String} {s : Session}

/-- How a run ends whose source is accepted. -/
theorem run_ends_of_accepted {program : List (Stmt Unit)}
    (haccepted : Accepted config source program) (s : Session) :
    ∃ v m, s.Ends config source v m ∧ (s.run config source).1 = v.fault? ∧
      (s.run config source).2.machine = m ∧
      (s.run config source).2.log = s.log.clear.reportAll v.reports := by
  obtain ⟨_, _, htable, hspec⟩ := bindProgram_spec
    (Stmt.known_of_wellFormed (Stmt.wellFormed_relabelAll (n := s.nextLabel) haccepted.wellFormed))
    config.nesting s.table
  cases hfault : (bindProgram config.nesting
      (Stmt.relabelAll s.nextLabel program).1 s.table).fault with
  | some f =>
    refine ⟨_, _, .tooDeepToBind haccepted hfault, ?_⟩
    unfold run runVia
    rw [read_of_accepted haccepted s]
    simp only [adopt, bindAndExecute, bind, hfault]
    exact ⟨rfl, rfl, rfl⟩
  | none =>
    rw [hfault, error?_visitProgram_relabelAll] at hspec
    obtain ⟨_, herrors⟩ := hspec
    by_cases hnone : scopeReports program = []
    · have hbinds : s.Binds config program := by
        refine ⟨hfault, ?_⟩
        rw [error?_visitProgram_relabelAll]
        exact List.map_eq_nil_iff.mp hnone
      refine ⟨_, _, .executed haccepted hbinds, ?_⟩
      rw [run_of_accepted haccepted hbinds]
      rcases s.executed config program with _ | ⟨_ | _, _⟩ <;> exact ⟨rfl, rfl, rfl⟩
    · refine ⟨_, _, .misbound haccepted hfault hnone, ?_⟩
      have herror : (s.log.clear.reportAll (scopeReports program)).hasError := by
        by_contra h
        exact hnone (Log.eq_nil_of_hasError not_isRuntime_of_scopeReports (eq_false_of_ne_true h))
      unfold run runVia
      rw [read_of_accepted haccepted s]
      simp only [adopt, bindAndExecute, bind, hfault, herrors]
      rw [scopeReports] at herror
      rw [if_pos herror]
      exact ⟨rfl, rfl, rfl⟩

/-- **Every run ends in one of the four ways**, and leaves the session with what that means: with
the fault that stopped it, if one did, with the machine, and with its own reports and no others. -/
theorem run_ends (config : Config) (source : String) (s : Session) :
    ∃ v m, s.Ends config source v m ∧ (s.run config source).1 = v.fault? ∧
      (s.run config source).2.machine = m ∧
      (s.run config source).2.log = s.log.clear.reportAll v.reports := by
  cases hparse : parse config.nesting (Source.tokenize source).tokens with
  | error f =>
    refine ⟨_, _, .tooDeepToRead hparse, ?_⟩
    unfold run runVia read
    dsimp only
    rw [hparse]
    exact ⟨rfl, rfl, rfl⟩
  | ok parsed =>
    obtain ⟨program, errors⟩ := parsed
    have hread : read config source { s with log := s.log.clear } =
        (.ok (if (s.log.clear.reportAll (sourceReports source errors)).hasError then none
          else some program),
          { s with log := s.log.clear.reportAll (sourceReports source errors) }) := by
      unfold read
      dsimp only
      rw [hparse]
      rfl
    by_cases hnone : sourceReports source errors = []
    · exact run_ends_of_accepted (accepted_iff.mpr ⟨errors, hparse, hnone⟩) s
    · refine ⟨_, _, .misread hparse hnone, ?_⟩
      have herror : (s.log.clear.reportAll (sourceReports source errors)).hasError := by
        by_contra h
        exact hnone (Log.eq_nil_of_hasError not_isRuntime_of_sourceReports (eq_false_of_ne_true h))
      unfold run runVia
      rw [hread, if_pos herror]
      exact ⟨rfl, rfl, rfl⟩

theorem Binds.scopeReports {program : List (Stmt Unit)} (h : s.Binds config program) :
    scopeReports program = [] := by
  have herrors := h.errors
  rw [error?_visitProgram_relabelAll] at herrors
  exact List.map_eq_nil_iff.mpr herrors

/-- How a run of an accepted source ends, by what the binding pass finds. -/
theorem Ends.of_accepted {v : Verdict} {m : Machine} {program : List (Stmt Unit)}
    (h : s.Ends config source v m) (haccepted : Accepted config source program) :
    let fault := (bindProgram config.nesting
      (Stmt.relabelAll s.nextLabel program).1 s.table).fault
    (∃ f, fault = some f ∧ v = .cutOff f ∧ m = s.machine) ∨
      (fault = none ∧ LoxLang.scopeReports program ≠ [] ∧
        v = .rejected (LoxLang.scopeReports program) ∧ m = s.machine) ∨
      (s.Binds config program ∧ v = .ofExecution (s.executed config program) ∧
        m = Action.machineOf (s.executed config program)) := by
  cases h with
  | tooDeepToRead hparse => cases hparse.symm.trans haccepted.2
  | misread hparse hsome => exact absurd haccepted (not_accepted_of_sourceReports hparse hsome)
  | tooDeepToBind haccepted' hfault =>
    cases haccepted.unique haccepted'
    exact .inl ⟨_, hfault, rfl, rfl⟩
  | misbound haccepted' hfault hsome =>
    cases haccepted.unique haccepted'
    exact .inr (.inl ⟨hfault, hsome, rfl, rfl⟩)
  | executed haccepted' hbinds =>
    cases haccepted.unique haccepted'
    exact .inr (.inr ⟨hbinds, rfl, rfl⟩)

/-- A run ends in one way only. -/
theorem Ends.unique {v v' : Verdict} {m m' : Machine} (h : s.Ends config source v m)
    (h' : s.Ends config source v' m') : v = v' ∧ m = m' := by
  cases h with
  | tooDeepToRead hparse =>
    cases h' with
    | tooDeepToRead hparse' =>
      cases hparse.symm.trans hparse'
      exact ⟨rfl, rfl⟩
    | misread hparse' => cases hparse.symm.trans hparse'
    | tooDeepToBind haccepted | misbound haccepted | executed haccepted =>
      cases hparse.symm.trans haccepted.2
  | misread hparse hsome =>
    cases h' with
    | tooDeepToRead hparse' => cases hparse.symm.trans hparse'
    | misread hparse' =>
      cases hparse.symm.trans hparse'
      exact ⟨rfl, rfl⟩
    | tooDeepToBind haccepted | misbound haccepted | executed haccepted =>
      exact absurd haccepted (not_accepted_of_sourceReports hparse hsome)
  | tooDeepToBind haccepted hfault =>
    rcases h'.of_accepted haccepted with ⟨f, hfault', rfl, rfl⟩ | ⟨hfault', _⟩ | ⟨hbinds, _⟩
    · cases hfault.symm.trans hfault'
      exact ⟨rfl, rfl⟩
    · cases hfault.symm.trans hfault'
    · cases hfault.symm.trans hbinds.fault
  | misbound haccepted hfault hsome =>
    rcases h'.of_accepted haccepted with ⟨f, hfault', _⟩ | ⟨_, _, rfl, rfl⟩ | ⟨hbinds, _⟩
    · cases hfault.symm.trans hfault'
    · exact ⟨rfl, rfl⟩
    · exact absurd hbinds.scopeReports hsome
  | executed haccepted hbinds =>
    rcases h'.of_accepted haccepted with ⟨f, hfault, _⟩ | ⟨_, hsome, _⟩ | ⟨_, rfl, rfl⟩
    · cases hfault.symm.trans hbinds.fault
    · exact absurd hbinds.scopeReports hsome
    · exact ⟨rfl, rfl⟩

/-- A run leaves the machine alone, unless it executes the program of an accepted source. -/
theorem machine_run (config : Config) (source : String) (s : Session) :
    (s.run config source).2.machine = s.machine ∨
      ∃ program, Accepted config source program ∧ s.Binds config program ∧
        (s.run config source).2.machine = Action.machineOf (s.executed config program) := by
  obtain ⟨v, m, hends, _, hmachine, _⟩ := run_ends config source s
  rw [hmachine]
  cases hends with
  | executed haccepted hbinds => exact .inr ⟨_, haccepted, hbinds, rfl⟩
  | _ => exact .inl rfl

end

end Session
end LoxLang
