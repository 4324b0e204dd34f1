import LoxLang.Proofs.Grammar.Primitive
import LoxLang.Proofs.Machine.Unfolded
import LoxLang.Proofs.Scope.Widened
import LoxLang.Proofs.Session.Renaming

/-! # Loops mean what they say

A session that reads a `for` statement as blocks around a `while` loop is compared to one that takes
it as the loop that it means: one scope for the whole loop if it has an initializer, and in it the
condition, the body and the step, none of them in a scope of its own.  Both sessions run the same
source texts.  They report the same, print the same and end each run in the same way, and their
machines stay alike up to empty scopes (`runSources_asMeant`): the blocks that the first session
puts around body and step capture nothing, and what functions share in the one they share in the
other. -/

namespace LoxLang

open Machine

/-- What a report tells: its message and its line. -/
def Diagnostic.told (d : Diagnostic) : String × Int := (d.message, d.line)

/-- The logs have the same reports, those of the running program up to the text of the token they
are about, and have passed on the same. -/
structure Log.Alike (log log' : Log) : Prop where
  errors : log'.errors = log.errors
  runtimeErrors : log'.runtimeErrors.map Diagnostic.told = log.runtimeErrors.map Diagnostic.told
  written : log'.written = log.written

namespace Log.Alike

variable {log log' : Log}

theorem clear (h : log.Alike log') : log.clear.Alike log'.clear := ⟨rfl, rfl, h.written⟩

theorem hasError_eq (h : log.Alike log') : log'.hasError = log.hasError := by
  rw [hasError, hasError, h.errors]

theorem report (h : log.Alike log') (d : Diagnostic) : (log.report d).Alike (log'.report d) := by
  obtain ⟨errors, runtimeErrors, written⟩ := log
  obtain ⟨errors', runtimeErrors', written'⟩ := log'
  obtain ⟨rfl, hruntime, rfl⟩ := h
  have hruntime : runtimeErrors'.map Diagnostic.told = runtimeErrors.map Diagnostic.told := hruntime
  unfold Log.report
  cases d.isRuntime
  · exact ⟨rfl, hruntime, rfl⟩
  · refine ⟨rfl, ?_, rfl⟩
    show (runtimeErrors' ++ [d]).map _ = (runtimeErrors ++ [d]).map _
    rw [List.map_append, List.map_append, hruntime]

theorem reportAll (h : log.Alike log') (ds : List Diagnostic) :
    (log.reportAll ds).Alike (log'.reportAll ds) := by
  induction ds generalizing log log' with
  | nil => exact h
  | cons d ds ih => exact ih (h.report d)

/-- Reports of the same runtime error at tokens of one line. -/
theorem reportRuntime (h : log.Alike log') (message : String) {place place' : Token}
    (hline : place'.line = place.line) :
    (log.report (.runtime message place)).Alike (log'.report (.runtime message place')) := by
  refine ⟨h.errors, ?_, ?_⟩
  · show (log'.runtimeErrors ++ [_]).map _ = (log.runtimeErrors ++ [_]).map _
    rw [List.map_append, List.map_append, h.runtimeErrors]
    simp [Diagnostic.told, Diagnostic.message, Diagnostic.line, hline]
  · show log'.written.map _ = log.written.map _
    rw [h.written, Diagnostic.render, Diagnostic.render, hline]

end Log.Alike

/-! ## Two ways to run source texts -/

/-- How the tokens of a source text are read, and how the program that they form is executed. -/
structure Manner where
  parse : Nat → List Token → Except Fault Parsed
  execute : Setting → Nat → List (Stmt Label) → Action Unit

namespace Manner

/-- Every `for` statement is read as blocks around a `while` loop, which the machine executes. -/
def unfolded : Manner := ⟨LoxLang.parse, runProgram⟩

/-- Every `for` statement is read and executed as the loop that it means. -/
def asMeant : Manner := ⟨parsePrimitive, runTurning⟩

end Manner

namespace Session

/-- Reads the program of a source text in the given manner. -/
def readIn (manner : Manner) (config : Config) (source : String) (s : Session) :
    Except Fault (Option (List (Stmt Unit))) × Session :=
  let found := Source.tokenize source
  match manner.parse config.nesting found.tokens with
  | .error f => (.error f, s)
  | .ok parsed =>
    let log := s.log.reportAll (found.errors.map LexicalError.diagnostic ++
      parsed.errors.map SyntaxError.diagnostic)
    (.ok (if log.hasError then none else some parsed.program), { s with log := log })

/-- Executes a program in the given manner. -/
def executeIn (manner : Manner) (config : Config) (program : List (Stmt Label)) (s : Session) :
    Option Fault × Session :=
  match manner.execute ⟨.byHops s.table, config.clock, config.rounds⟩ config.nesting program
      s.machine with
  | .ok _ m => (none, { s with machine := m })
  | .error (.error e) m => (none, { s with machine := m, log := s.log.report e.diagnostic })
  | .error (.fault f) m => (some f, { s with machine := m })

/-- Binds and executes a program in the given manner, unless binding finds errors. -/
def bindAndExecuteIn (manner : Manner) (config : Config) (program : List (Stmt Label))
    (s : Session) : Option Fault × Session :=
  match s.bind config program with
  | (_, some f, s) => (some f, s)
  | (errors, none, s) =>
    let s := { s with log := s.log.reportAll (errors.map ScopeError.diagnostic) }
    if s.log.hasError then (none, s) else s.executeIn manner config program

/-- Runs a source text in the given manner. -/
def runIn (manner : Manner) (config : Config) (source : String) (s : Session) :
    Option Fault × Session :=
  match { s with log := s.log.clear }.readIn manner config source with
  | (.error f, s) => (some f, s)
  | (.ok none, s) => (none, s)
  | (.ok (some program), s) =>
    let (program, s) := s.adopt program
    let (fault, s) := s.bindAndExecuteIn manner config program
    (fault, s.dropTopLevel)

/-- The fault of each run, if there is one, and the session after running source texts one after
another in the given manner, each within its own limits. -/
def runSourcesIn (manner : Manner) :
    List (Config × String) → Session → List (Option Fault) × Session
  | [], s => ([], s)
  | (config, source) :: rest, s =>
    let (fault, s) := s.runIn manner config source
    let (faults, s) := s.runSourcesIn manner rest
    (fault :: faults, s)

/-! ### The unfolded loops are those of a session -/

theorem executeIn_unfolded (config : Config) (program : List (Stmt Label)) (s : Session) :
    s.executeIn .unfolded config program =
      match s.executeVia Access.byHops config program with
      | (.ok _, s) => (none, s)
      | (.error f, s) => (some f, s) := by
  simp only [executeIn, executeVia, Manner.unfolded]
  cases runProgram ⟨.byHops s.table, config.clock, config.rounds⟩ config.nesting program
    s.machine with
  | ok _ m => rfl
  | error halt m => cases halt <;> rfl

/-- A session runs source texts with every `for` statement unfolded. -/
theorem runIn_unfolded (config : Config) (source : String) (s : Session) :
    s.runIn .unfolded config source = s.run config source := by
  simp only [run, runIn, runVia, bindAndExecuteIn, bindAndExecute, executeIn_unfolded]
  rfl

theorem runSourcesIn_unfolded (sources : List (Config × String)) (s : Session) :
    s.runSourcesIn .unfolded sources = s.runSources sources := by
  induction sources generalizing s with
  | nil => rfl
  | cons first rest ih => simp only [runSourcesIn, runSources, runIn_unfolded, ih]

/-! ## Sessions side by side -/

/-- What a session knows of the references inside the functions that its machine holds. -/
abbrev Known (s : Session) : Demand Label := s.Asked .nothing

theorem hops?_of_known (s : Session) :
    ∀ u, s.Known u → s.table.hops? u.ref.label = u.hops? := fun _ h => h.1.hops_eq

/-- The sessions are alike up to empty scopes of the second one's machine. -/
structure Alike (s s' : Session) : Prop where
  nextLabel : s'.nextLabel = s.nextLabel
  log : s.log.Alike s'.log
  table : s.table.Below s.nextLabel
  table' : s'.table.Below s'.nextLabel
  machine : ∃ places, s.machine.Alike (unfolding s.Known s'.Known) places s'.machine

section
variable {config : Config} {s s' : Session}

/-- **Programs are executed alike**, the second one without faults but those that limits cause. -/
theorem Alike.execute (h : s.Alike s') {program program' : List (Stmt Label)}
    (hunfolds : List.Forall₂ Stmt.Unfolds program program')
    (hready : Stmt.ReadyAll s.Known ⟨.outside, .outside⟩ [] program)
    (hready' : Stmt.ReadyAll s'.Known ⟨.outside, .outside⟩ [] program')
    (hlegal : ∀ halt m, runProgram ⟨.byHops s'.table, config.clock, config.rounds⟩ config.nesting
      program' s'.machine = .error halt m → halt.Legal) :
    let ended := s.executeIn .asMeant config program
    let ended' := s'.executeIn .unfolded config program'
    ended'.1 = ended.1 ∧ ended.2.Alike ended'.2 := by
  obtain ⟨places, hm⟩ := h.machine
  have habreast := abreast_runTurning (hops?_of_known s) (hops?_of_known s')
    config.clock config.rounds config.nesting hm hunfolds hready hready'
  simp only [executeIn, Manner.asMeant, Manner.unfolded]
  generalize runTurning ⟨.byHops s.table, config.clock, config.rounds⟩ config.nesting program
    s.machine = ran at habreast ⊢
  generalize runProgram ⟨.byHops s'.table, config.clock, config.rounds⟩ config.nesting program'
    s'.machine = ran' at habreast hlegal ⊢
  cases habreast with
  | ok _ hm _ => exact ⟨rfl, { h with machine := ⟨_, hm⟩ }⟩
  | error hm hhalt =>
    cases hhalt with
    | error fault hline =>
      exact ⟨rfl, { h with machine := ⟨_, hm⟩, log := h.log.reportRuntime _ hline }⟩
    | fault f => exact ⟨rfl, { h with machine := ⟨_, hm⟩ }⟩
    | missingName name name' =>
      rcases hlegal _ _ rfl with hfault | hfault <;> cases hfault

theorem Alike.dropTopLevel (h : s.Alike s') : s.dropTopLevel.Alike s'.dropTopLevel := by
  obtain ⟨places, hm⟩ := h.machine
  exact { h with
    table := h.table.dropTopLevel
    table' := h.table'.dropTopLevel
    machine := ⟨places, hm.imp_unfolding (.also (fun _ hu h => h.dropTopLevel hu) .nothing)
      (.also (fun _ hu h => h.dropTopLevel hu) .nothing)⟩ }

/-- The session after a program has been labelled and bound, also if the pass has stopped on its
way. -/
def bound (config : Config) (program : List (Stmt Unit)) (s : Session) : Session :=
  { s with
    table := (bindProgram config.nesting (Stmt.relabelAll s.nextLabel program).1 s.table).table
    nextLabel := (Stmt.relabelAll s.nextLabel program).2 }

/-- A program that the binding pass goes through without errors breaks no rule. -/
theorem binds_of_bindProgram {program : List (Stmt Unit)} (hwf : ∀ st ∈ program, st.WellFormed)
    (hfault : (bindProgram config.nesting (Stmt.relabelAll s.nextLabel program).1
      s.table).fault = none)
    (herrors : (bindProgram config.nesting (Stmt.relabelAll s.nextLabel program).1
      s.table).errors = []) : s.Binds config program := by
  obtain ⟨_, _, _, hfound⟩ := bindProgram_spec
    (Stmt.known_of_wellFormed (Stmt.wellFormed_relabelAll (n := s.nextLabel) hwf)) config.nesting
    s.table
  rw [hfault] at hfound
  exact ⟨hfault, hfound.2.symm.trans herrors⟩

/-- What breaks no rule is ready once it is bound. -/
theorem Binds.readyAll {program : List (Stmt Unit)} (h : s.Binds config program)
    (hwf : ∀ st ∈ program, st.WellFormed) (htable : s.table.Below s.nextLabel) :
    Stmt.ReadyAll (s.bound config program).Known ⟨.outside, .outside⟩ []
      (Stmt.relabelAll s.nextLabel program).1 := by
  have hready := readyAll_of_bound htable hwf h.errors (met_nothing _)
  unfold Known Asked Session.bound
  rw [h.bind_eq hwf]
  exact hready

section
variable {reference program : List (Stmt Unit)} (h : s.Alike s')
  (hunfolds : List.Forall₂ Stmt.Unfolds reference program)
  (hwf : ∀ st ∈ program, st.WellFormed)

include h hunfolds

/-- A program and what it unfolds to get the same labels. -/
theorem Alike.labels : List.Forall₂ Stmt.Unfolds (Stmt.relabelAll s.nextLabel reference).1
      (Stmt.relabelAll s'.nextLabel program).1 ∧
    (Stmt.relabelAll s'.nextLabel program).2 = (Stmt.relabelAll s.nextLabel reference).2 := by
  rw [h.nextLabel]
  exact Stmt.relabelAll_of_forall₂ hunfolds (fun _ _ h => h.relabel) s.nextLabel

include hwf

theorem Alike.bound : (s.bound config reference).Alike (s'.bound config program) := by
  have hwf' := Stmt.wellFormed_of_forall₂ hunfolds (fun _ _ h => h.wellFormed) hwf
  obtain ⟨hbelow, hrecorded⟩ := recorded_of_bindProgram h.table hwf' config.nesting
  obtain ⟨hbelow', hrecorded'⟩ := recorded_of_bindProgram h.table' hwf config.nesting
  obtain ⟨places, hm⟩ := h.machine
  exact ⟨(h.labels hunfolds).2, h.log, hbelow, hbelow', places, hm.imp_unfolding
    (.also (fun u _ hu => hrecorded u hu) .nothing) (.also (fun u _ hu => hrecorded' u hu) .nothing)⟩

/-- **Programs are bound and executed alike.** -/
theorem Alike.bindAndExecute (config : Config) (hs' : s'.Sound .nothing) :
    let ended := (s.adopt reference).2.bindAndExecuteIn .asMeant config (s.adopt reference).1
    let ended' := (s'.adopt program).2.bindAndExecuteIn .unfolded config (s'.adopt program).1
    ended'.1 = ended.1 ∧ ended.2.Alike ended'.2 := by
  have hwf' := Stmt.wellFormed_of_forall₂ hunfolds (fun _ _ h => h.wellFormed) hwf
  have hlabels := (h.labels hunfolds).1
  have hbound : (s.bound config reference).Alike (s'.bound config program) :=
    h.bound hunfolds hwf
  obtain ⟨hfault, herrors⟩ := bindProgram_unfolds hlabels (Stmt.wellFormed_relabelAll hwf)
    config.nesting s.table s'.table
  simp only [adopt, bindAndExecuteIn, bind]
  cases hnone : (bindProgram config.nesting (Stmt.relabelAll s.nextLabel reference).1
    s.table).fault with
  -- the pass stops on its way over both programs or over none
  | some f =>
    rw [hfault.trans hnone]
    exact ⟨rfl, hbound⟩
  | none =>
    have hnone' := hfault.trans hnone
    rw [hnone']
    dsimp only
    have hlog := h.log.reportAll (List.map ScopeError.diagnostic
      (bindProgram config.nesting (Stmt.relabelAll s.nextLabel reference).1 s.table).errors)
    rw [herrors hnone, hlog.hasError_eq]
    split
    · exact ⟨rfl, { hbound with log := hlog }⟩
    · rename_i hclean
      have hempty := List.map_eq_nil_iff.mp
        (Log.eq_nil_of_hasError (fun d hd => ?_) (eq_false_of_ne_true hclean))
      · have hbinds := binds_of_bindProgram hwf' hnone hempty
        have hbinds' := binds_of_bindProgram hwf hnone' ((herrors hnone).trans hempty)
        refine Alike.execute ?_ hlabels (hbinds.readyAll hwf' h.table)
          (hbinds'.readyAll hwf h.table') fun halt m hran => ?_
        · exact { hbound with log := hlog }
        · rw [hbinds'.bind_eq hwf] at hran
          exact legal_of_executed hs' hwf hbinds' hran
      · obtain ⟨e, _, rfl⟩ := List.mem_map.mp hd
        rfl

end

/-- **Sessions run a source text alike.** -/
theorem Alike.run (h : s.Alike s') (hs' : s'.Sound .nothing) (config : Config)
    (source : String) :
    (s'.runIn .unfolded config source).1 = (s.runIn .asMeant config source).1 ∧
      (s.runIn .asMeant config source).2.Alike (s'.runIn .unfolded config source).2 := by
  simp only [runIn, readIn, Manner.asMeant, Manner.unfolded]
  rcases parse_unfolds (fun _ => Source.spelled_tokenize) config.nesting with
    ⟨f, hmeant, hread⟩ | ⟨reference, program, errors, hmeant, hread, hunfolds⟩
  · rw [hmeant, hread]
    exact ⟨rfl, { h with log := h.log.clear }⟩
  · rw [hmeant, hread]
    dsimp only
    have hlog := h.log.clear.reportAll
      ((Source.tokenize source).errors.map LexicalError.diagnostic ++
        errors.map SyntaxError.diagnostic)
    rw [hlog.hasError_eq]
    cases (s.log.clear.reportAll ((Source.tokenize source).errors.map LexicalError.diagnostic ++
      errors.map SyntaxError.diagnostic)).hasError with
    | true => exact ⟨rfl, { h with log := hlog }⟩
    | false =>
      have hcleared : Session.Alike
          { s with log := s.log.clear.reportAll _ } { s' with log := s'.log.clear.reportAll _ } :=
        { h with log := hlog }
      obtain ⟨hfault, hended⟩ := hcleared.bindAndExecute hunfolds (wellFormed_of_parse hread) config
        ⟨hs'.table, hs'.machine⟩
      exact ⟨hfault, hended.dropTopLevel⟩

theorem Alike.runSources (h : s.Alike s') (hs' : s'.Sound .nothing)
    (sources : List (Config × String)) :
    (s'.runSourcesIn .unfolded sources).1 = (s.runSourcesIn .asMeant sources).1 ∧
      (s.runSourcesIn .asMeant sources).2.Alike (s'.runSourcesIn .unfolded sources).2 := by
  induction sources generalizing s s' with
  | nil => exact ⟨rfl, h⟩
  | cons first rest ih =>
    obtain ⟨hfault, h⟩ := h.run hs' first.1 first.2
    have hs' := (hs'.run first.1 first.2).2
    rw [← runIn_unfolded] at hs'
    obtain ⟨hfaults, h⟩ := ih h hs'
    simp only [runSourcesIn]
    rw [hfault, hfaults]
    exact ⟨rfl, h⟩

end

theorem alike_start (passesOn : Bool) : (start passesOn).Alike (start passesOn) :=
  ⟨rfl, ⟨rfl, rfl, rfl⟩, List.forall_mem_nil _, List.forall_mem_nil _, [0],
    Machine.alike_start _ _⟩

/-- **Loops mean what they say.**  Let a session run any source texts, and let another one run them
with each `for` statement taken as the loop that it means.  All runs are stopped at the same limits
or at none.  In the end both have printed the same and report the same, runtime errors by message
and line.  Each scope of the one machine has a counterpart in the other, no two of them the same,
with the same variables and values that are alike: data is the same, and functions, methods and
objects are, with functions in environments that pass counterparts, so that functions that share a
variable share its counterpart.  All scopes without a counterpart are empty.

What the one session reads of any source text unfolds to what the other reads.  All references,
those of the steps included, stand among the same open scopes in both, with nothing in between but
scopes in which no name is ever declared. -/
theorem runSources_asMeant (passesOn : Bool) (sources : List (Config × String)) :
    let meant := (start passesOn).runSourcesIn .asMeant sources
    let ended := (start passesOn).runSources sources
    ended.1 = meant.1 ∧ ended.2.machine.output = meant.2.machine.output ∧
      meant.2.log.Alike ended.2.log ∧
      (∃ places, meant.2.machine.Alike (unfolding meant.2.Known ended.2.Known) places
        ended.2.machine) ∧
      ∀ (nesting : Nat) (source : String),
        let tokens := (Source.tokenize source).tokens
        (∃ fault, parsePrimitive nesting tokens = .error fault ∧
          parse nesting tokens = .error fault) ∨
        ∃ reference program errors, parsePrimitive nesting tokens = .ok ⟨reference, errors⟩ ∧
          parse nesting tokens = .ok ⟨program, errors⟩ ∧
          List.Forall₂ Stmt.Unfolds reference program ∧
          List.Forall₂ Finding.Widened (visitProgram reference) (visitProgram program) := by
  obtain ⟨hfaults, halike⟩ := (alike_start passesOn).runSources (sound_start _ passesOn) sources
  rw [runSourcesIn_unfolded] at hfaults halike
  obtain ⟨places, hm⟩ := halike.machine
  refine ⟨hfaults, hm.output, halike.log, ⟨places, hm⟩, fun nesting source => ?_⟩
  rcases parse_unfolds (fun _ => Source.spelled_tokenize) nesting with
    hfault | ⟨reference, program, errors, hmeant, hread, hunfolds⟩
  · exact .inl hfault
  · exact .inr ⟨reference, program, errors, hmeant, hread, hunfolds,
      Stmt.Unfolds.visitProgram hunfolds⟩

/-- A loop whose functions all share its variable, and a loop without clauses that a return leaves.
-/
def loopingSource : String :=
  "var f; for (var i = 0; i < 2; i = i + 1) \x7b fun show() \x7b print i; \x7d f = show; \x7d " ++
    "fun g() \x7b for (;; f = nil) return f; \x7d g()(); print -f;"

example :
    let meant := (start true).runSourcesIn .asMeant [(shortly, loopingSource)]
    meant.2.machine.output = "2\n" ∧
      meant.2.log.runtimeErrors.map Diagnostic.told = [("Operand must be a number.", 1)] := by
  decide +kernel

end Session
end LoxLang
