import LoxLang.Proofs.Grammar.Changing
import LoxLang.Proofs.Machine.Retelling
import LoxLang.Proofs.Scope.Uniform
import LoxLang.Proofs.Session.Invariant

/-! # Runs of changed tokens

All that a run does is decided by the tokens of its source, and nothing but reports tell on which
lines these stand.  So a run of tokens on other lines, in a session that has had runs of tokens on
other lines before, ends in the same way: it reports the same at the changed tokens, binds the same
references over the same numbers of scopes, prints the same, and leaves a session that differs in
lines only (`Follows.runTokens`).

What is reported before execution depends on less than the session: on the tokens and on the label
from which references are numbered (`errors_runTokens`). -/

namespace LoxLang

/-- A change that leaves all of a token but its line. -/
def Relines (φ : Token → Token) : Prop := ∀ t, (φ t).unlined = t.unlined

namespace Relines

variable {φ : Token → Token} (h : Relines φ)
include h

theorem kind (t : Token) : (φ t).kind = t.kind := by
  have heq := congrArg Token.kind (h t)
  exact heq

theorem lexeme (t : Token) : (φ t).lexeme = t.lexeme := by
  have heq := congrArg Token.lexeme (h t)
  exact heq

theorem literal (t : Token) : (φ t).literal = t.literal := by
  have heq := congrArg Token.literal (h t)
  exact heq

theorem lawful : (Change.ofToken φ).Lawful := ⟨h.lexeme, h.kind⟩

end Relines

/-! ## Reports -/

/-- The same report, at places that belong together if it is about a token. -/
inductive Diagnostic.Alike (P : Token → Token → Prop) : Diagnostic → Diagnostic → Prop
  | lexical (message : String) (line line' : Int) :
      Alike P (.lexical message line) (.lexical message line')
  | syntactic (message : String) {t t' : Token} (h : P t t') :
      Alike P (.syntactic message t) (.syntactic message t')
  | scoping (message : String) {t t' : Token} (h : P t t') :
      Alike P (.scoping message t) (.scoping message t')
  | runtime (message : String) {t t' : Token} (h : P t t') :
      Alike P (.runtime message t) (.runtime message t')

/-- Tokens and errors of two texts that say the same, the second with changed tokens. -/
structure Tokenized.Follows (φ : Token → Token) (found found' : Tokenized) : Prop where
  tokens : found'.tokens = found.tokens.map φ
  errors : found'.errors.map (fun e => e.fault.message) =
    found.errors.map fun e => e.fault.message

/-- The same bindings of changed tokens. -/
def BindingTable.map (φ : Token → Token) (t : BindingTable) : BindingTable :=
  ⟨t.entries.map (Binding.map φ)⟩

section
variable {φ : Token → Token}

namespace BindingTable

theorem record_map (b : Binding) (t : BindingTable) :
    (t.map φ).record (b.map φ) = (t.record b).map φ := by
  obtain ⟨entries⟩ := t
  simp only [map, record, mk.injEq]
  induction entries with
  | nil => rfl
  | cons c entries ih =>
    by_cases h : c.label = b.label
    · simp [recordEntry, Binding.map, h]
    · simpa [recordEntry, Binding.map, h] using ih

theorem recordAll_map (bs : List Binding) (t : BindingTable) :
    (t.map φ).recordAll (bs.map (Binding.map φ)) = (t.recordAll bs).map φ := by
  induction bs generalizing t with
  | nil => rfl
  | cons b bs ih =>
    have hstep : (t.map φ).recordAll ((b :: bs).map (Binding.map φ)) =
        ((t.map φ).record (b.map φ)).recordAll (bs.map (Binding.map φ)) := rfl
    rw [hstep, record_map, ih]
    rfl

theorem hops?_map (label : Label) (t : BindingTable) : (t.map φ).hops? label = t.hops? label := by
  simp [hops?, find?, map, List.find?_map, Function.comp_def, Binding.map]

theorem dropTopLevel_map (t : BindingTable) : (t.map φ).dropTopLevel = t.dropTopLevel.map φ := by
  simp [dropTopLevel, map, List.filter_map, Function.comp_def, Binding.map]

end BindingTable

theorem Machine.retold_ofToken (m : Machine) : m.retold (.ofToken φ) "" = m.map φ := by
  simp [retold, behind, change_ofToken, map]

/-- As much is wrong with the changed tokens as with the tokens. -/
theorem Tokenized.Follows.isEmpty_eq {found found' : Tokenized} (h : found.Follows φ found')
    (parsed : Parsed) :
    (found'.errors.isEmpty && (parsed.map φ).errors.isEmpty) =
      (found.errors.isEmpty && parsed.errors.isEmpty) := by
  have hlexical := congrArg List.isEmpty h.errors
  rw [List.isEmpty_map, List.isEmpty_map] at hlexical
  rw [hlexical, Parsed.map, List.isEmpty_map]

end

namespace Session

/-! ## Runs of tokens -/

/-- Runs the program that tokens form, as `run` does with those of a source text. -/
def runTokens (config : Config) (found : Tokenized) (s : Session) : Option Fault × Session :=
  let s := { s with log := s.log.clear }
  match parse config.nesting found.tokens with
  | .error f => (some f, s)
  | .ok parsed =>
    let s := { s with
      log := s.log.reportAll (found.errors.map LexicalError.diagnostic ++
        parsed.errors.map SyntaxError.diagnostic) }
    if s.log.hasError then (none, s)
    else
      let (program, s) := s.adopt parsed.program
      let (fault, s) := s.bindAndExecute Access.byHops config program
      (fault, s.dropTopLevel)

/-- A run of a source text is one of its tokens. -/
theorem run_eq_runTokens (config : Config) (source : String) (s : Session) :
    s.run config source = s.runTokens config (Source.tokenize source) := by
  unfold run runVia read runTokens
  dsimp only
  cases parse config.nesting (Source.tokenize source).tokens with
  | error f => rfl
  | ok parsed =>
    dsimp only
    generalize s.log.clear.reportAll _ = log
    cases log.hasError <;> rfl

/-- What is reported before execution of a program whose references are numbered from a label: what
is wrong with the tokens and their order, or else what is wrong with names and jumps, unless the
program nests too deep. -/
def staticErrors (config : Config) (found : Tokenized) (n : Label) : List Diagnostic :=
  match parse config.nesting found.tokens with
  | .error _ => []
  | .ok parsed =>
    let errors := found.errors.map LexicalError.diagnostic ++
      parsed.errors.map SyntaxError.diagnostic
    if errors.isEmpty then
      let bound := bindProgram config.nesting (Stmt.relabelAll n parsed.program).1 .empty
      if bound.fault.isSome then [] else bound.errors.map ScopeError.diagnostic
    else errors

section
variable {config : Config} {found found' : Tokenized} {φ : Token → Token}

/-- Lexical and syntactic reports are no reports of the running program. -/
theorem isRuntime_of_mem_reports (lexical : List LexicalError) (syntactic : List SyntaxError)
    {d : Diagnostic}
    (hd : d ∈ lexical.map LexicalError.diagnostic ++ syntactic.map SyntaxError.diagnostic) :
    d.isRuntime = false := by
  rcases List.mem_append.mp hd with hd | hd
  · obtain ⟨e, _, rfl⟩ := List.mem_map.mp hd
    rfl
  · obtain ⟨e, _, rfl⟩ := List.mem_map.mp hd
    rfl

theorem isRuntime_of_mem_scoping (errors : List ScopeError) {d : Diagnostic}
    (hd : d ∈ errors.map ScopeError.diagnostic) : d.isRuntime = false := by
  obtain ⟨e, _, rfl⟩ := List.mem_map.mp hd
  rfl

/-- Binding adds to any table what it adds to an empty one, with the same errors. -/
theorem bindProgram_empty (depth : Nat) (program : List (Stmt Label)) (table : BindingTable) :
    (bindProgram depth program table).errors = (bindProgram depth program .empty).errors ∧
      (bindProgram depth program table).fault = (bindProgram depth program .empty).fault := by
  obtain ⟨fault, errors, bs, hbound⟩ := bindProgram_uniform (φ := id) (fun _ => rfl) depth program
  rw [(hbound table).1, (hbound .empty).1]
  exact ⟨rfl, rfl⟩

/-- Execution reports no error of those before execution. -/
theorem errors_executeVia (access : BindingTable → Access) (config : Config)
    (program : List (Stmt Label)) (s : Session) :
    (s.executeVia access config program).2.log.errors = s.log.errors := by
  unfold executeVia
  split
  · rfl
  · simp [Log.report, Log.write, RuntimeError.diagnostic, Diagnostic.isRuntime]
  · rfl

/-- What binding and execution report before execution. -/
theorem errors_bindAndExecute (access : BindingTable → Access) (config : Config)
    (program : List (Stmt Label)) {s : Session} (hs : s.log.errors = []) :
    (s.bindAndExecute access config program).2.log.errors =
      let bound := bindProgram config.nesting program .empty
      if bound.fault.isSome then [] else bound.errors.map ScopeError.diagnostic := by
  obtain ⟨herrors, hfault⟩ := bindProgram_empty config.nesting program s.table
  have hreported := Log.errors_reportAll (fun d hd => isRuntime_of_mem_scoping
    (bindProgram config.nesting program .empty).errors hd) s.log
  rw [hs, List.nil_append] at hreported
  unfold bindAndExecute bind
  simp only [herrors, hfault]
  cases (bindProgram config.nesting program .empty).fault with
  | some f => exact hs
  | none =>
    dsimp only
    split
    · exact hreported
    · have hexec := errors_executeVia access config program
        { s with
          table := (bindProgram config.nesting program s.table).table
          log := s.log.reportAll ((bindProgram config.nesting program .empty).errors.map
            ScopeError.diagnostic) }
      split
      · rename_i hend
        rw [hend] at hexec
        exact hexec.trans hreported
      · rename_i hend
        rw [hend] at hexec
        exact hexec.trans hreported

/-- **What a run reports before execution** is decided by the tokens and by the label of the next
reference. -/
theorem errors_runTokens (config : Config) (found : Tokenized) (s : Session) :
    (s.runTokens config found).2.log.errors = staticErrors config found s.nextLabel := by
  unfold runTokens staticErrors
  dsimp only
  cases parse config.nesting found.tokens with
  | error f => rfl
  | ok parsed =>
    have herrors := Log.errors_reportAll
      (fun d hd => isRuntime_of_mem_reports found.errors parsed.errors hd) s.log.clear
    rw [show s.log.clear.errors = [] from rfl, List.nil_append] at herrors
    dsimp only
    generalize found.errors.map LexicalError.diagnostic ++
      parsed.errors.map SyntaxError.diagnostic = errors at herrors
    rw [Log.hasError, herrors]
    cases errors with
    | cons d ds => exact herrors
    | nil => exact errors_bindAndExecute _ config _ herrors

/-- A report for each of some things and one for each of their counterparts. -/
theorem alike_map {α : Type} {P : Token → Token → Prop} {f g : α → Diagnostic} {as : List α}
    (h : ∀ a, Diagnostic.Alike P (f a) (g a)) :
    List.Forall₂ (Diagnostic.Alike P) (as.map f) (as.map g) := by
  rw [List.forall₂_map_left_iff, List.forall₂_map_right_iff, List.forall₂_same]
  exact fun a _ => h a

theorem isEmpty_eq_of_alike {P : Token → Token → Prop} {ds ds' : List Diagnostic}
    (h : List.Forall₂ (Diagnostic.Alike P) ds ds') : ds'.isEmpty = ds.isEmpty := by
  cases h <;> rfl

theorem alike_lexical (P : Token → Token → Prop) {es es' : List LexicalError}
    (h : es'.map (fun e => e.fault.message) = es.map fun e => e.fault.message) :
    List.Forall₂ (Diagnostic.Alike P) (es.map LexicalError.diagnostic)
      (es'.map LexicalError.diagnostic) := by
  induction es generalizing es' with
  | nil =>
    rw [List.map_eq_nil_iff.mp h]
    exact .nil
  | cons e es ih =>
    obtain ⟨e', es', rfl, he, hes⟩ := List.map_eq_cons_iff.mp h
    refine .cons ?_ (ih hes)
    rw [LexicalError.diagnostic, LexicalError.diagnostic, he]
    exact .lexical _ _ _

/-- The reports before execution are the same at the changed tokens. -/
theorem alike_staticErrors (hφ : Relines φ) (config : Config) (hfound : found.Follows φ found')
    (n : Label) :
    List.Forall₂ (Diagnostic.Alike fun t t' => t' = φ t) (staticErrors config found n)
      (staticErrors config found' n) := by
  unfold staticErrors
  rw [hfound.tokens, parse_map hφ.kind hφ.literal]
  cases parse config.nesting found.tokens with
  | error f => exact .nil
  | ok parsed =>
    have hreports : List.Forall₂ (Diagnostic.Alike fun t t' => t' = φ t)
        (found.errors.map LexicalError.diagnostic ++ parsed.errors.map SyntaxError.diagnostic)
        (found'.errors.map LexicalError.diagnostic ++
          (parsed.map φ).errors.map SyntaxError.diagnostic) := by
      refine List.rel_append (alike_lexical _ hfound.errors) ?_
      rw [Parsed.map, List.map_map]
      exact alike_map fun e => .syntactic e.fault.message rfl
    obtain ⟨fault, errors, bs, hbound⟩ := bindProgram_uniform hφ.lexeme config.nesting
      (Stmt.relabelAll n parsed.program).1
    have hprogram : (Stmt.relabelAll n (parsed.map φ).program).1 =
        (Stmt.relabelAll n parsed.program).1.map (Stmt.map id φ) := by
      rw [Parsed.map, Stmt.relabelAll_map]
    simp only [Except.map]
    rw [isEmpty_eq_of_alike hreports, hprogram, (hbound .empty).1, (hbound .empty).2]
    split
    · split
      · exact .nil
      · rw [List.map_map]
        exact alike_map fun e => .scoping e.fault.message rfl
    · exact hreports

end

/-! ## Sessions that differ in lines -/

/-- The second session is the first one with changed tokens, as far as runs depend on it, and has
the same report of the running program. -/
structure Follows (φ : Token → Token) (s s' : Session) : Prop where
  machine : s'.machine = s.machine.map φ
  table : s'.table = s.table.map φ
  nextLabel : s'.nextLabel = s.nextLabel
  runtimeErrors : List.Forall₂ (Diagnostic.Alike fun t t' => t' = φ t) s.log.runtimeErrors
    s'.log.runtimeErrors

theorem follows_start (φ : Token → Token) (passesOn passesOn' : Bool) :
    (start passesOn).Follows φ (start passesOn') where
  machine := by
    rw [← Machine.change_ofToken]
    simp only [start, Machine.start, Machine.change, Store.change_push, Bindings.change_insert]
    simp [Store.empty, Store.change, Value.change]
  table := rfl
  nextLabel := rfl
  runtimeErrors := .nil

theorem runtimeErrors_reportAll {ds : List Diagnostic} (hds : ∀ d ∈ ds, d.isRuntime = false)
    (log : Log) : (log.reportAll ds).runtimeErrors = log.runtimeErrors := by
  induction ds generalizing log with
  | nil => rfl
  | cons d ds ih =>
    obtain ⟨hd, hds⟩ := List.forall_mem_cons.mp hds
    refine (ih hds _).trans ?_
    simp [Log.report, Log.write, hd]

section
variable {φ : Token → Token} {config : Config} {s s' : Session}

theorem Follows.reportAll (h : s.Follows φ s') {ds ds' : List Diagnostic}
    (hds : ∀ d ∈ ds, d.isRuntime = false) (hds' : ∀ d ∈ ds', d.isRuntime = false) :
    Session.Follows φ { s with log := s.log.reportAll ds }
      { s' with log := s'.log.reportAll ds' } where
  machine := h.machine
  table := h.table
  nextLabel := h.nextLabel
  runtimeErrors := by
    rw [runtimeErrors_reportAll hds, runtimeErrors_reportAll hds']
    exact h.runtimeErrors

theorem Follows.dropTopLevel (h : s.Follows φ s') : s.dropTopLevel.Follows φ s'.dropTopLevel where
  machine := h.machine
  table := by
    rw [Session.dropTopLevel, Session.dropTopLevel, h.table, BindingTable.dropTopLevel_map]
  nextLabel := h.nextLabel
  runtimeErrors := h.runtimeErrors

/-- A changed program binds as it does without the change. -/
theorem Follows.bind (hφ : Relines φ) (h : s.Follows φ s') (config : Config)
    (program : List (Stmt Label)) :
    let bound := s.bind config program
    let bound' := s'.bind config (program.map (Stmt.map id φ))
    bound'.1 = bound.1.map (ScopeError.map φ) ∧ bound'.2.1 = bound.2.1 ∧
      bound.2.2.Follows φ bound'.2.2 := by
  obtain ⟨fault, errors, bs, hbound⟩ := bindProgram_uniform hφ.lexeme config.nesting program
  unfold Session.bind
  rw [(hbound s.table).1, (hbound s'.table).2]
  refine ⟨rfl, rfl, h.machine, ?_, h.nextLabel, h.runtimeErrors⟩
  rw [h.table, BindingTable.recordAll_map]

/-- A changed program runs as it does without the change. -/
theorem Follows.execute (hφ : Relines φ) (h : s.Follows φ s') (config : Config)
    (program : List (Stmt Label)) :
    let done := s.executeVia Access.byHops config program
    let done' := s'.executeVia Access.byHops config (program.map (Stmt.map id φ))
    done'.1 = done.1.map (Option.map (RuntimeError.map φ)) ∧ done.2.Follows φ done'.2 := by
  have hsetting : Setting.Follows (.ofToken φ) "" ⟨.byHops s.table, config.clock, config.rounds⟩
      ⟨.byHops s'.table, config.clock, config.rounds⟩ :=
    ⟨Access.follows_byHops hφ.lawful fun label => by
      rw [h.table]
      exact BindingTable.hops?_map label s.table, rfl, rfl⟩
  have hrun : Machine.runProgram ⟨.byHops s'.table, config.clock, config.rounds⟩ config.nesting
      (program.map (Stmt.map id φ)) (s.machine.retold (.ofToken φ) "") = _ :=
    follows_runProgram hφ.lawful hsetting program s.machine
  rw [Machine.retold_ofToken, ← h.machine] at hrun
  unfold executeVia
  rw [hrun]
  cases Machine.runProgram ⟨.byHops s.table, config.clock, config.rounds⟩ config.nesting program
    s.machine with
  | ok a m => exact ⟨rfl, Machine.retold_ofToken m, h.table, h.nextLabel, h.runtimeErrors⟩
  | error halt m =>
    cases halt with
    | fault f => exact ⟨rfl, Machine.retold_ofToken m, h.table, h.nextLabel, h.runtimeErrors⟩
    | error e =>
      refine ⟨rfl, Machine.retold_ofToken m, h.table, h.nextLabel, ?_⟩
      exact List.rel_append h.runtimeErrors (.cons (.runtime e.fault.message rfl) .nil)

/-- Some of the scope errors are reported if there are some. -/
theorem hasError_reportAll_scoping {log : Log} (hlog : log.errors = []) (errors : List ScopeError) :
    (log.reportAll (errors.map ScopeError.diagnostic)).hasError = !errors.isEmpty := by
  rw [Log.hasError, Log.errors_reportAll fun _ hd => isRuntime_of_mem_scoping errors hd, hlog,
    List.nil_append, List.isEmpty_map]

/-- What is told of the end of an execution. -/
def endOf : Except Fault (Option RuntimeError) × Session → Option Fault × Session
  | (.ok _, s) => (none, s)
  | (.error f, s) => (some f, s)

theorem follows_endOf {x x' : Except Fault (Option RuntimeError) × Session}
    (hend : x'.1 = x.1.map (Option.map (RuntimeError.map φ))) (h : x.2.Follows φ x'.2) :
    (endOf x').1 = (endOf x).1 ∧ (endOf x).2.Follows φ (endOf x').2 := by
  obtain ⟨result, t⟩ := x
  obtain ⟨result', t'⟩ := x'
  obtain rfl : result' = _ := hend
  cases result <;> exact ⟨rfl, h⟩

/-- Binding and execution of a changed program do what they do without the change. -/
theorem Follows.bindAndExecute (hφ : Relines φ) (h : s.Follows φ s') (hs : s.log.errors = [])
    (hs' : s'.log.errors = []) (config : Config) (program : List (Stmt Label)) :
    let done := s.bindAndExecute Access.byHops config program
    let done' := s'.bindAndExecute Access.byHops config (program.map (Stmt.map id φ))
    done'.1 = done.1 ∧ done.2.Follows φ done'.2 := by
  have hkept : ∀ program (s : Session), (s.bind config program).2.2.log = s.log := fun _ _ => rfl
  have hlog := (congrArg Log.errors (hkept program s)).trans hs
  have hlog' := (congrArg Log.errors (hkept (program.map (Stmt.map id φ)) s')).trans hs'
  obtain ⟨herrors, hfault, hbound⟩ := h.bind hφ config program
  unfold Session.bindAndExecute
  rcases hb : s.bind config program with ⟨errors, fault, t⟩
  rcases hb' : s'.bind config (program.map (Stmt.map id φ)) with ⟨errors', fault', t'⟩
  simp only [hb, hb'] at hlog hlog' herrors hfault hbound
  subst herrors hfault
  cases fault' with
  | some f => exact ⟨rfl, hbound⟩
  | none =>
    have hreported := hbound.reportAll (fun _ => isRuntime_of_mem_scoping errors)
      fun _ => isRuntime_of_mem_scoping (errors.map (ScopeError.map φ))
    dsimp only
    rw [hasError_reportAll_scoping hlog, hasError_reportAll_scoping hlog', List.isEmpty_map]
    cases errors.isEmpty with
    | false => exact ⟨rfl, hreported⟩
    | true =>
      obtain ⟨hend, hdone⟩ := hreported.execute hφ config program
      exact follows_endOf hend hdone

/-- There are lexical or syntactic reports if something is wrong with the tokens or their order. -/
theorem hasError_reportAll_reports (log : Log) (lexical : List LexicalError)
    (syntactic : List SyntaxError) :
    (log.clear.reportAll (lexical.map LexicalError.diagnostic ++
      syntactic.map SyntaxError.diagnostic)).hasError =
      !(lexical.isEmpty && syntactic.isEmpty) := by
  have hclear : log.clear.errors = [] := rfl
  rw [Log.hasError, Log.errors_reportAll fun _ => isRuntime_of_mem_reports lexical syntactic, hclear,
    List.nil_append]
  cases lexical <;> cases syntactic <;> rfl

theorem errors_eq_nil_of_reports (log : Log) {lexical : List LexicalError}
    {syntactic : List SyntaxError} (h : (lexical.isEmpty && syntactic.isEmpty) = true) :
    (log.clear.reportAll (lexical.map LexicalError.diagnostic ++
      syntactic.map SyntaxError.diagnostic)).errors = [] := by
  obtain ⟨hlexical, hsyntactic⟩ := Bool.and_eq_true_iff.mp h
  rw [List.isEmpty_iff.mp hlexical, List.isEmpty_iff.mp hsyntactic]
  rfl

/-- **A run of changed tokens does what the run of the tokens does**, in a session that differs in
lines. -/
theorem Follows.runTokens (hφ : Relines φ) (h : s.Follows φ s') (config : Config)
    {found found' : Tokenized} (hfound : found.Follows φ found') :
    (s'.runTokens config found').1 = (s.runTokens config found).1 ∧
      (s.runTokens config found).2.Follows φ (s'.runTokens config found').2 := by
  have hclear : Session.Follows φ { s with log := s.log.clear } { s' with log := s'.log.clear } :=
    ⟨h.machine, h.table, h.nextLabel, .nil⟩
  have hparse := parse_map hφ.kind hφ.literal config.nesting found.tokens
  unfold Session.runTokens
  rw [hfound.tokens, hparse]
  cases parse config.nesting found.tokens with
  | error f => exact ⟨rfl, hclear⟩
  | ok parsed =>
    have hreported := hclear.reportAll
      (fun _ => isRuntime_of_mem_reports found.errors parsed.errors)
      fun _ => isRuntime_of_mem_reports found'.errors (parsed.map φ).errors
    have hnone := hfound.isEmpty_eq parsed
    simp only [Except.map]
    rw [hasError_reportAll_reports, hasError_reportAll_reports, hnone]
    cases hwrong : (found.errors.isEmpty && parsed.errors.isEmpty) with
    | false => exact ⟨rfl, hreported⟩
    | true =>
      rw [if_neg (by decide), if_neg (by decide)]
      have hadopt : (parsed.map φ).program = parsed.program.map (Stmt.map id φ) := rfl
      unfold adopt
      rw [hadopt, Stmt.relabelAll_map, h.nextLabel]
      have hadopted : Session.Follows φ
          ⟨s.machine, s.table, (Stmt.relabelAll s.nextLabel parsed.program).2, _⟩
          ⟨s'.machine, s'.table, (Stmt.relabelAll s.nextLabel parsed.program).2, _⟩ :=
        ⟨h.machine, h.table, rfl, hreported.runtimeErrors⟩
      obtain ⟨hfault, hdone⟩ := hadopted.bindAndExecute hφ
        (errors_eq_nil_of_reports s.log hwrong)
        (errors_eq_nil_of_reports s'.log (hnone.trans hwrong)) config
        (Stmt.relabelAll s.nextLabel parsed.program).1
      exact ⟨hfault, hdone.dropTopLevel⟩

end

end Session
end LoxLang
