import LoxLang.Proofs.Machine.Renamed
import LoxLang.Proofs.Scope.LocalVariable
import LoxLang.Proofs.Session.Joining

/-! # Local variables can be renamed

In a session that any runs have led to, let a source be accepted and its program break no rule about
names.  Give one of its local variables or parameters a name that the program does not use.  The
binding pass then leads every reference as many scopes out as before, and the program prints the
same and ends in the same way (`execute_renameLocal`): two machines that run the two programs side
by side differ in nothing but names of variables. -/

namespace LoxLang

/-- What a runtime error tells: its message and its line. -/
def RuntimeError.told (e : RuntimeError) : String × Int := (e.diagnostic.message, e.diagnostic.line)

namespace Session

/-- A session with other bindings. -/
def withTable (table : BindingTable) (s : Session) : Session := { s with table := table }

/-- Executions that end alike print the same and end with the same fault, with runtime errors that
tell the same, or with neither. -/
theorem executeVia_endsAlike {access : BindingTable → Access} {config : Config}
    {program program' : List (Stmt Label)} {s s' : Session} {r : Renaming} {marks : Marks}
    {P : Marks → Unit → Unit → Prop}
    (h : EndsAlike r marks P
      (Machine.runProgram ⟨access s.table, config.clock, config.rounds⟩ config.nesting program
        s.machine)
      (Machine.runProgram ⟨access s'.table, config.clock, config.rounds⟩ config.nesting program'
        s'.machine))
    (hlegal : ∀ halt m, Machine.runProgram ⟨access s.table, config.clock, config.rounds⟩
      config.nesting program s.machine = .error halt m → halt.Legal) :
    let ended := s.executeVia access config program
    let ended' := s'.executeVia access config program'
    ended'.2.machine.output = ended.2.machine.output ∧
      ended'.1.map (Option.map RuntimeError.told) = ended.1.map (Option.map RuntimeError.told) := by
  intro ended ended'
  simp only [ended, ended', executeVia]
  generalize hran : Machine.runProgram ⟨access s.table, config.clock, config.rounds⟩
    config.nesting program s.machine = ran at h hlegal ⊢
  generalize Machine.runProgram ⟨access s'.table, config.clock, config.rounds⟩
    config.nesting program' s'.machine = ran' at h ⊢
  cases h with
  | ok _ hm _ => exact ⟨hm.output, rfl⟩
  | error hm hhalt =>
    cases hhalt with
    | @error fault place place' hplace =>
      have hline : place'.line = place.line := hplace
      refine ⟨hm.output, ?_⟩
      simp [Except.map, RuntimeError.told, RuntimeError.diagnostic, Diagnostic.message,
        Diagnostic.line, hline]
    | fault f => exact ⟨hm.output, rfl⟩
    | missingName name name' =>
      rcases hlegal _ _ rfl with hfault | hfault <;> cases hfault

/-- A program without broken rules ends with a result, with a runtime error or at a limit. -/
theorem legal_of_executed {config : Config} {program : List (Stmt Unit)} {s : Session}
    (hs : s.Sound .nothing) (hwf : ∀ st ∈ program, st.WellFormed)
    (hbinds : s.Binds config program) {halt : Halt} {m : Machine}
    (h : s.executed config program = .error halt m) : halt.Legal := by
  obtain ⟨_, _, hruns⟩ := hs.runs_executed (.refl _) hwf hbinds (met_nothing _)
  rw [executed] at h
  rw [h] at hruns
  exact hruns.1

/-- **Local variables can be renamed.**  In a session that any runs have led to, let a source be
accepted and bound without errors, and let a local variable or parameter of its program get a name
that the program neither declares nor refers to, together with the references that lead to its scope
under its name.  All other local variables have the names they had, whatever these are.  The program
that comes of it is bound without errors, each reference leading as many scopes out as before; and
executed on the same machine, with the same clock, it prints the same and ends like the program
itself: with no error, with a runtime error of the same message on the same line, or at the same
limit. -/
theorem execute_renameLocal (passesOn : Bool) (history : List (Config × String)) (config : Config)
    (source : String) (program : List (Stmt Unit)) {s : Session}
    (hs : ((start passesOn).runSources history).2 = s)
    (haccepted : Accepted config source program) (hbinds : s.Binds config program) :
    let labelled := (Stmt.relabelAll s.nextLabel program).1
    let found := bindProgram config.nesting labelled s.table
    ∀ v ∈ localVariables labelled, ∀ new, new ∉ Stmt.namesAll labelled → new ≠ "this" →
      new ≠ "super" →
        let renamed := renameLocal found.table v new labelled
        let found' := bindProgram config.nesting renamed s.table
        let ended := (s.withTable found.table).execute config labelled
        let ended' := (s.withTable found'.table).execute config renamed
        localVariables renamed = (localVariables labelled).map (v.renamed new) ∧
          (found'.fault = none ∧ found'.errors = [] ∧
            ∀ label, found'.table.hops? label = found.table.hops? label) ∧
          ended'.2.machine.output = ended.2.machine.output ∧
          ended'.1.map (Option.map RuntimeError.told) =
            ended.1.map (Option.map RuntimeError.told) := by
  intro labelled found v hv new hnew hthis hsuper renamed found' ended ended'
  have hsound : s.Sound .nothing := hs ▸ ((sound_start _ passesOn).runSources history).2
  have hwf := Stmt.wellFormed_relabelAll (n := s.nextLabel) haccepted.wellFormed
  have hready := readyAll_of_bound hsound.table haccepted.wellFormed hbinds.errors
    (met_nothing _)
  have hfound : found = ⟨s.boundTable program, [], none⟩ := hbinds.bind_eq haccepted.wellFormed
  have hfits : found.table.Fits (visitProgram labelled) := by
    rw [hfound]
    exact fun u hu => (recorded_of_visitProgram hsound.table program hu).hops_eq
  have hnames : ∀ name ∈ Stmt.namesAll labelled, name ≠ new :=
    fun name hname heq => hnew (heq ▸ hname)
  -- an exchange of the two names is one-to-one on all names, the unused ones included
  have hapart : (Renaming.exchanging found.table v.name.lexeme new).Apart (· ≠ new) :=
    Renaming.apart_exchanging (isName_of_localVariables hwf v hv) ⟨hthis, hsuper⟩
  have hrenamed : Stmt.RenamedAll (.exchanging found.table v.name.lexeme new) [] labelled renamed :=
    renamed_renameLocal hready hv hnew
  obtain ⟨hfault, herrors, hhops⟩ :=
    bindProgram_renamed hapart hwf hrenamed hnames hfits hbinds.fault
  have hnone : found.errors = [] := by rw [hfound]
  rw [hnone, List.map_nil, List.map_eq_nil_iff] at herrors
  refine ⟨localVariables_renameLocal found.table v new labelled, ⟨hfault, herrors, hhops⟩, ?_⟩
  -- nothing that the machine holds from earlier runs has names that change
  obtain ⟨W, hmachine⟩ := hsound.machine
  have halike : EndsAlike (.exchanging found.table v.name.lexeme new)
      (List.replicate W.length false) (fun _ _ _ => True)
      (Machine.runProgram ⟨.byHops found.table, config.clock, config.rounds⟩ config.nesting
        labelled s.machine)
      (Machine.runProgram ⟨.byHops found'.table, config.clock, config.rounds⟩ config.nesting
        renamed s.machine) := by
    rw [Access.byHops_congr hhops]
    exact endsAlike_runProgram hapart.lawful config.clock config.rounds config.nesting
      (hmachine.alike_self _) hwf hrenamed
  refine executeVia_endsAlike halike fun halt m hran => ?_
  have hexecuted : s.executed config program = .error halt m := by
    rw [hfound] at hran
    exact hran
  exact legal_of_executed hsound haccepted.wellFormed hbinds hexecuted

/-- The program of a source text that is the first of a session, with its labels. -/
def firstProgram (config : Config) (source : String) : List (Stmt Label) :=
  match parse config.nesting (Source.tokenize source).tokens with
  | .ok parsed => (Stmt.relabelAll 0 parsed.program).1
  | .error _ => []

theorem firstProgram_eq {config : Config} {source : String} {program : List (Stmt Unit)}
    (h : Accepted config source program) (passesOn : Bool) :
    firstProgram config source = (Stmt.relabelAll (start passesOn).nextLabel program).1 := by
  rw [firstProgram, h.2]
  rfl

/-- A parameter between a global variable and one of a block, all three of one name; a function
keeps the parameter and changes it. -/
def shadowingSource : String :=
  "var x = \"out\"; \x7b fun f(x) \x7b \x7b var x = \"in\"; print x; \x7d " ++
    "fun g() \x7b return x = x + \"s\"; \x7d return g; \x7d print f(\"at\")(); \x7d print -x;"

theorem execute_renameLocal_shadowing :
    ∃ program, ((start true).runSources []).2 = start true ∧
      Accepted shortly shadowingSource program ∧ (start true).Binds shortly program ∧
      let labelled := (Stmt.relabelAll (start true).nextLabel program).1
      let found := bindProgram shortly.nesting labelled (start true).table
      ∃ v ∈ localVariables labelled, v.path = [1, 0] ∧ v.name.lexeme = "x" ∧
        "y" ∉ Stmt.namesAll labelled ∧ "y" ≠ "this" ∧ "y" ≠ "super" ∧
          let renamed := renameLocal found.table v "y" labelled
          let found' := bindProgram shortly.nesting renamed (start true).table
          let ended' := ((start true).withTable found'.table).execute shortly renamed
          found'.errors = [] ∧ ended'.2.machine.output = "in\nats\n" ∧
            ended'.1.map (Option.map RuntimeError.told) =
              .ok (some ("Operand must be a number.", 1)) := by
  have hthrough : ((start true).run shortly shadowingSource).1 = none := by decide +kernel
  obtain ⟨program, haccepted, hbinds⟩ := accepted_of_through hthrough (by decide +kernel)
  have hany : (localVariables (firstProgram shortly shadowingSource)).any
      (fun v => v.path == [1, 0] && v.name.lexeme == "x") = true := by decide +kernel
  have hnew : "y" ∉ Stmt.namesAll (firstProgram shortly shadowingSource) := by decide +kernel
  have hthis : "y" ≠ "this" := by decide
  have hsuper : "y" ≠ "super" := by decide
  have hended : let labelled := firstProgram shortly shadowingSource
      let found := bindProgram shortly.nesting labelled (start true).table
      let ended := ((start true).withTable found.table).execute shortly labelled
      ended.2.machine.output = "in\nats\n" ∧ ended.1.map (Option.map RuntimeError.told) =
        .ok (some ("Operand must be a number.", 1)) := by
    decide +kernel
  rw [firstProgram_eq haccepted true] at hany hnew hended
  obtain ⟨v, hv, hfound⟩ := List.any_eq_true.mp hany
  obtain ⟨hpath, hname⟩ := Bool.and_eq_true_iff.mp hfound
  obtain ⟨_, ⟨_, herrors, _⟩, houtput, hending⟩ := execute_renameLocal true [] shortly
    shadowingSource program (s := start true) rfl haccepted hbinds v hv "y" hnew hthis hsuper
  exact ⟨program, rfl, haccepted, hbinds, v, hv, eq_of_beq hpath, eq_of_beq hname, hnew, hthis,
    hsuper, herrors, houtput.trans hended.1, hending.trans hended.2⟩

end Session
end LoxLang
