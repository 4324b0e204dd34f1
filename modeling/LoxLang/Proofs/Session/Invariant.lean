import LoxLang.Proofs.Grammar.Soundness
import LoxLang.Proofs.Machine.Lockstep
import LoxLang.Proofs.Scope.Recorded
import LoxLang.Proofs.Source.Spelling
import LoxLang.Session

/-! # What a session keeps

Between two runs of a session the table has the bindings of all references inside the functions
that the machine holds, and the machine is in order.  Every run keeps this up, also one that ends
early or that is cut off, and it does the same whether references are reached by the hops in the
table or in another way that agrees. -/

namespace LoxLang

/-! ## The log -/

namespace Log

theorem errors_report {d : Diagnostic} (hd : d.isRuntime = false) (log : Log) :
    (log.report d).errors = log.errors ++ [d] := by
  simp [report, write, hd]

theorem errors_reportAll {ds : List Diagnostic} (hds : ∀ d ∈ ds, d.isRuntime = false) (log : Log) :
    (log.reportAll ds).errors = log.errors ++ ds := by
  induction ds generalizing log with
  | nil => exact (List.append_nil _).symm
  | cons d ds ih =>
    obtain ⟨hd, hds⟩ := List.forall_mem_cons.mp hds
    refine (ih hds _).trans ?_
    rw [errors_report hd, List.append_assoc]
    rfl

/-- Reports made before execution are errors. -/
theorem eq_nil_of_hasError {ds : List Diagnostic} (hds : ∀ d ∈ ds, d.isRuntime = false) {log : Log}
    (h : (log.reportAll ds).hasError = false) : ds = [] := by
  rw [hasError, errors_reportAll hds] at h
  simp only [Bool.not_eq_false', List.isEmpty_iff, List.append_eq_nil_iff] at h
  exact h.2

end Log

/-! ## Reading a source -/

/-- A source text is accepted before names are looked at, and has the program. -/
def Accepted (config : Config) (source : String) (program : List (Stmt Unit)) : Prop :=
  (Source.tokenize source).errors = [] ∧
    parse config.nesting (Source.tokenize source).tokens = .ok ⟨program, []⟩

/-- An accepted source text has one program. -/
theorem Accepted.unique {config : Config} {source : String} {program program' : List (Stmt Unit)}
    (h : Accepted config source program) (h' : Accepted config source program') :
    program = program' := by
  have hparse := h.2.symm.trans h'.2
  cases hparse
  rfl

theorem Accepted.wellFormed {config : Config} {source : String} {program : List (Stmt Unit)}
    (h : Accepted config source program) : ∀ s ∈ program, s.WellFormed :=
  wellFormed_of_parse h.2

namespace Session

/-- Reading a source text only changes the log; it stops only at the limit of nesting, and yields a
program only of a source that is accepted. -/
theorem read_cases (config : Config) (source : String) (s : Session) :
    s.read config source = (.error .tooDeep, s) ∨
      ∃ log, (s.read config source = (.ok none, { s with log := log }) ∧ log.hasError) ∨
        ∃ program, s.read config source = (.ok (some program), { s with log := log }) ∧
          log.hasError = false ∧ Accepted config source program := by
  unfold read
  dsimp only
  split
  · rename_i f hf
    rw [eq_tooDeep_of_parse (Source.hasEnd_tokenize source) hf]
    exact .inl rfl
  · rename_i parsed hparsed
    obtain ⟨program, errors⟩ := parsed
    refine .inr ⟨s.log.reportAll ((Source.tokenize source).errors.map LexicalError.diagnostic ++
      errors.map SyntaxError.diagnostic), ?_⟩
    split
    · exact .inl ⟨rfl, ‹_›⟩
    · rename_i h
      have hnone := Log.eq_nil_of_hasError (fun d hd => ?_) (eq_false_of_ne_true h)
      · simp only [List.append_eq_nil_iff, List.map_eq_nil_iff] at hnone
        obtain ⟨hlexical, rfl⟩ := hnone
        exact .inr ⟨program, rfl, eq_false_of_ne_true h, hlexical, hparsed⟩
      · rcases List.mem_append.mp hd with hd | hd
        · obtain ⟨e, _, rfl⟩ := List.mem_map.mp hd
          rfl
        · obtain ⟨e, _, rfl⟩ := List.mem_map.mp hd
          rfl

/-! ## Between runs -/

/-- What a session knows of the functions that its machine holds. -/
def Asked (E : Demand Label) (s : Session) : Demand Label :=
  E.also (s.table.Recorded s.nextLabel)

/-- The table has the bindings of the references in the functions that the machine holds, all of
which meet a further demand `E`, and the machine is in order. -/
structure Sound (E : Demand Label) (s : Session) : Prop where
  table : s.table.Below s.nextLabel
  machine : ∃ W, s.machine.Sound (s.Asked E) W

theorem sound_start (E : Demand Label) (passesOn : Bool) : (start passesOn).Sound E :=
  ⟨List.forall_mem_nil _, _, Machine.sound_start _⟩

/-- A fault that only a limit of the session causes. -/
def Legal (fault : Option Fault) : Prop :=
  fault = none ∨ fault = some .tooDeep ∨ fault = some .outOfRounds

section
variable {E : Demand Label} {other : BindingTable → Access} {config : Config} {s : Session}

/-- What a machine holds stays in order when the bindings of references outside functions are
dropped. -/
theorem sound_dropTopLevel {T : BindingTable} {n : Label} {m : Machine} {W : Plan}
    (hm : m.Sound (E.also (T.Recorded n)) W) : m.Sound (E.also (T.dropTopLevel.Recorded n)) W :=
  hm.imp (.also (fun _ hu h => h.dropTopLevel hu) E)

/-- A table agrees with itself on the references that it has the bindings of. -/
theorem agrees_recorded (E : Demand Label) (T : BindingTable) (n : Label) :
    Access.Agrees (E.also (T.Recorded n)) T (Access.byHops T) :=
  Access.agrees_byHops (fun _ h => h.1.hops_eq) fun _ h => h.1.hops_eq

/-- Execution in a way that agrees with the table does the same as by the table. -/
theorem executeVia_inStep (config : Config) (s : Session) {Q : Demand Label} {W : Plan}
    (hother : Access.Agrees Q s.table (other s.table)) {program : List (Stmt Label)}
    (hprogram : Stmt.ReadyAll Q ⟨.outside, .outside⟩ [] program) (hs : s.machine.Sound Q W) :
    ∃ result m log, s.execute config program = (result, { s with machine := m, log := log }) ∧
      s.executeVia other config program = (result, { s with machine := m, log := log }) ∧
      (∀ f, result = .error f → Legal (some f)) ∧ ∃ W', m.Sound Q W' := by
  have hruns : Runs Q W s.machine
      (Machine.runProgram ⟨.byHops s.table, config.clock, config.rounds⟩ config.nesting program)
      (Machine.runProgram ⟨other s.table, config.clock, config.rounds⟩ config.nesting program)
      fun _ _ _ => True := runs_runProgram hother config.nesting hs hprogram
  obtain ⟨heq, hruns⟩ := hruns
  unfold execute executeVia
  rw [heq]
  split at hruns
  · rename_i m hx
    obtain ⟨W', _, hm, _⟩ := hruns
    rw [hx]
    exact ⟨_, m, s.log, rfl, rfl, nofun, W', hm⟩
  · rename_i h m hx
    obtain ⟨hlegal, W', hm⟩ := hruns
    rw [hx]
    cases h with
    | error e => exact ⟨_, m, _, rfl, rfl, nofun, W', hm⟩
    | fault f =>
      refine ⟨_, m, s.log, rfl, rfl, ?_, W', hm⟩
      rintro _ ⟨⟩
      exact .inr (hlegal.imp (congrArg some) (congrArg some))

/-- What is asked of a program holds of its references, and of all spots to which the binding pass
comes in it. -/
structure Met (E : Demand Label) (program : List (Stmt Label)) : Prop where
  use : ∀ u, .use u ∈ visitProgram program → E u
  covers : ∀ p ∈ Stmt.spotsAll ⟨.outside, .outside⟩ [] program, E.Covers p

theorem met_ofUses {P : Use Label → Prop} {program : List (Stmt Label)}
    (h : ∀ u, .use u ∈ visitProgram program → P u) : Met (.ofUses P) program :=
  ⟨h, fun p _ => Demand.covers_ofUses P p⟩

theorem met_nothing (program : List (Stmt Label)) : Met .nothing program :=
  met_ofUses fun _ _ => trivial

/-- A labelled program without errors is ready, given what is further asked of it. -/
theorem readyAll_of_bound {T : BindingTable} {n : Label} (hT : T.Below n)
    {program : List (Stmt Unit)} (hwf : ∀ s ∈ program, s.WellFormed)
    (herrors : (visitProgram (Stmt.relabelAll n program).1).filterMap Finding.error? = [])
    (hE : Met E (Stmt.relabelAll n program).1) :
    Stmt.ReadyAll
      (E.also ((T.recordAll ((visitProgram (Stmt.relabelAll n program).1).filterMap
        Finding.binding?)).Recorded (Stmt.relabelAll n program).2))
      ⟨.outside, .outside⟩ [] (Stmt.relabelAll n program).1 := by
  refine ⟨Stmt.wellFormed_relabelAll hwf, fun f hf => ?_, nofun, hE.covers⟩
  cases f with
  | use u => exact ⟨recorded_of_visitProgram hT program hf, hE.use u hf⟩
  | error e =>
    have he : e ∈ (visitProgram (Stmt.relabelAll n program).1).filterMap Finding.error? :=
      List.mem_filterMap.mpr ⟨_, hf, rfl⟩
    rw [herrors] at he
    cases he

/-- **A run keeps a session in order**, stops for nothing but a limit, and does the same in another
way to reach variables that agrees. -/
theorem runVia_inStep
    (hother : ∀ T n, Access.Agrees (E.also (BindingTable.Recorded T n)) T (other T))
    (hs : s.Sound E) {source : String}
    (hE : ∀ program, Accepted config source program →
      (bindProgram config.nesting (Stmt.relabelAll s.nextLabel program).1 s.table).fault = none →
      (visitProgram (Stmt.relabelAll s.nextLabel program).1).filterMap Finding.error? = [] →
      Met E (Stmt.relabelAll s.nextLabel program).1) :
    s.runVia other config source = s.run config source ∧ Legal (s.run config source).1 ∧
      (s.run config source).2.Sound E := by
  unfold run runVia
  rcases read_cases config source { s with log := s.log.clear } with
    hread | ⟨log, ⟨hread, _⟩ | hread⟩
  · rw [hread]
    exact ⟨rfl, .inr (.inl rfl), hs.table, hs.machine⟩
  · rw [hread]
    exact ⟨rfl, .inl rfl, hs.table, hs.machine⟩
  obtain ⟨program, hread, hlog, haccepted⟩ := hread
  rw [hread]
  obtain ⟨W, hmachine⟩ := hs.machine
  have hwf := Stmt.wellFormed_relabelAll (n := s.nextLabel) haccepted.wellFormed
  obtain ⟨gs, _, htable, hfault⟩ := bindProgram_spec (Stmt.known_of_wellFormed hwf)
    config.nesting s.table
  obtain ⟨hbelow, hrecorded⟩ :=
    recorded_of_bindProgram hs.table haccepted.wellFormed config.nesting
  have hbelow := hbelow.dropTopLevel
  have hbound : s.machine.Sound (E.also ((bindProgram config.nesting
      (Stmt.relabelAll s.nextLabel program).1 s.table).table.Recorded
        (Stmt.relabelAll s.nextLabel program).2)) W :=
    hmachine.imp (.also (fun u _ h => hrecorded u h) E)
  simp only [adopt, bindAndExecute, bind]
  rw [htable] at hbelow hbound ⊢
  cases hf : (bindProgram config.nesting (Stmt.relabelAll s.nextLabel program).1 s.table).fault with
  -- the pass has stopped on its way, and what it has bound is as good as if it had not
  | some f =>
    rw [hf] at hfault
    obtain rfl : f = .tooDeep := hfault
    exact ⟨rfl, .inr (.inl rfl), hbelow, W, sound_dropTopLevel hbound⟩
  | none =>
    rw [hf] at hfault
    obtain ⟨rfl, herrors⟩ := hfault
    dsimp only
    split
    · exact ⟨rfl, .inl rfl, hbelow, W, sound_dropTopLevel hbound⟩
    · rename_i hlog'
      -- the pass has reported nothing, so the program runs with what it has bound
      have hnone := Log.eq_nil_of_hasError (fun d hd => ?_) (eq_false_of_ne_true hlog')
      · have hclean : (visitProgram (Stmt.relabelAll s.nextLabel program).1).filterMap
            Finding.error? = [] := herrors.symm.trans (List.map_eq_nil_iff.mp hnone)
        have hready := readyAll_of_bound hs.table haccepted.wellFormed hclean
          (hE program haccepted hf hclean)
        obtain ⟨result, m, log', hexec, hvia, hlegal, W', hm⟩ := executeVia_inStep config
          ⟨s.machine, s.table.recordAll ((visitProgram
              (Stmt.relabelAll s.nextLabel program).1).filterMap Finding.binding?),
            (Stmt.relabelAll s.nextLabel program).2,
            log.reportAll ((bindProgram config.nesting (Stmt.relabelAll s.nextLabel program).1
              s.table).errors.map ScopeError.diagnostic)⟩
          (hother _ _) hready hbound
        rw [execute] at hexec
        rw [hexec, hvia]
        cases result with
        | ok result => exact ⟨rfl, .inl rfl, hbelow, W', sound_dropTopLevel hm⟩
        | error f => exact ⟨rfl, hlegal f rfl, hbelow, W', sound_dropTopLevel hm⟩
      · obtain ⟨e, _, rfl⟩ := List.mem_map.mp hd
        rfl

end

end Session

end LoxLang
