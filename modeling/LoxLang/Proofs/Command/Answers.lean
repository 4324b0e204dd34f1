import LoxLang.Command.Console
import LoxLang.Proofs.Session.Moments
import LoxLang.Proofs.Session.Remains

/-! # How the console answers

A source that is processed in run mode ends as its run does (`Verdict`), and that decides what is
passed on as reports and how the command would exit: with all that is wrong with the source, with the
one runtime error that ended it, with the notice of too deep a nesting, or with nothing.  This holds
in every session that source texts have led to, in whatever modes these were processed and whatever
became of them (`Reached`); the session is then in order, and its log plays no part.

A loop that goes round more often than the limit breaks the processing off, which is no answer.  The
limit shows in nothing else: an answer that is reached under some limit is the answer under every
higher one (`process_of_rounds`). -/

namespace LoxLang

/-- Reports as they are passed on. -/
def Diagnostic.renderAll (ds : List Diagnostic) : String :=
  String.join (ds.map fun d => d.render ++ "\n")

theorem Log.written_report (d : Diagnostic) (log : Log) :
    (log.report d).written = log.written.map (· ++ (d.render ++ "\n")) := by
  unfold report
  cases d.isRuntime <;> rfl

/-- A log passes on all that is reported to it, in the same order. -/
theorem Log.written_reportAll (ds : List Diagnostic) (log : Log) :
    (log.reportAll ds).written = log.written.map (· ++ Diagnostic.renderAll ds) := by
  induction ds generalizing log with
  | nil =>
    have hnothing : (· ++ Diagnostic.renderAll []) = (id : String → String) :=
      funext fun text => String.append_empty
    rw [hnothing, Option.map_id]
    rfl
  | cons d ds ih =>
    refine (ih (log.report d)).trans ?_
    rw [written_report, Option.map_map]
    refine congrArg (Option.map · log.written) (funext fun text => ?_)
    simp [Diagnostic.renderAll, String.append_assoc]

namespace Verdict

/-- How the command would exit. -/
def exit : Verdict → Exit
  | rejected _ => .badInput
  | failed _ | cutOff .tooDeep => .failure
  | cutOff f => .brokenOff f
  | finished => .success

/-- What is passed on as reports. -/
def notice : Verdict → String
  | rejected ds => Diagnostic.renderAll ds
  | failed e => Diagnostic.renderAll [e.diagnostic]
  | cutOff .tooDeep => Console.overflowNotice
  | cutOff _ | finished => ""

/-- Two runs end in the same one of the four ways, or are broken off by the same. -/
def Alike : Verdict → Verdict → Prop
  | rejected _, rejected _ | failed _, failed _ | finished, finished => True
  | cutOff f, cutOff f' => f' = f
  | _, _ => False

/-- Too deep a nesting has a notice, and any other fault breaks off. -/
theorem cutOff_cases (f : Fault) :
    f = .tooDeep ∨ (cutOff f).exit = .brokenOff f ∧ (cutOff f).notice = "" := by
  cases f with
  | tooDeep => exact .inl rfl
  | _ => exact .inr ⟨rfl, rfl⟩

/-- A runtime error does not look like the notice of a limit. -/
theorem notice_failed_ne (e : RuntimeError) : (failed e).notice ≠ Console.overflowNotice := by
  intro h
  have hends : (failed e).notice.toList.reverse[1]? = some ']' := by
    simp [notice, Diagnostic.renderAll, RuntimeError.diagnostic, Diagnostic.render]
  rw [h] at hends
  exact absurd hends (by decide)

/-- The exit and the reports together show in which of the four ways a run has ended. -/
theorem alike_of_observed {v v' : Verdict} (hexit : v'.exit = v.exit)
    (hnotice : v'.notice = v.notice) : v.Alike v' := by
  -- what is broken off shows by its exit, and of the rest only two ways to fail need the notice
  have hbroken : ∀ {f v}, (cutOff f).exit = exit v → f = .tooDeep ∨ v = cutOff f := by
    intro f v hexit
    rcases cutOff_cases f with hf | ⟨hf, _⟩
    · exact .inl hf
    · rw [hf] at hexit
      cases v with
      | cutOff f' =>
        rcases cutOff_cases f' with rfl | ⟨hf', _⟩
        · cases hexit
        · rw [hf'] at hexit
          cases hexit
          exact .inr rfl
      | rejected _ | failed _ | finished => cases hexit
  cases v with
  | cutOff f =>
    rcases hbroken hexit.symm with rfl | rfl
    · cases v' with
      | cutOff f' => exact (hbroken hexit).elim id fun h => by cases h; rfl
      | failed e => exact absurd hnotice (notice_failed_ne e)
      | rejected _ | finished => cases hexit
    · rfl
  | failed e =>
    cases v' with
    | cutOff f =>
      rcases hbroken hexit with rfl | h
      · exact absurd hnotice.symm (notice_failed_ne e)
      · cases h
    | failed e' => trivial
    | rejected _ | finished => cases hexit
  | rejected _ | finished =>
    cases v' with
    | cutOff f =>
      rcases hbroken hexit with rfl | h
      · cases hexit
      · cases h
    | rejected _ | failed _ | finished => trivial

end Verdict

/-! ## Sessions at the console -/

namespace Session

/-- From one session to the other nothing has happened but printing and reporting. -/
structure Idle (s s' : Session) : Prop where
  machine : ∃ output, s'.machine = { s.machine with output := output }
  table : s'.table = s.table
  nextLabel : s'.nextLabel = s.nextLabel

namespace Idle

variable {s s' s'' : Session}

theorem refl (s : Session) : s.Idle s := ⟨⟨s.machine.output, rfl⟩, rfl, rfl⟩

theorem trans (h : s.Idle s') (h' : s'.Idle s'') : s.Idle s'' := by
  obtain ⟨output, hmachine⟩ := h'.machine
  obtain ⟨_, hmachine'⟩ := h.machine
  refine ⟨⟨output, ?_⟩, h'.table.trans h.table, h'.nextLabel.trans h.nextLabel⟩
  rw [hmachine, hmachine']

theorem print (s : Session) (text : String) : s.Idle (s.print text) := ⟨⟨_, rfl⟩, rfl, rfl⟩

theorem log (s : Session) (log : Log) : s.Idle { s with log := log } := ⟨⟨_, rfl⟩, rfl, rfl⟩

theorem drain (s : Session) : s.Idle s.drain.2 := ⟨⟨_, rfl⟩, rfl, rfl⟩

theorem sound (h : s.Idle s') {E : Demand Label} (hs : s.Sound E) : s'.Sound E := by
  obtain ⟨output, hmachine⟩ := h.machine
  obtain ⟨W, hm⟩ := hs.machine
  have hasked : s'.Asked E = s.Asked E := by
    unfold Asked
    rw [h.table, h.nextLabel]
  refine ⟨?_, W, ?_⟩
  · rw [h.table, h.nextLabel]
    exact hs.table
  · rw [hasked, hmachine]
    exact { hm with }

theorem settled (h : s.Idle s') (hs : s.Settled) : s'.Settled := by
  refine ⟨?_, ?_⟩
  · rw [h.table, h.nextLabel]
    exact hs.below
  · rw [h.table]
    exact hs.inside

theorem remains_eq (h : s.Idle s') : s'.remains = s.remains := by
  obtain ⟨output, hmachine⟩ := h.machine
  rw [remains, remains, hmachine, h.table]
  rfl

end Idle
end Session

namespace Console

open Session (Idle)

theorem idle_showTokens (source : String) (s : Session) : s.Idle (showTokens source s) := by
  have hprints : ∀ (tokens : List Token) (s : Session),
      s.Idle (tokens.foldl (fun s t => s.print (t.describe ++ "\n")) s) := by
    intro tokens
    induction tokens with
    | nil => exact Idle.refl
    | cons t tokens ih => exact fun s => (Idle.print s _).trans (ih _)
  exact (Idle.log s _).trans (hprints _ _)

theorem idle_showProgram (config : Config) (source : String) (s : Session) :
    s.Idle (showProgram config source s).2 := by
  unfold showProgram
  rcases Session.read_cases config source s with hread | ⟨log, ⟨hread, _⟩ | ⟨program, hread, _⟩⟩
  · rw [hread]
    exact .refl s
  · rw [hread]
    exact .log s log
  · rw [hread]
    dsimp only
    cases renderProgram config.nesting program with
    | error f => exact .log s log
    | ok text => exact (Idle.log s log).trans (.print _ _)

/-- What processing adds to what the mode asks for is at most a report. -/
theorem idle_process (config : Config) (mode : Mode) (source : String) (s : Session) :
    (perform config mode source s).2.Idle (process config mode source s).2 := by
  unfold process
  split
  · rename_i hperform
    rw [hperform]
    exact .log _ _
  · rename_i hperform
    rw [hperform]
    exact .refl _
  · rename_i hperform
    rw [hperform]
    split
    · exact .refl _
    · split <;> exact .refl _

/-- A session that processing source texts has led to.  In between texts may have been printed, and
what came out may have been taken away. -/
inductive Reached : Session → Prop
  | start : Reached start
  | process {s : Session} (h : Reached s) (config : Config) (mode : Mode) (source : String) :
      Reached (process config mode source s).2
  | print {s : Session} (h : Reached s) (text : String) : Reached (s.print text)
  | drain {s : Session} (h : Reached s) : Reached s.drain.2

/-- **The sessions at the console are in order**, and have bindings inside functions only. -/
theorem Reached.sound {s : Session} (h : Reached s) : (s.Sound .nothing) ∧ s.Settled := by
  induction h with
  | start => exact ⟨Session.sound_start _ true, Session.settled_start true⟩
  | print _ text ih => exact ⟨(Idle.print _ text).sound ih.1, (Idle.print _ text).settled ih.2⟩
  | drain _ ih => exact ⟨(Idle.drain _).sound ih.1, (Idle.drain _).settled ih.2⟩
  | @process s _ config mode source ih =>
    have hperform : ((perform config mode source s).2.Sound .nothing) ∧
        (perform config mode source s).2.Settled := by
      cases mode with
      | tokens =>
        have hidle := (Idle.log s s.log.clear).trans (idle_showTokens source _)
        exact ⟨hidle.sound ih.1, hidle.settled ih.2⟩
      | program =>
        have hidle := (Idle.log s s.log.clear).trans (idle_showProgram config source _)
        exact ⟨hidle.sound ih.1, hidle.settled ih.2⟩
      | run => exact ⟨(ih.1.run config source).2, ih.2.continues (ih.2.continues_run config source)⟩
    have hidle := idle_process config mode source s
    exact ⟨hidle.sound hperform.1, hidle.settled hperform.2⟩

/-- A session at the console leaves the like of itself. -/
theorem Reached.leavesAlike {s : Session} (h : Reached s) (clock : Nat → Float) :
    s.LeavesAlike clock clock s := by
  have hidle : ∀ {s s' : Session}, s.Idle s' → (∀ clock, s.LeavesAlike clock clock s) →
      ∀ clock, s'.LeavesAlike clock clock s' := by
    intro s s' hidle h clock
    rw [Session.LeavesAlike, hidle.remains_eq]
    exact h clock
  induction h generalizing clock with
  | start => exact Session.leavesAlike_start true clock
  | print _ text ih => exact hidle (.print _ text) ih clock
  | drain _ ih => exact hidle (.drain _) ih clock
  | @process s hs config mode source ih =>
    refine hidle (idle_process config mode source s) ?_ clock
    cases mode with
    | tokens => exact hidle ((Idle.log s s.log.clear).trans (idle_showTokens source _)) ih
    | program => exact hidle ((Idle.log s s.log.clear).trans (idle_showProgram config source _)) ih
    | run => exact Session.leavesAlike_run hs.sound.1 hs.sound.2 ih config source

/-- The limit of loops shows in nothing but in what it breaks off. -/
theorem process_of_rounds {config : Config} {source : String} {s : Session} {rounds : Nat}
    (hrounds : config.rounds ≤ rounds)
    (h : (process config .run source s).1 ≠ .brokenOff .outOfRounds) :
    process { config with rounds := rounds } .run source s = process config .run source s := by
  have hrun : (Session.run config source { s with log := s.log.clear }).1 ≠ some .outOfRounds := by
    intro hout
    unfold process perform at h
    dsimp only at h
    generalize Session.run config source { s with log := s.log.clear } = ended at h hout
    obtain ⟨_, s⟩ := ended
    cases hout
    exact h rfl
  unfold process perform
  dsimp only
  rw [Session.run_of_rounds hrounds hrun]

end Console

/-! ## Answers -/

theorem Verdict.ofExecution_ne_rejected (r : EStateM.Result Halt Machine Unit)
    (ds : List Diagnostic) : ofExecution r ≠ rejected ds := by
  intro h
  cases r with
  | ok a m => cases h
  | error e m => cases e <;> cases h

namespace Session

section
variable {config : Config} {source : String} {s : Session} {v : Verdict} {m : Machine}

/-- A source that is rejected has something wrong with it before names are looked at, or else with
its names and jumps, and nothing of it is executed. -/
theorem Ends.of_rejected {ds : List Diagnostic} (h : s.Ends config source (.rejected ds) m) :
    ds ≠ [] ∧ m = s.machine ∧ ((∃ program errors,
        parse config.nesting (Source.tokenize source).tokens = .ok ⟨program, errors⟩ ∧
        ds = sourceReports source errors) ∨
      ∃ program, Accepted config source program ∧ ds = scopeReports program) := by
  generalize hv : Verdict.rejected ds = v at h
  cases h with
  | tooDeepToRead _ | tooDeepToBind _ _ => cases hv
  | misread hparse hsome =>
    cases hv
    exact ⟨hsome, rfl, .inl ⟨_, _, hparse, rfl⟩⟩
  | misbound haccepted _ hsome =>
    cases hv
    exact ⟨hsome, rfl, .inr ⟨_, haccepted, rfl⟩⟩
  | executed _ _ => exact absurd hv.symm (Verdict.ofExecution_ne_rejected _ ds)

/-- An execution that comes to its end is one of the whole program. -/
theorem Ends.of_finished (h : s.Ends config source .finished m) :
    ∃ program, Accepted config source program ∧ s.Binds config program ∧
      s.executed config program = .ok () m := by
  generalize hv : Verdict.finished = v at h
  cases h with
  | tooDeepToRead _ | misread _ _ | tooDeepToBind _ _ | misbound _ _ _ => cases hv
  | @executed program haccepted hbinds =>
    cases hend : s.executed config program with
    | ok a m' => exact ⟨program, haccepted, hbinds, hend⟩
    | error halt m' =>
      rw [hend] at hv
      cases halt <;> cases hv

/-- A run only adds to what was printed. -/
theorem Ends.exists_printed (h : s.Ends config source v m) :
    ∃ printed, m.output = s.machine.output ++ printed := by
  cases h with
  | executed _ _ => exact exists_printed_runProgram ..
  | _ => exact ⟨"", String.append_empty.symm⟩

/-- An execution that fails has got to a statement of the program, and what the statements before
it printed, and the statement itself, stays printed. -/
theorem Ends.of_failed {e : RuntimeError} (h : s.Ends config source (.failed e) m) :
    ∃ program earlier st later m₁ before within, Accepted config source program ∧
      s.Binds config program ∧
      (Stmt.relabelAll s.nextLabel program).1 = earlier ++ st :: later ∧
      Machine.runProgram (s.setting config program) config.nesting earlier s.machine = .ok () m₁ ∧
      Machine.execute (s.setting config program) config.nesting Machine.globalEnv st m₁ =
        .error (.error e) m ∧
      m₁.output = s.machine.output ++ before ∧
      m.output = s.machine.output ++ (before ++ within) := by
  generalize hv : Verdict.failed e = v at h
  cases h with
  | tooDeepToRead _ | misread _ _ | tooDeepToBind _ _ | misbound _ _ _ => cases hv
  | @executed program haccepted hbinds =>
    rcases runProgram_cases (s.setting config program) config.nesting
      (Stmt.relabelAll s.nextLabel program).1 s.machine with
      ⟨m', hend⟩ | ⟨earlier, st, later, m₁, halt, m', hprogram, hearlier, hst, hend⟩
    · have hexecuted : s.executed config program = .ok () m' := hend
      rw [hexecuted] at hv
      cases hv
    · have hexecuted : s.executed config program = .error halt m' := hend
      rw [hexecuted] at hv ⊢
      cases halt with
      | fault f => cases hv
      | error e' =>
        cases hv
        obtain ⟨before, hbefore⟩ := exists_printed_runProgram (s.boundTable program) config.clock
          config.rounds config.nesting earlier s.machine
        obtain ⟨within, hwithin⟩ := exists_printed_execute (s.boundTable program) config.clock
          config.rounds config.nesting m₁ Machine.globalEnv st
        change (Action.machineOf (Machine.runProgram (s.setting config program) _ _ _)).output = _
          at hbefore
        change (Action.machineOf (Machine.execute (s.setting config program) _ _ _ _)).output = _
          at hwithin
        rw [hearlier] at hbefore
        rw [hst] at hwithin
        refine ⟨program, earlier, st, later, m₁, before, within, haccepted, hbinds, hprogram,
          hearlier, hst, hbefore, hwithin.trans ?_⟩
        rw [← String.append_assoc]
        exact congrArg (· ++ within) hbefore

end

end Session

namespace Console

/-- A source that is processed in run mode ends in the given way and prints the given text: the
command would exit accordingly, the text comes behind what was printed before, and the reports come
behind what was passed on before. -/
structure Answers (config : Config) (source : String) (s : Session) (v : Verdict)
    (printed : String) : Prop where
  ends : s.Ends config source v (process config .run source s).2.machine
  exit : (process config .run source s).1 = v.exit
  out : (process config .run source s).2.machine.output = s.machine.output ++ printed
  err : (process config .run source s).2.log.written = s.log.written.map (· ++ v.notice)

section
variable {config : Config} {source : String} {s : Session} {v v' : Verdict}
  {printed printed' : String}

/-- After a run that nothing has stopped, the log says how the command would exit. -/
theorem process_of_run {after : Session} (hrun : s.run config source = (none, after)) :
    process config .run source s =
      (if after.log.hasError then .badInput
        else if after.log.hasRuntimeError then .failure else .success, after) := by
  have hperform : perform config .run source s = (none, after) := hrun
  unfold process
  rw [hperform]
  dsimp only
  split
  · rfl
  · split <;> rfl

/-- What processing does after a run that has ended in the given way. -/
theorem process_of_ends {fault : Option Fault} {after : Session} {m : Machine}
    (hends : s.Ends config source v m) (hrun : s.run config source = (fault, after))
    (hfault : fault = v.fault?) (hlog : after.log = s.log.clear.reportAll v.reports) :
    ∃ log, process config .run source s = (v.exit, { after with log := log }) ∧
      log.written = s.log.written.map (· ++ v.notice) := by
  subst hfault
  have hwritten : after.log.written =
      s.log.written.map (· ++ Diagnostic.renderAll v.reports) := by
    rw [hlog, Log.written_reportAll]
    rfl
  cases v with
  | rejected ds =>
    obtain ⟨hsome, _, hreports⟩ := hends.of_rejected
    have hstatic : ∀ d ∈ ds, d.isRuntime = false := by
      rcases hreports with ⟨_, _, _, rfl⟩ | ⟨_, _, rfl⟩
      · exact not_isRuntime_of_sourceReports
      · exact not_isRuntime_of_scopeReports
    have herror : after.log.hasError := by
      by_contra hnone
      rw [hlog] at hnone
      exact hsome (Log.eq_nil_of_hasError hstatic (eq_false_of_ne_true hnone))
    refine ⟨after.log, ?_, hwritten⟩
    rw [process_of_run hrun, if_pos herror]
    rfl
  | failed e =>
    have herror : after.log.hasError = false := by
      rw [hlog]
      rfl
    have hruntime : after.log.hasRuntimeError = true := by
      rw [hlog]
      rfl
    refine ⟨after.log, ?_, hwritten⟩
    rw [process_of_run hrun, herror, hruntime]
    rfl
  | cutOff f =>
    have hperform : perform config .run source s = (some f, after) := hrun
    have hsilent : (· ++ "") = (id : String → String) := funext fun text => String.append_empty
    unfold process
    rw [hperform]
    rcases Verdict.cutOff_cases f with rfl | ⟨hexit, hnotice⟩
    · refine ⟨after.log.write overflowNotice, rfl, ?_⟩
      rw [hlog]
      rfl
    · refine ⟨after.log, ?_, ?_⟩
      · rw [hexit]
        cases f with
        | tooDeep => cases hexit
        | _ => rfl
      · rw [hnotice, hlog, hsilent, Option.map_id]
        rfl
  | finished =>
    have herror : after.log.hasError = false := by
      rw [hlog]
      rfl
    have hruntime : after.log.hasRuntimeError = false := by
      rw [hlog]
      rfl
    refine ⟨after.log, ?_, hwritten⟩
    rw [process_of_run hrun, herror, hruntime]
    rfl

/-- **Every source has an answer**, in any session. -/
theorem answers_process (config : Config) (source : String) (s : Session) :
    ∃ v printed, Answers config source s v printed := by
  obtain ⟨v, m, hends, hfault, hmachine, hlog⟩ := Session.run_ends config source s
  obtain ⟨printed, hprinted⟩ := hends.exists_printed
  obtain ⟨log, hprocess, hwritten⟩ := process_of_ends hends rfl hfault hlog
  refine ⟨v, printed, ?_, ?_, ?_, ?_⟩
  · rw [hprocess]
    exact hmachine.symm ▸ hends
  · rw [hprocess]
  · rw [hprocess]
    exact (congrArg Machine.output hmachine).trans hprinted
  · rw [hprocess]
    exact hwritten

/-- A source has one answer only. -/
theorem Answers.unique (h : Answers config source s v printed)
    (h' : Answers config source s v' printed') : v' = v ∧ printed' = printed := by
  obtain ⟨hv, _⟩ := h.ends.unique h'.ends
  exact ⟨hv.symm, (String.append_right_inj _).mp (h'.out.symm.trans h.out)⟩

/-- In a session at the console only a limit cuts a run off. -/
theorem Answers.of_cutOff {f : Fault} (h : Answers config source s (.cutOff f) printed)
    (hs : Reached s) : f = .tooDeep ∨ f = .outOfRounds := by
  obtain ⟨v, m, hends, hfault, _⟩ := Session.run_ends config source s
  obtain ⟨rfl, _⟩ := h.ends.unique hends
  obtain ⟨hlegal, _⟩ := hs.sound.1.run config source
  rw [hfault] at hlegal
  rcases hlegal with hlegal | hlegal | hlegal
  · cases hlegal
  · exact .inl (Option.some.inj hlegal)
  · exact .inr (Option.some.inj hlegal)

end

end Console
end LoxLang
