import LoxLang.Proofs.Machine.Names
import LoxLang.Proofs.Session.Moments
import LoxLang.Proofs.Session.Renaming

/-! # Scopes do not leak

At every moment of every session at which a statement is executed in an environment, what comes of
it is this, however it ends: the scopes that were there have the names they had, but for the
innermost one of the environment, which may have got the name that the statement itself declares
(`scopes_keep_names`).  A function that is called on the way, or a method, or a block, leaves its
names behind in scopes of its own. -/

namespace LoxLang

/-- The name that a statement declares itself. -/
def Stmt.declared? {ι : Type} : Stmt ι → Option Token
  | .var name _ | .classOf name _ _ => some name
  | .function f => some f.name
  | _ => none

/-- No other name is declared by a statement where it stands. -/
theorem Stmt.WellFormed.declares_eq {ι : Type} {s : Stmt ι} (h : s.WellFormed) :
    s.declares = s.declared?.toList := by
  cases h with
  | ifThen _ _ hnone | whileLoop _ _ hnone => exact hnone
  | ifElse _ _ hnone _ hnone' => rw [Stmt.declares, hnone, hnone']; rfl
  | _ => rfl

theorem Stmt.WellFormed.mem_declares {ι : Type} {s : Stmt ι} (h : s.WellFormed) (name : String) :
    name ∈ s.declares.map Token.lexeme ↔ s.declared?.map Token.lexeme = some name := by
  rw [h.declares_eq]
  cases s.declared? <;> simp [eq_comm]

namespace Session

/-- The global variables after a run. -/
theorem contains_globals_of_run {config : Config} {source : String} {program : List (Stmt Unit)}
    {s : Session} (hs : s.Sound .nothing) (haccepted : Accepted config source program)
    (hbinds : s.Binds config program) :
    ∃ earlier later m₁, (Stmt.relabelAll s.nextLabel program).1 = earlier ++ later ∧
      Machine.runProgram (s.setting config program) config.nesting earlier s.machine = .ok () m₁ ∧
      (later = [] ∨ ∃ st more halt m₂, later = st :: more ∧
        Machine.execute (s.setting config program) config.nesting Machine.globalEnv st m₁ = .error halt m₂) ∧
      ∀ name, (s.run config source).2.machine.globals.contains name ↔
        s.machine.globals.contains name ∨
          ∃ st ∈ earlier, st.declared?.map Token.lexeme = some name := by
  obtain ⟨Q, W, htable, hmachine, hready⟩ := hs.prepared haccepted.wellFormed hbinds
  have hdeclares : ∀ {ss : List (Stmt Label)}, (∀ st ∈ ss, st.WellFormed) → ∀ name,
      name ∈ (Stmt.declaresAll ss).map Token.lexeme ↔
        ∃ st ∈ ss, st.declared?.map Token.lexeme = some name := by
    intro ss hwf name
    rw [Stmt.declaresAll, List.map_flatMap, List.mem_flatMap]
    exact exists_congr fun st => and_congr_right fun hst => (hwf st hst).mem_declares name
  rw [run_of_accepted haccepted hbinds, machine_concluded]
  rcases runProgram_cases (s.setting config program) config.nesting
      (Stmt.relabelAll s.nextLabel program).1 s.machine with
    ⟨m', hran⟩ | ⟨earlier, st, later, m₁, halt, m', hprogram, hran, hhalt, hend⟩
  · refine ⟨_, [], m', (List.append_nil _).symm, hran, .inl rfl, fun name => ?_⟩
    have hend : s.executed config program = .ok () m' := hran
    rw [hend, ← hdeclares hready.wellFormed]
    exact contains_globals_of_ran htable hmachine hready hran name
  · refine ⟨earlier, st :: later, m₁, hprogram, hran, .inr ⟨st, later, halt, m', rfl, hhalt⟩,
      fun name => ?_⟩
    have hend : s.executed config program = .error halt m' := hend
    rw [hprogram] at hready
    obtain ⟨hearlier, hrest⟩ := hready.append
    obtain ⟨W₁, _, hm₁⟩ := ran_inOrder htable hmachine hearlier hran
    rw [hend, ← hdeclares hearlier.wellFormed]
    exact (contains_globals_of_halted htable hm₁ hrest.cons.1 hhalt name).trans
      (contains_globals_of_ran htable hmachine hearlier hran name)

/-- **Scopes do not leak.**  In a session that any runs have led to, let a source be accepted and
bound without errors.  Whenever in its run a statement is executed in an environment, whether it
completes, returns, ends in a runtime error or is cut off: of the scopes that were there, all but the
innermost of the environment have exactly the names they had; that one keeps its names, and gets
none but the name that the statement declares itself, which it has if the statement completes.  So a
statement that declares nothing adds no name to any scope that was there, whatever it calls and
assigns to.  And the global variables after the run are those before it and those of the
declarations outside all blocks that were executed up to their end. -/
theorem scopes_keep_names (passesOn : Bool) (history : List (Config × String)) (config : Config)
    (source : String) (program : List (Stmt Unit)) {s : Session}
    (hs : ((start passesOn).runSources history).2 = s)
    (haccepted : Accepted config source program) (hbinds : s.Binds config program) :
    (∀ depth env st m, s.Begins config program (.execute depth env st) m →
      let ended := Machine.execute (s.setting config program) depth env st m
      let after := (Action.machineOf ended).store
      (∀ id < m.store.nextId, env.head? ≠ some id → ∀ name,
        (after.scope id).contains name ↔ (m.store.scope id).contains name) ∧
      ∃ id outer, env = id :: outer ∧ id < m.store.nextId ∧
        (∀ name, (m.store.scope id).contains name → (after.scope id).contains name) ∧
        (∀ name, (after.scope id).contains name →
          (m.store.scope id).contains name ∨ st.declared?.map Token.lexeme = some name) ∧
        ∀ c m', ended = .ok c m' → ∀ name, st.declared?.map Token.lexeme = some name →
          (after.scope id).contains name) ∧
    ∃ earlier later m₁, (Stmt.relabelAll s.nextLabel program).1 = earlier ++ later ∧
      Machine.runProgram (s.setting config program) config.nesting earlier s.machine = .ok () m₁ ∧
      (later = [] ∨ ∃ st more halt m₂, later = st :: more ∧
        Machine.execute (s.setting config program) config.nesting Machine.globalEnv st m₁ = .error halt m₂) ∧
      ∀ name, (s.run config source).2.machine.globals.contains name ↔
        s.machine.globals.contains name ∨
          ∃ st ∈ earlier, st.declared?.map Token.lexeme = some name := by
  have hsound := sound_of_runSources hs
  refine ⟨fun depth env st m hbegins => ?_, contains_globals_of_run hsound haccepted hbinds⟩
  intro ended after
  obtain ⟨Q, W, htable, hmachine, hready⟩ := hsound.prepared haccepted.wellFormed hbinds
  obtain ⟨W', _, hm, around, context, hstands, hdefined, hst⟩ :=
    hbegins.inOrder htable hmachine hready
  have hadds : Adds _ (.declared env st) m (Machine.execute (s.setting config program) depth env st)
      := (adding htable depth).2.2.2 hm hstands hdefined hst
  have hgrow : m.store.NamesGrow (.declared env st) after := hadds.machineOf fun _ _ h => h.2
  obtain ⟨id, outer, rfl, _⟩ := hstands.shape.exists_cons
  have hid := hstands.head_lt hm
  refine ⟨fun other hother hne name => ⟨fun h => ?_, hgrow.kept other name⟩,
    id, outer, rfl, hid, hgrow.kept id, fun name hname => ?_, fun c m' hended name hname => ?_⟩
  · exact (hgrow.added other hother name h).resolve_right fun h => hne h.1
  · exact (hgrow.added id hid name hname).imp_right fun h =>
      (hst.wellFormed.mem_declares name).mp h.2
  · have hafter : after = m'.store := congrArg (fun r => (Action.machineOf r).store) hended
    rw [hafter]
    exact contains_of_executed htable hm hstands hst hended id name
      ⟨rfl, (hst.wellFormed.mem_declares name).mpr hname⟩

/-- A function with variables and a block is called, and a variable is made, before the value of a
variable that there is not is to be assigned. -/
def leavingSource : String :=
  "fun f() \x7b var x = 1; \x7b var y = x; \x7d return y; \x7d var y = 2; f(); y = z; var z;"

theorem scopes_keep_names_leaving :
    ∃ program, ((start true).runSources []).2 = start true ∧
      Accepted shortly leavingSource program ∧ (start true).Binds shortly program ∧
      (∃ st, st.declared?.map Token.lexeme = some "f" ∧
        (start true).Begins shortly program (.execute shortly.nesting Machine.globalEnv st)
          Machine.start ∧
        ∀ name, ((Action.machineOf (Machine.execute ((start true).setting shortly program)
            shortly.nesting Machine.globalEnv st Machine.start)).globals).contains name →
          Machine.start.globals.contains name ∨ "f" = name) ∧
      ((start true).run shortly leavingSource).2.machine.globals.contains "y" ∧
      ¬ ((start true).run shortly leavingSource).2.machine.globals.contains "x" ∧
      ¬ ((start true).run shortly leavingSource).2.machine.globals.contains "z" := by
  have hthrough : ((start true).run shortly leavingSource).1 = none := by decide +kernel
  obtain ⟨program, haccepted, hbinds⟩ := accepted_of_through hthrough (by decide +kernel)
  have hhead : (firstProgram shortly leavingSource).head?.map
      (fun st => st.declared?.map Token.lexeme) = some (some "f") := by decide +kernel
  rw [firstProgram_eq haccepted true] at hhead
  obtain ⟨st, hst, hname⟩ := Option.map_eq_some_iff.mp hhead
  obtain ⟨later, hprogram⟩ := List.head?_eq_some_iff.mp hst
  have hbegins : (start true).Begins shortly program
      (.execute shortly.nesting Machine.globalEnv st) Machine.start :=
    ⟨[], st, later, Machine.start, hprogram, rfl, .refl⟩
  obtain ⟨hmoment, _⟩ := scopes_keep_names true [] shortly leavingSource program (s := start true)
    rfl haccepted hbinds
  obtain ⟨_, id, outer, henv, _, _, hadded, _⟩ := hmoment _ _ _ _ hbegins
  cases henv
  refine ⟨program, rfl, haccepted, hbinds, ⟨st, hname, hbegins, fun name h => ?_⟩,
    by decide +kernel, by decide +kernel, by decide +kernel⟩
  exact (hadded name h).imp_right fun h => Option.some.inj (hname.symm.trans h)

end Session
end LoxLang
