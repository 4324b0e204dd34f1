import LoxLang.Proofs.Machine.Reflecting
import LoxLang.Proofs.Scope.Visits
import LoxLang.Proofs.Session.Placed

/-! # Environments mirror scopes

At every moment of a session at which an expression is evaluated or a statement is executed, its
environment reflects the scopes that were open when the binding pass visited it
(`environments_mirror_scopes`).  A function may be called many runs after the one that made it.  So it
is kept in mind that, between two runs, the functions in the machine all stand in programs that were
executed (`sound_after`); the code of a run comes from them or from the program of the run. -/

namespace LoxLang
namespace Session

variable {passesOn : Bool} {runs earlier : List (Config × String)} {config : Config}
  {program : List (Stmt Unit)}

/-- A spot is one of a program that is executed after some runs, and the binding pass over it visits
the spot, with just the scopes open that it has. -/
structure Visited (passesOn : Bool) (earlier : List (Config × String)) (config : Config)
    (program : List (Stmt Unit)) (p : Spot Label) : Prop where
  isOf : p.IsOf (Stmt.relabelAll (after passesOn earlier).nextLabel program).1
  visit : ∃ depth s, Binder.Visits config.nesting
    (Stmt.relabelAll (after passesOn earlier).nextLabel program).1 (after passesOn earlier).table
    (p.visit depth) s ∧ s.scopes = p.context.map OpenScope.declared

/-- The spot is one in a program that is executed in a session. -/
def HasSpot (passesOn : Bool) (runs : List (Config × String)) (p : Spot Label) : Prop :=
  ∃ earlier config program, Executes passesOn runs earlier config program ∧
    p.IsOf (Stmt.relabelAll (after passesOn earlier).nextLabel program).1

/-- In functions there is code only from the programs that were executed. -/
def executedOnly (passesOn : Bool) (runs : List (Config × String)) : Demand Label where
  use _ := True
  spot p := p.Inside → HasSpot passesOn runs p

/-- In a run there is also the code of its program. -/
def executedOr (passesOn : Bool) (earlier : List (Config × String)) (program : List (Stmt Unit)) :
    Demand Label where
  use _ := True
  spot p := p.IsOf (Stmt.relabelAll (after passesOn earlier).nextLabel program).1 ∨
    p.Inside ∧ HasSpot passesOn earlier p

theorem Executes.visited (h : Executes passesOn runs earlier config program) {p : Spot Label}
    (hp : p.IsOf (Stmt.relabelAll (after passesOn earlier).nextLabel program).1) :
    Visited passesOn earlier config program p :=
  ⟨hp, Binder.exists_visit (Stmt.wellFormed_relabelAll h.wellFormed) h.binds.fault hp⟩

theorem HasSpot.append {p : Spot Label} (h : HasSpot passesOn runs p)
    (more : List (Config × String)) : HasSpot passesOn (runs ++ more) p := by
  obtain ⟨earlier, config, program, ⟨⟨source, later, rfl, haccepted⟩, hbinds⟩, hp⟩ := h
  refine ⟨earlier, config, program, ⟨⟨source, later ++ more, ?_, haccepted⟩, hbinds⟩, hp⟩
  rw [List.append_assoc, List.cons_append]

/-- **Between two runs the machine holds only functions from programs that were executed.** -/
theorem sound_after (passesOn : Bool) (runs : List (Config × String)) :
    (after passesOn runs).Sound (executedOnly passesOn runs) := by
  induction runs using List.reverseRecOn with
  | nil => exact sound_start _ passesOn
  | append_singleton earlier last ih =>
    obtain ⟨config, source⟩ := last
    have hsound : (after passesOn earlier).Sound
        (executedOnly passesOn (earlier ++ [(config, source)])) := by
      obtain ⟨W, hm⟩ := ih.machine
      exact ⟨ih.table, W, hm.imp ⟨fun _ _ h => h, fun _ _ h hp => (h hp).append _⟩⟩
    have hafter : after passesOn (earlier ++ [(config, source)]) =
        ((after passesOn earlier).run config source).2 := runSources_append ..
    rw [hafter]
    refine (runVia_inStep (agrees_recorded _) hsound fun program haccepted hfault herrors =>
      ⟨fun _ _ => trivial, fun root hroot p hp _ => ?_⟩).2.2
    exact ⟨earlier, config, program, ⟨⟨source, [], rfl, haccepted⟩, hfault, herrors⟩, root, hroot,
      hp⟩

/-- While a program is run in the session, the code of a spot is begun there in an environment and on a
machine. -/
def BeginsAt (config : Config) (program : List (Stmt Unit)) (s : Session) (depth : Nat) (env : Env)
    (m : Machine) (p : Spot Label) : Prop :=
  LoxLang.BeginsAt (s.setting config program) config.nesting
    (Stmt.relabelAll s.nextLabel program).1 s.machine depth env m p

/-- **Environments mirror scopes.**  In any session, let a program be executed, and at some moment of
its run let an expression be evaluated or a statement be executed in an environment.  It is at a spot
of this program or, in a function, at a spot of a program that was executed in an earlier run.  When
the binding pass visited the spot certain scopes were open, and from the environment one comes to that
of the globals in just as many steps.  The names that are bound after some of these steps are all
declared somewhere in the open scope after as many; and they include all names that were defined in it
when the pass came.  Only one name may be missing: while the name of a superclass is evaluated, that
of the class, whose statement has just been begun.

The names that a scope declares somewhere are those that the pass leaves it with
(`Binder.contains_iff_of_body`). -/
theorem environments_mirror_scopes (hexecutes : Executes passesOn runs earlier config program)
    {code : Code Label} {depth : Nat} {env : Env} {m : Machine}
    (hbegins : (after passesOn earlier).Begins config program (code.task depth env) m) :
    ∃ p : Spot Label, p.code = code ∧
      (Visited passesOn earlier config program p ∨
        p.Inside ∧ ∃ earlier' config' program',
          Executes passesOn earlier earlier' config' program' ∧
          Visited passesOn earlier' config' program' p) ∧
      (after passesOn earlier).BeginsAt config program depth env m p ∧
      Reflects m.store (fun name => ∃ q,
        (after passesOn earlier).BeginsAt config program (depth + 1) env m q ∧
          p.NamesSuperclass q name) p.context env := by
  have hstronger : (executedOnly passesOn earlier).StrongerInside
      (executedOr passesOn earlier program) :=
    ⟨fun _ _ h => h, fun _ hp h => .inr ⟨hp, h hp⟩⟩
  have hmet : Met (executedOr passesOn earlier program)
      (Stmt.relabelAll (after passesOn earlier).nextLabel program).1 :=
    ⟨fun _ _ => trivial, fun root hroot p hp => .inl ⟨root, hroot, hp⟩⟩
  obtain ⟨⟨W, hm⟩, hready⟩ := (sound_after passesOn earlier).prepared_of_met hstronger
    hexecutes.wellFormed hexecutes.binds hmet
  obtain ⟨p, hcode, hspot, hat, hreflects⟩ := hbegins.reflects hops?_of_demands hm hready
  refine ⟨p, hcode, hspot.imp hexecutes.visited (And.imp_right ?_), hat, hreflects⟩
  rintro ⟨earlier', config', program', hexecutes', hp⟩
  exact ⟨earlier', config', program', hexecutes', hexecutes'.visited hp⟩

/-- A function that uses a variable of the block around it is kept for a later run. -/
def keepingRun : Config × String :=
  (shortly, "var f; \x7b var x = 1; fun g() \x7b print x; \x7d f = g; \x7d")

/-- The function that was kept is called. -/
def recallingSource : String := "f();"

/-- The program of a source text, with the next labels of a session. -/
def nextProgram (config : Config) (source : String) (s : Session) : List (Stmt Label) :=
  match parse config.nesting (Source.tokenize source).tokens with
  | .ok parsed => (Stmt.relabelAll s.nextLabel parsed.program).1
  | .error _ => []

theorem nextProgram_eq {source : String} (h : Accepted config source program) (s : Session) :
    nextProgram config source s = (Stmt.relabelAll s.nextLabel program).1 := by
  rw [nextProgram, h.2]

theorem environments_mirror_scopes_recalled :
    ∃ program st depth env m,
      Executes true [keepingRun, (shortly, recallingSource)] [keepingRun] shortly program ∧
      (after true [keepingRun]).Begins shortly program ((Code.statement st).task depth env) m ∧
      ∃ p : Spot Label, p.code = .statement st ∧ p.context.length = 2 ∧
        (Visited true [keepingRun] shortly program p ∨
          p.Inside ∧ ∃ earlier' config' program',
            Executes true [keepingRun] earlier' config' program' ∧
            Visited true earlier' config' program' p) ∧
        (after true [keepingRun]).BeginsAt shortly program depth env m p ∧
        Reflects m.store (fun name => ∃ q,
          (after true [keepingRun]).BeginsAt shortly program (depth + 1) env m q ∧
            p.NamesSuperclass q name) p.context env := by
  have hthrough : ((after true [keepingRun]).run shortly recallingSource).1 = none := by
    decide +kernel
  obtain ⟨program, haccepted, hbinds⟩ := accepted_of_through hthrough (by decide +kernel)
  have hcalled : let program := nextProgram shortly recallingSource (after true [keepingRun])
      (lastCalled? ⟨.byHops ((after true [keepingRun]).table.recordAll
          ((visitProgram program).filterMap Finding.binding?)), shortly.clock, shortly.rounds⟩
        45 program (after true [keepingRun]).machine).any (fun called =>
          called.1.declaration.params.isEmpty && !called.1.declaration.body.isEmpty &&
            called.1.env.length == 2) := by decide +kernel
  rw [nextProgram_eq haccepted] at hcalled
  obtain ⟨⟨f, m⟩, hlast, hcalled⟩ := (Option.any_eq_true _ _).mp hcalled
  simp only [Bool.and_eq_true, Bool.not_eq_true', List.isEmpty_iff, List.isEmpty_eq_false_iff,
    beq_iff_eq] at hcalled
  obtain ⟨⟨hparams, hbody⟩, hlength⟩ := hcalled
  obtain ⟨st, later, hbody⟩ := List.exists_cons_of_ne_nil hbody
  have hexecutes : Executes true [keepingRun, (shortly, recallingSource)] [keepingRun] shortly
      program := ⟨⟨recallingSource, [], rfl, haccepted⟩, hbinds⟩
  have hvars : Machine.matchArguments f.declaration.params [] = .ok [] := by rw [hparams]; rfl
  obtain ⟨first, s, last, m₁, hprogram, hran, hstarts⟩ := begins_lastCalled hlast hparams
  have hbegins : (after true [keepingRun]).Begins shortly program
      ((Code.statement st).task 46 (m.store.nextId :: f.env))
      { m with store := m.store.push (Bindings.ofList []) } :=
    ⟨first, s, last, m₁, hprogram, hran, hstarts.tail
      (.body hvars rfl (show f.declaration.body = [] ++ st :: later from hbody) rfl)⟩
  obtain ⟨p, hcode, hvisited, hat, hreflects⟩ := environments_mirror_scopes hexecutes hbegins
  obtain ⟨ids, henv, hids, _⟩ := hreflects.chain
  have hopen : p.context.length = 2 := by
    have hsteps := congrArg List.length henv
    rw [List.length_cons, hlength, List.length_append, hids] at hsteps
    exact (Nat.succ.inj hsteps).symm
  exact ⟨program, st, _, _, _, hexecutes, hbegins, p, hcode, hopen, hvisited, hat, hreflects⟩

end Session
end LoxLang
