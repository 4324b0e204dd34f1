import LoxLang.Proofs.Machine.Orderly
import LoxLang.Proofs.Session.Joining

/-! # Moments of a session

The tasks that are begun while a session runs an accepted source, each with the machine on which it
is begun.  In a session that any runs have led to, all of them are in order. -/

namespace LoxLang
namespace Session

/-- What the run of a program, whose references have the next labels, can look at. -/
def setting (config : Config) (program : List (Stmt Unit)) (s : Session) : Setting :=
  ⟨.byHops (s.boundTable program), config.clock, config.rounds⟩

/-- A task is begun on a machine while the program runs in the session. -/
def Begins (config : Config) (program : List (Stmt Unit)) (s : Session) (t : Task)
    (m : Machine) : Prop :=
  LoxLang.Begins (s.setting config program) config.nesting
    (Stmt.relabelAll s.nextLabel program).1 s.machine t m

/-- **A session that runs have led to is ready for the next one**: the machine is in order, the
labelled program is ready to run, and the table has the hops of all its references and of those in
the functions that the machine holds. -/
theorem Sound.prepared {config : Config} {program : List (Stmt Unit)} {s : Session}
    (hs : s.Sound .nothing) (hwf : ∀ st ∈ program, st.WellFormed)
    (hbinds : s.Binds config program) :
    ∃ Q W, (∀ u : Use Label, Q u → (s.boundTable program).hops? u.ref.label = u.hops?) ∧
      s.machine.Sound Q W ∧
      Stmt.ReadyAll Q ⟨.outside, .outside⟩ [] (Stmt.relabelAll s.nextLabel program).1 := by
  obtain ⟨⟨W, hmachine⟩, hready⟩ := hs.prepared_of_met (.refl _) hwf hbinds (met_nothing _)
  exact ⟨_, W, hops?_of_demands, hmachine, hready⟩

theorem sound_of_runSources {passesOn : Bool} {history : List (Config × String)} {s : Session}
    (hs : ((start passesOn).runSources history).2 = s) : s.Sound .nothing :=
  hs ▸ ((sound_start _ passesOn).runSources history).2

end Session
end LoxLang
