import LoxLang.Proofs.Machine.Words
import LoxLang.Proofs.Session.Kept
import LoxLang.Proofs.Session.Moments
import LoxLang.Proofs.Session.Verdict
import Mathlib.Data.List.Induction

/-! # Places and words of a session

At every moment of a session, in whichever of its runs, what is done and what the machine holds is at
its place in one of the programs that were executed (`Happens.placed`).  And the words `this` and
`super` mean in a scope what they mean in it at any other moment of the session at which the scope
is there (`Happens.get?_eq`). -/

namespace LoxLang
namespace Session

variable {passesOn : Bool} {runs : List (Config × String)} {S S' : Setting} {t t' : Task}
  {m m' : Machine}

/-- The session after some runs from its start. -/
def after (passesOn : Bool) (runs : List (Config × String)) : Session :=
  ((start passesOn).runSources runs).2

/-- The program is executed after the first runs of a session. -/
structure Executes (passesOn : Bool) (runs earlier : List (Config × String)) (config : Config)
    (program : List (Stmt Unit)) : Prop where
  run : ∃ source later, runs = earlier ++ (config, source) :: later ∧
    Accepted config source program
  binds : (after passesOn earlier).Binds config program

/-- A task is begun in a setting and on a machine at some moment of a session. -/
def Happens (passesOn : Bool) (runs : List (Config × String)) (S : Setting) (t : Task)
    (m : Machine) : Prop :=
  ∃ earlier config program, Executes passesOn runs earlier config program ∧
    S = (after passesOn earlier).setting config program ∧
    (after passesOn earlier).Begins config program t m

/-- A class statement with a superclass is executed in an environment at some moment of a session.
The value of the superclass is the class, and the next scope to be made is that of `super`. -/
def Derives (passesOn : Bool) (runs : List (Config × String)) (p : ScopeId) (env : Env)
    (name : Token) (parent : Ref Label) (methods : List (Function Label)) (c : ClassValue) : Prop :=
  ∃ S depth m m₁, Happens passesOn runs S
      (.execute (depth + 1) env (.classOf name (some parent) methods)) m ∧
    Machine.evaluate S depth env (.nameRef parent) m = .ok (.classOf c) m₁ ∧ p = m₁.store.nextId

/-- There is such a place in a program that is executed in a session. -/
def HasSite (passesOn : Bool) (runs : List (Config × String)) (site : Site Label) : Prop :=
  ∃ earlier config program, Executes passesOn runs earlier config program ∧
    site ∈ sitesOf (Stmt.relabelAll (after passesOn earlier).nextLabel program).1

/-- The places in the programs of a session, and what its class statements do. -/
def chronicle (passesOn : Bool) (runs : List (Config × String)) : Chronicle where
  HasSite := HasSite passesOn runs
  Derives p env f c := ∃ name parent methods, f ∈ methods ∧
    Derives passesOn runs p env name parent methods c

theorem located_start (H : Chronicle) : Machine.start.Located H := by
  refine ⟨Nat.one_pos, fun id name v hv => ?_, fun id name v hv => by cases hv⟩
  rw [Store.get?] at hv
  have hscope : Machine.start.store.scope id =
      if id = 0 then Bindings.empty.insert "clock" .clock else Bindings.empty := by
    rw [Machine.start, Store.scope_push]
    rfl
  rw [hscope] at hv
  split at hv
  · rw [Bindings.get?_insert] at hv
    split at hv
    · cases hv
      trivial
    · cases hv
  · cases hv

theorem Executes.wellFormed {earlier : List (Config × String)} {config : Config}
    {program : List (Stmt Unit)} (h : Executes passesOn runs earlier config program) :
    ∀ st ∈ program, st.WellFormed := by
  obtain ⟨⟨_, _, _, haccepted⟩, _⟩ := h
  exact haccepted.wellFormed

/-- What a task begins at a moment of a session happens in the session, too. -/
theorem Happens.starts (h : Happens passesOn runs S t m) (hstart : Starts S (t, m) (t', m')) :
    Happens passesOn runs S t' m' := by
  obtain ⟨earlier, config, program, hexecutes, rfl, before, s, later, m₁, hprogram, hran, hstarts⟩ := h
  exact ⟨earlier, config, program, hexecutes, rfl, before, s, later, m₁, hprogram, hran,
    hstarts.tail hstart⟩

/-- What class statements do at a moment of a session is known to the session. -/
theorem Happens.known (h : Happens passesOn runs S t m) : t.Known (chronicle passesOn runs) S m := by
  rintro depth env name parent methods c m₁ rfl hparent f hf
  exact ⟨name, parent, methods, hf, S, depth, m, m₁, h, hparent, rfl⟩

section
variable {earlier : List (Config × String)} {config : Config} {program : List (Stmt Unit)}
  (h : Executes passesOn runs earlier config program)
  (hm : (after passesOn earlier).machine.Located (chronicle passesOn runs))
include h hm

theorem Executes.leaves :
    Leaves (chronicle passesOn runs) (after passesOn earlier).machine
      (Machine.runProgram ((after passesOn earlier).setting config program) config.nesting
        (Stmt.relabelAll (after passesOn earlier).nextLabel program).1) fun _ _ => True :=
  leaves_runProgram rfl hm (Stmt.wellFormed_relabelAll h.wellFormed)
    (fun _ hsite => ⟨earlier, config, program, h, hsite⟩)
    fun _ _ hbegins => Happens.known ⟨earlier, config, program, h, rfl, hbegins⟩

theorem Executes.placed (hbegins : (after passesOn earlier).Begins config program t m) :
    t.InPlace (chronicle passesOn runs) ((after passesOn earlier).setting config program) m ∧
      (after passesOn earlier).machine.store.KeepsWords m.store ∧
      (t.after ((after passesOn earlier).setting config program) m).store.KeepsWords
        (Action.machineOf ((after passesOn earlier).executed config program)).store :=
  Begins.placed rfl hm (Stmt.wellFormed_relabelAll h.wellFormed)
    (fun _ hsite => ⟨earlier, config, program, h, hsite⟩)
    (fun _ _ hbegins => Happens.known ⟨earlier, config, program, h, rfl, hbegins⟩) hbegins

end

/-- One more run keeps places and words. -/
theorem located_after_run {earlier later : List (Config × String)} {config : Config}
    {source : String} (hruns : runs = earlier ++ (config, source) :: later)
    (hm : (after passesOn earlier).machine.Located (chronicle passesOn runs)) :
    (after passesOn (earlier ++ [(config, source)])).machine.Located (chronicle passesOn runs) ∧
      (after passesOn earlier).machine.store.KeepsWords
        (after passesOn (earlier ++ [(config, source)])).machine.store := by
  have hafter : after passesOn (earlier ++ [(config, source)]) =
      ((after passesOn earlier).run config source).2 := runSources_append ..
  rw [hafter]
  rcases machine_run config source (after passesOn earlier) with
    hsame | ⟨program, haccepted, hbinds, hran⟩
  · rw [hsame]
    exact ⟨hm, .refl _⟩
  · obtain ⟨hm', hkeeps, _⟩ := Executes.leaves
      ⟨⟨source, later, hruns, haccepted⟩, hbinds⟩ hm
    rw [hran]
    exact ⟨hm', hkeeps⟩

/-- After any of the runs of a session, what the machine holds is at its place. -/
theorem located_after {earlier later : List (Config × String)} (hruns : runs = earlier ++ later) :
    (after passesOn earlier).machine.Located (chronicle passesOn runs) := by
  induction earlier using List.reverseRecOn generalizing later with
  | nil => exact located_start _
  | append_singleton earlier last ih =>
    have hruns' : runs = earlier ++ last :: later := by rw [hruns, List.append_assoc]; rfl
    exact (located_after_run hruns' (ih hruns')).1

theorem keepsWords_after {earlier later : List (Config × String)} (hruns : runs = earlier ++ later) :
    (after passesOn earlier).machine.store.KeepsWords (after passesOn runs).machine.store := by
  induction later generalizing earlier with
  | nil =>
    rw [hruns, List.append_nil]
    exact .refl _
  | cons first later ih =>
    refine (located_after_run hruns (located_after hruns)).2.trans (ih ?_)
    rw [hruns, List.append_assoc]
    rfl

/-- **At every moment of a session its task is at its place**, and from its end on the words mean
what they mean at the end of the session. -/
theorem Happens.placed (h : Happens passesOn runs S t m) :
    t.InPlace (chronicle passesOn runs) S m ∧ t.Leaves (chronicle passesOn runs) S m ∧
      (t.after S m).store.KeepsWords (after passesOn runs).machine.store := by
  obtain ⟨earlier, config, program, hexecutes, rfl, hbegins⟩ := h
  obtain ⟨source, later, hruns, haccepted⟩ := hexecutes.run
  obtain ⟨hplace, _, hends⟩ := hexecutes.placed (located_after hruns) hbegins
  refine ⟨hplace, hplace.leaves rfl, hends.trans ?_⟩
  have hrun : (after passesOn (earlier ++ [(config, source)])).machine =
      Action.machineOf ((after passesOn earlier).executed config program) := by
    have hafter : after passesOn (earlier ++ [(config, source)]) =
        ((after passesOn earlier).run config source).2 := runSources_append ..
    rw [hafter, run_of_accepted haccepted hexecutes.binds, machine_concluded]
  rw [← hrun]
  have hruns' : runs = earlier ++ [(config, source)] ++ later := by
    rw [hruns, List.append_assoc]
    rfl
  exact keepsWords_after hruns'

end Session
end LoxLang
