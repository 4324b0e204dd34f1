import LoxLang.Proofs.Session.Invariant

/-! # Sessions never go wrong

A fault is what stops a run without being an error of the program: a binding that leads past the
globals or to a scope without the name, a `super` without binding, class or object, a parameter
without argument, a set-up method without `this`, an unknown form, tokens without an end.  In a
session none of these ever arises, whatever the earlier runs ended in and whatever limits they had;
what can stop a run are the limits themselves. -/

namespace LoxLang
namespace Session

/-- The fault of each run, if there is one, and the session after running source texts one after
another, each within its own limits. -/
def runSources : List (Config × String) → Session → List (Option Fault) × Session
  | [], s => ([], s)
  | (config, source) :: rest, s =>
    let (fault, s) := s.run config source
    let (faults, s) := s.runSources rest
    (fault :: faults, s)

/-- A run keeps a session in order and stops for nothing but a limit. -/
theorem Sound.run {s : Session} (hs : s.Sound .nothing) (config : Config) (source : String) :
    Legal (s.run config source).1 ∧ (s.run config source).2.Sound .nothing :=
  (runVia_inStep (agrees_recorded .nothing) hs fun _ _ _ _ => met_nothing _).2

theorem Sound.runSources {s : Session} (hs : s.Sound .nothing)
    (sources : List (Config × String)) :
    (∀ fault ∈ (s.runSources sources).1, Legal fault) ∧
      (s.runSources sources).2.Sound .nothing := by
  induction sources generalizing s with
  | nil => exact ⟨List.forall_mem_nil _, hs⟩
  | cons first rest ih =>
    obtain ⟨hlegal, hs⟩ := hs.run first.1 first.2
    obtain ⟨hrest, hs⟩ := ih hs
    exact ⟨List.forall_mem_cons.mpr ⟨hlegal, hrest⟩, hs⟩

/-- **Sessions never go wrong.** Of all the runs of a session from its start, none is stopped by
anything but a limit: the program or its calls nest deeper than `nesting`, or a loop goes round more
often than `rounds`. -/
theorem fault_of_runSources (passesOn : Bool) (sources : List (Config × String)) :
    ∀ fault ∈ ((start passesOn).runSources sources).1,
      fault = none ∨ fault = some .tooDeep ∨ fault = some .outOfRounds :=
  ((sound_start _ passesOn).runSources sources).1

/-- Two sources: a method of the first fails, a loop of the second goes round for ever. -/
def endlessSources : List (Config × String) :=
  [(⟨50, 3, fun _ => 0⟩, "class A \x7b f() \x7b return this.g; \x7d \x7d A().f();"),
    (⟨50, 3, fun _ => 0⟩, "var a = A(); while (true) a.g = a;")]

theorem fault_of_runSources_endless :
    some .outOfRounds ∈ ((start true).runSources endlessSources).1 ∧
      (some Fault.outOfRounds = none ∨ some Fault.outOfRounds = some .tooDeep ∨
        some Fault.outOfRounds = some .outOfRounds) := by
  have hran : some .outOfRounds ∈ ((start true).runSources endlessSources).1 := by
    decide +kernel
  exact ⟨hran, fault_of_runSources true endlessSources _ hran⟩

end Session
end LoxLang
