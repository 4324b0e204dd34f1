import LoxLang.Proofs.Machine.ByName
import LoxLang.Proofs.Session.Invariant

/-! # Hops lead where names lead

If the programs of a session only make direct references, then no run can tell the hops in the
table from a walk along the chain of scopes.  The reference to which `Session.run` is compared is
the same session with `Access.byName` in place of the table: what it prints, reports and leaves in
its variables and fields is the same after each run. -/

namespace LoxLang

/-! ## Direct references, computed -/

instance (name : String) (context : Context) : Decidable (context.Unshadowed name) :=
  inferInstanceAs (Decidable (∀ scope ∈ context.take _, name ∉ scope.whole))

instance {ι : Type} (u : Use ι) : Decidable u.Direct :=
  decidable_of_iff (u.context.Unshadowed u.ref.name.lexeme ∧
    (u.kind = .assign → u.isPending = false)) ⟨fun h => ⟨h.1, h.2⟩, fun h => ⟨h.1, h.2⟩⟩

/-- If a source text is accepted, also by the rules about names, then all references of its program
are direct. -/
def IsDirect (config : Config) (source : String) : Prop :=
  ∀ program, Accepted config source program →
    (visitProgram program).filterMap Finding.error? = [] →
    ∀ u, .use u ∈ visitProgram program → u.Direct

instance (config : Config) (source : String) : Decidable (IsDirect config source) :=
  decidable_of_iff
    (∀ parsed ∈ (parse config.nesting (Source.tokenize source).tokens).toOption,
      (Source.tokenize source).errors = [] → parsed.errors = [] →
      (visitProgram parsed.program).filterMap Finding.error? = [] →
      ∀ u ∈ (visitProgram parsed.program).filterMap Finding.use?, u.Direct) <| by
  constructor
  · intro h program haccepted herrors u hu
    refine h ⟨program, []⟩ ?_ haccepted.1 rfl herrors u (List.mem_filterMap.mpr ⟨_, hu, rfl⟩)
    rw [haccepted.2]
    rfl
  · rintro h ⟨program, errors⟩ hparsed hlexical rfl herrors u hu
    obtain ⟨f, hf, huse⟩ := List.mem_filterMap.mp hu
    cases f with
    | error e => cases huse
    | use u' =>
      cases huse
      refine h program ⟨hlexical, ?_⟩ herrors u hf
      cases hparse : parse config.nesting (Source.tokenize source).tokens with
      | ok parsed =>
        rw [hparse] at hparsed
        cases hparsed
        rfl
      | error e =>
        rw [hparse] at hparsed
        cases hparsed

/-! ## Labels do not matter -/

/-- Labelling a program changes no finding but for the labels. -/
theorem visitProgram_relabelAll (n : Label) (program : List (Stmt Unit)) :
    visitProgram program =
      (visitProgram (Stmt.relabelAll n program).1).map (Finding.map (fun _ => ()) id) := by
  have hunmark := congrArg visitProgram (Stmt.unmark_relabelAll n program)
  exact hunmark.symm.trans (visitProgram_map (fun _ => rfl) _)

theorem error?_visitProgram_relabelAll (n : Label) (program : List (Stmt Unit)) :
    (visitProgram (Stmt.relabelAll n program).1).filterMap Finding.error? =
      (visitProgram program).filterMap Finding.error? := by
  rw [visitProgram_relabelAll n program, List.filterMap_map]
  refine List.filterMap_congr fun f _ => ?_
  cases f with
  | use u => rfl
  | error e => rfl

/-- The references of an accepted program stay direct when they are labelled. -/
theorem IsDirect.relabelAll {config : Config} {source : String} (h : IsDirect config source)
    {program : List (Stmt Unit)} (haccepted : Accepted config source program) (n : Label)
    (herrors : (visitProgram (Stmt.relabelAll n program).1).filterMap Finding.error? = [])
    {u : Use Label} (hu : .use u ∈ visitProgram (Stmt.relabelAll n program).1) : u.Direct := by
  rw [error?_visitProgram_relabelAll] at herrors
  have hmem : .use (u.map (fun _ => ()) id) ∈ visitProgram program := by
    rw [visitProgram_relabelAll n program]
    exact List.mem_map_of_mem hu
  obtain ⟨hunshadowed, hdefined⟩ := h program haccepted herrors _ hmem
  exact ⟨hunshadowed, hdefined⟩

namespace Session

/-- The fault of each run, if there is one, and the session after it, when source texts are run one
after another, each within its own limits, and references are reached in the given way. -/
def runsVia (access : BindingTable → Access) :
    List (Config × String) → Session → List (Option Fault × Session)
  | [], _ => []
  | (config, source) :: rest, s =>
    let ran := s.runVia access config source
    ran :: ran.2.runsVia access rest

/-- A run of a direct source does the same by name as by hops. -/
theorem runVia_byName {s : Session} (hs : s.Sound (.ofUses Use.Direct)) {config : Config} {source : String}
    (hdirect : IsDirect config source) :
    s.runVia (fun _ => Access.byName) config source = s.run config source ∧
      (s.run config source).2.Sound (.ofUses Use.Direct) := by
  have hagrees : ∀ T n, Access.Agrees (.also (BindingTable.Recorded T n) (.ofUses Use.Direct)) T
      Access.byName := fun _ _ => Access.agrees_byName (fun _ h => h.1.hops_eq) fun _ h => h.2
  obtain ⟨heq, _, hsound⟩ := runVia_inStep hagrees hs fun program haccepted _ herrors =>
    met_ofUses fun u hu => hdirect.relabelAll haccepted s.nextLabel herrors hu
  exact ⟨heq, hsound⟩

theorem Sound.runsVia_byName {s : Session} (hs : s.Sound (.ofUses Use.Direct))
    {sources : List (Config × String)} (hsources : ∀ source ∈ sources, IsDirect source.1 source.2) :
    s.runsVia (fun _ => Access.byName) sources = s.runsVia Access.byHops sources := by
  induction sources generalizing s with
  | nil => rfl
  | cons first rest ih =>
    obtain ⟨hfirst, hrest⟩ := List.forall_mem_cons.mp hsources
    obtain ⟨heq, hsound⟩ := Session.runVia_byName hs hfirst
    have hrun : s.runVia Access.byHops first.1 first.2 = s.run first.1 first.2 := rfl
    rw [runsVia, runsVia, heq, hrun, ih hsound hrest]

/-- **Hop counts agree with walking the scope chain.** When only direct sources are run in a session
from its start, each run stops in the same way and leaves the same session behind, with what was
printed, what was reported and all variables and fields, whether references are reached by the hops
in the table or by name. -/
theorem runsVia_byName_eq (passesOn : Bool) (sources : List (Config × String))
    (hsources : ∀ source ∈ sources, IsDirect source.1 source.2) :
    (start passesOn).runsVia (fun _ => Access.byName) sources =
      (start passesOn).runsVia Access.byHops sources :=
  (sound_start (.ofUses Use.Direct) passesOn).runsVia_byName hsources

/-- A text in braces. -/
def braced (text : String) : String := "\x7b" ++ text ++ "\x7d"

/-- A session in which a class, its superclass and a function in a block outlive their runs. -/
def inheritingSources : List String :=
  ["class A" ++ braced ("f(x)" ++ braced "return x + this.g();") ++
      "class B < A" ++ braced ("f(x)" ++ braced "return super.f(x);"),
    "var show;" ++ braced ("var b = B(); fun showOf(x)" ++ braced "print b.f(x);" ++
      "show = showOf;"),
    "B.g = nil;",
    braced ("var b = A;" ++ braced "show(7);")]

theorem runsVia_byName_eq_inheriting :
    (start true).runsVia (fun _ => Access.byName)
        (inheritingSources.map fun source => (Config.standard fun _ => 0, source)) =
      (start true).runsVia Access.byHops
        (inheritingSources.map fun source => (Config.standard fun _ => 0, source)) :=
  runsVia_byName_eq true _ (by decide +kernel)

/-- A function that is called again after its scope has got the name that it reads: here the two
ways differ, and the reference is not direct. -/
example : ¬ IsDirect ⟨100, 100, fun _ => 0⟩ ("var a = 1;" ++
    braced ("fun show()" ++ braced "print a;" ++ "show(); var a = 2; show();")) := by
  decide +kernel

end Session
end LoxLang
