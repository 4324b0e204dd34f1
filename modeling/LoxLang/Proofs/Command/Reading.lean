import LoxLang.Command.Console
import LoxLang.Proofs.Session.Joining

/-! # How the command is called

What a list of arguments asks for, said without reading it from one end to the other: the first
argument that decides, decides (`Decides`, `Makes`), and when none does, the mode is that of the last
mode flag and the only positional argument is the script.  This is what the command does about all
arguments but some that are empty: while no file is named, an empty argument names none, and the
command goes on as if it were not there (`heeded`, `command_reads`).  So two positional arguments
of which the first is empty are one, and an empty one alone starts the prompt
(`command_emptyFirst`). -/

namespace LoxLang
namespace Request

/-! ## What arguments ask for -/

/-- An argument that asks how the command is used. -/
def AsksForHelp (argument : String) : Prop := argument = "--help" ∨ argument = "-h"

/-- The mode that an argument asks for. -/
def mode? (argument : String) : Option Mode :=
  if argument = "--ast" then some .program
  else if argument = "--tokens" then some .tokens
  else none

/-- An argument that is no flag. -/
def isPositional (argument : String) : Bool := !argument.startsWith "-"

/-- A flag that the command does not know. -/
structure IsUnknownFlag (argument : String) : Prop where
  flag : isPositional argument = false
  noHelp : ¬ AsksForHelp argument
  noMode : mode? argument = none

/-- An argument decides, behind the ones before it, what is asked for. -/
inductive Decides (before : List String) (argument : String) : Request → Prop
  | help (h : AsksForHelp argument) : Decides before argument .help
  | unknownFlag (h : IsUnknownFlag argument) : Decides before argument (.unknownFlag argument)
  | tooManyFiles (h : isPositional argument) (hbefore : ∃ earlier ∈ before, isPositional earlier) :
      Decides before argument .tooManyFiles

/-- None of some arguments decides what is asked for. -/
def Undecided (arguments : List String) : Prop :=
  ∀ before argument after, arguments = before ++ argument :: after →
    ∀ r, ¬ Decides before argument r

/-- The mode of the last mode flag. -/
def lastMode (arguments : List String) : Mode := (arguments.filterMap mode?).getLast?.getD .run

/-- What arguments ask for. -/
inductive Makes (arguments : List String) : Request → Prop
  | decided {before : List String} {argument : String} {after : List String} {r : Request}
      (hsplit : arguments = before ++ argument :: after) (hbefore : Undecided before)
      (h : Decides before argument r) : Makes arguments r
  | prompt (hundecided : Undecided arguments) (hnone : arguments.filter isPositional = []) :
      Makes arguments (.prompt (lastMode arguments))
  | script {path : String} (hundecided : Undecided arguments)
      (hone : arguments.filter isPositional = [path]) :
      Makes arguments (.script path (lastMode arguments))

/-- Arguments without the empty ones that stand before any that names a file. -/
def heeded : List String → List String
  | [] => []
  | argument :: rest =>
    if argument = "" then heeded rest
    else if isPositional argument then argument :: rest
    else argument :: heeded rest

/-! ## Flags and positional arguments -/

variable {before after arguments : List String} {argument : String} {r r' : Request}

theorem isPositional_empty : isPositional "" = true := by decide +kernel

theorem AsksForHelp.not_isPositional (h : AsksForHelp argument) :
    isPositional argument = false := by
  rcases h with rfl | rfl <;> decide +kernel

theorem not_isPositional_of_mode? {mode : Mode} (h : mode? argument = some mode) :
    isPositional argument = false := by
  unfold mode? at h
  split at h
  case isTrue hprogram =>
    rw [hprogram]
    decide +kernel
  case isFalse =>
    split at h
    case isTrue htokens =>
      rw [htokens]
      decide +kernel
    case isFalse => cases h

theorem AsksForHelp.mode?_eq_none (h : AsksForHelp argument) : mode? argument = none := by
  rcases h with rfl | rfl <;> decide

/-- An argument decides one thing. -/
theorem Decides.unique (h : Decides before argument r) (h' : Decides before argument r') :
    r = r' := by
  cases h with
  | help h =>
    cases h' with
    | help => rfl
    | unknownFlag h' => exact absurd h h'.noHelp
    | tooManyFiles h' => exact absurd h' (by rw [h.not_isPositional]; decide)
  | unknownFlag h =>
    cases h' with
    | help h' => exact absurd h' h.noHelp
    | unknownFlag => rfl
    | tooManyFiles h' => exact absurd h' (by rw [h.flag]; decide)
  | tooManyFiles h =>
    cases h' with
    | help h' => exact absurd h (by rw [h'.not_isPositional]; decide)
    | unknownFlag h' => exact absurd h (by rw [h'.flag]; decide)
    | tooManyFiles => rfl

/-! ## What is asked for is one thing -/

theorem undecided_nil : Undecided [] := by
  intro before argument after h
  cases before <;> cases h

theorem Undecided.concat (h : Undecided before) (hpasses : ∀ r, ¬ Decides before argument r) :
    Undecided (before ++ [argument]) := by
  intro before' argument' after' hsplit
  rcases List.eq_nil_or_concat after' with rfl | ⟨inner, last, rfl⟩
  · obtain ⟨rfl, hlast⟩ := List.append_inj' hsplit rfl
    cases hlast
    exact hpasses
  · rw [List.concat_eq_append, ← List.cons_append, ← List.append_assoc] at hsplit
    exact h _ _ _ (List.append_inj' hsplit rfl).1

theorem Undecided.concat_mode (h : Undecided before) {mode : Mode}
    (hmode : mode? argument = some mode) : Undecided (before ++ [argument]) := by
  refine h.concat fun r hdecides => ?_
  cases hdecides with
  | help h => cases hmode.symm.trans h.mode?_eq_none
  | unknownFlag h => cases hmode.symm.trans h.noMode
  | tooManyFiles h => cases (not_isPositional_of_mode? hmode).symm.trans h

theorem Undecided.concat_file (h : Undecided before) (hpositional : isPositional argument)
    (hnone : before.filter isPositional = []) : Undecided (before ++ [argument]) := by
  refine h.concat fun r hdecides => ?_
  cases hdecides with
  | help h => cases h.not_isPositional.symm.trans hpositional
  | unknownFlag h => cases h.flag.symm.trans hpositional
  | tooManyFiles _ hbefore =>
    obtain ⟨earlier, hmem, hearlier⟩ := hbefore
    have hmem := List.mem_filter.mpr ⟨hmem, hearlier⟩
    rw [hnone] at hmem
    cases hmem

/-- Of two places at which arguments are decided first, neither is before the other. -/
theorem Makes.unique (h : Makes arguments r) (h' : Makes arguments r') : r = r' := by
  cases h with
  | decided hsplit hbefore hdecides =>
    cases h' with
    | decided hsplit' hbefore' hdecides' =>
      rcases List.append_eq_append_iff.mp (hsplit.symm.trans hsplit') with
        ⟨between, rfl, hrest⟩ | ⟨between, rfl, hrest⟩
      · cases between with
        | nil =>
          cases hrest
          rw [List.append_nil] at hdecides'
          exact hdecides.unique hdecides'
        | cons first between =>
          cases hrest
          exact absurd hdecides (hbefore' _ _ _ rfl _)
      · cases between with
        | nil =>
          cases hrest
          rw [List.append_nil] at hdecides
          exact hdecides.unique hdecides'
        | cons first between =>
          cases hrest
          exact absurd hdecides' (hbefore _ _ _ rfl _)
    | prompt hundecided | script hundecided =>
      exact absurd hdecides (hundecided _ _ _ hsplit _)
  | prompt hundecided hnone =>
    cases h' with
    | decided hsplit _ hdecides => exact absurd hdecides (hundecided _ _ _ hsplit _)
    | prompt => rfl
    | script _ hone => cases hnone.symm.trans hone
  | script hundecided hone =>
    cases h' with
    | decided hsplit _ hdecides => exact absurd hdecides (hundecided _ _ _ hsplit _)
    | prompt _ hnone => cases hnone.symm.trans hone
    | script _ hone' =>
      cases hone.symm.trans hone'
      rfl

/-! ## What is read -/

theorem lastMode_concat (before : List String) (argument : String) :
    lastMode (before ++ [argument]) = (mode? argument).getD (lastMode before) := by
  cases hmode : mode? argument <;> simp [lastMode, List.filterMap_append, hmode]

theorem heeded_empty (rest : List String) : heeded ("" :: rest) = heeded rest := by simp [heeded]

theorem heeded_flag (hflag : isPositional argument = false) (rest : List String) :
    heeded (argument :: rest) = argument :: heeded rest := by
  have hne : argument ≠ "" := by
    rintro rfl
    cases isPositional_empty.symm.trans hflag
  simp [heeded, hne, hflag]

theorem heeded_file (hne : argument ≠ "") (hpositional : isPositional argument)
    (rest : List String) : heeded (argument :: rest) = argument :: rest := by
  simp [heeded, hne, hpositional]

theorem length_heeded_le (arguments : List String) :
    (heeded arguments).length ≤ arguments.length := by
  induction arguments with
  | nil => exact Nat.le_refl _
  | cons argument rest ih =>
    unfold heeded
    split
    case isTrue => exact Nat.le_succ_of_le ih
    case isFalse =>
      split
      case isTrue => exact Nat.le_refl _
      case isFalse => exact Nat.succ_le_succ ih

theorem heeded_heeded (arguments : List String) : heeded (heeded arguments) = heeded arguments := by
  induction arguments with
  | nil => rfl
  | cons argument rest ih =>
    by_cases hempty : argument = ""
    · rw [hempty, heeded_empty, ih]
    cases hpositional : isPositional argument with
    | true => rw [heeded_file hempty hpositional, heeded_file hempty hpositional]
    | false => rw [heeded_flag hpositional, heeded_flag hpositional, ih]

/-- Where an empty argument stands only behind one that names a file, all arguments are heeded. -/
theorem heeded_eq_self
    (h : ∀ before after, arguments = before ++ "" :: after →
      ∃ earlier ∈ before, isPositional earlier) : heeded arguments = arguments := by
  induction arguments with
  | nil => rfl
  | cons argument rest ih =>
    by_cases hempty : argument = ""
    · obtain ⟨_, hmem, _⟩ := h [] rest (by rw [hempty, List.nil_append])
      cases hmem
    cases hpositional : isPositional argument with
    | true => exact heeded_file hempty hpositional rest
    | false =>
      rw [heeded_flag hpositional, ih]
      intro before after hsplit
      obtain ⟨earlier, hmem, hearlier⟩ := h (argument :: before) after (by rw [hsplit]; rfl)
      rcases List.mem_cons.mp hmem with rfl | hmem
      · cases hearlier.symm.trans hpositional
      · exact ⟨earlier, hmem, hearlier⟩

/-- While no file is named, an empty argument changes nothing. -/
theorem read_heeded (mode : Mode) (arguments : List String) :
    read none mode (heeded arguments) = read none mode arguments := by
  induction arguments generalizing mode with
  | nil => rfl
  | cons argument rest ih =>
    by_cases hempty : argument = ""
    · have hflag : ("".startsWith "-") = false := by decide +kernel
      rw [hempty, heeded_empty, ih, read]
      simp [hflag]
    cases hpositional : isPositional argument with
    | true => rw [heeded_file hempty hpositional]
    | false =>
      have hstarts : argument.startsWith "-" = true := by simpa [isPositional] using hpositional
      rw [heeded_flag hpositional]
      simp only [read, ih, hstarts, if_true]

/-- **What is read is what is asked for**, behind arguments of which none decides, when the file and
the mode so far are those of these. -/
theorem makes_read {file : Option String} {mode : Mode} (rest : List String)
    (hundecided : Undecided before) (hfile : before.filter isPositional = file.toList)
    (hmode : lastMode before = mode) (hheeded : file = none → heeded rest = rest) :
    Makes (before ++ rest) (read file mode rest) := by
  induction rest generalizing before file mode with
  | nil =>
    subst hmode
    rw [List.append_nil]
    cases file with
    | none => exact .prompt hundecided hfile
    | some path => exact .script hundecided hfile
  | cons argument rest ih =>
    -- A flag that asks for a mode is read, and so is all before it.
    have hread_mode {mode' : Mode} (hasks : mode? argument = some mode') :
        Makes (before ++ argument :: rest) (read file mode' rest) := by
      have hflag := not_isPositional_of_mode? hasks
      rw [List.append_cons]
      refine ih (hundecided.concat_mode hasks) ?_ ?_ ?_
      · simp [List.filter_append, hflag, hfile]
      · simp [lastMode_concat, hasks]
      · intro hnone
        have hall := hheeded hnone
        rw [heeded_flag hflag] at hall
        exact List.tail_eq_of_cons_eq hall
    unfold read
    split
    case isTrue hhelp => exact .decided rfl hundecided (.help hhelp)
    case isFalse hhelp =>
    split
    case isTrue hprogram => exact hread_mode (by rw [hprogram]; rfl)
    case isFalse hprogram =>
    split
    case isTrue htokens => exact hread_mode (by rw [htokens]; rfl)
    case isFalse htokens =>
    have hnoMode : mode? argument = none := by simp [mode?, hprogram, htokens]
    split
    case isTrue hflag =>
      exact .decided rfl hundecided (.unknownFlag ⟨by simp [isPositional, hflag], hhelp, hnoMode⟩)
    case isFalse hflag =>
    have hpositional : isPositional argument := by simp [isPositional, hflag]
    cases file with
    | some path =>
      have hmem : path ∈ before.filter isPositional := by rw [hfile]; simp
      obtain ⟨hmem, hpath⟩ := List.mem_filter.mp hmem
      exact .decided rfl hundecided (.tooManyFiles hpositional ⟨path, hmem, hpath⟩)
    | none =>
      have hne : argument ≠ "" := by
        rintro rfl
        have hall := congrArg List.length (hheeded rfl)
        rw [heeded_empty, List.length_cons] at hall
        have := length_heeded_le rest
        omega
      simp only [hne, if_false]
      rw [List.append_cons]
      refine ih (hundecided.concat_file hpositional hfile) ?_ ?_ ?_
      · simp [List.filter_append, hpositional, hfile]
      · rw [lastMode_concat, hnoMode, hmode]
        rfl
      · intro hnone
        cases hnone

/-- Arguments make the request that those of them make which are heeded. -/
theorem makes_ofArguments (arguments : List String) :
    Makes (heeded arguments) (ofArguments arguments) := by
  rw [ofArguments, ← read_heeded]
  have hread : Makes ([] ++ heeded arguments) (read none .run (heeded arguments)) :=
    makes_read (heeded arguments) undecided_nil rfl rfl fun _ => heeded_heeded arguments
  exact hread

end Request

namespace Console
open Request

/-- An outcome is what a request is for. -/
def Fulfils (config : Config) (file : String → Except OpenError ByteArray) (lines : List String)
    (outcome : Outcome) : Request → Prop
  | .help => outcome.exit.code = 0 ∧ outcome.out = usage ∧ outcome.err = ""
  | .unknownFlag flag => outcome.exit.code = 2 ∧ outcome.out = "" ∧
      outcome.err = "lox: unknown flag '" ++ flag ++ "'\n"
  | .tooManyFiles => outcome.exit.code = 64 ∧ outcome.out = "" ∧ outcome.err = usage
  | .prompt mode => outcome = prompt config mode lines
  | .script path mode => outcome = script config mode path (file path)

theorem fulfils_command (config : Config) (arguments : List String)
    (file : String → Except OpenError ByteArray) (lines : List String) :
    Fulfils config file lines (command config arguments file lines) (ofArguments arguments) := by
  unfold command
  cases ofArguments arguments with
  | help | tooManyFiles => exact ⟨rfl, rfl, rfl⟩
  | unknownFlag flag =>
    have hstart : "lox: unknown flag '" = "lox: " ++ "unknown flag '" := by decide +kernel
    have hend : "'\n" = "'" ++ "\n" := by decide +kernel
    exact ⟨rfl, rfl, by simp only [complaint, hstart, hend, String.append_assoc]⟩
  | prompt | script => rfl

/-- **The command does what its arguments ask for, but for empty ones that stand before any that
names a file.**  What they ask for is one thing; which arguments are heeded plays no part where no
empty argument stands there. -/
theorem command_reads (config : Config) (arguments : List String)
    (file : String → Except OpenError ByteArray) (lines : List String) :
    (∀ r, Makes (heeded arguments) r ↔ r = ofArguments arguments) ∧
    Fulfils config file lines (command config arguments file lines) (ofArguments arguments) ∧
    ((∀ before after, arguments = before ++ "" :: after →
        ∃ earlier ∈ before, isPositional earlier) → heeded arguments = arguments) := by
  refine ⟨fun r => ⟨fun h => h.unique (makes_ofArguments arguments), ?_⟩,
    fulfils_command config arguments file lines, heeded_eq_self⟩
  rintro rfl
  exact makes_ofArguments arguments

/-- One script, and no other file. -/
def oneScript (path : String) : Except OpenError ByteArray :=
  if path = "a.lox" then .ok "print \"one\";".toUTF8 else .error .notFound

theorem command_reads_flagsAround :
    Makes ["--tokens", "a.lox", "--ast"] (.script "a.lox" .program) ∧
    (command Session.shortly ["--tokens", "a.lox", "--ast"] oneScript []).out =
      "(print \"one\")\n" := by
  obtain ⟨hmakes, hfulfils, hheeded⟩ :=
    command_reads Session.shortly ["--tokens", "a.lox", "--ast"] oneScript []
  have hall : heeded ["--tokens", "a.lox", "--ast"] = ["--tokens", "a.lox", "--ast"] := by
    refine hheeded fun before after hsplit => ?_
    have hmem : "" ∈ ["--tokens", "a.lox", "--ast"] := by rw [hsplit]; simp
    exact absurd hmem (by decide)
  have hrequest : ofArguments ["--tokens", "a.lox", "--ast"] = .script "a.lox" .program := by
    decide +kernel
  rw [hall, hrequest] at hmakes
  rw [hrequest] at hfulfils
  refine ⟨(hmakes _).mpr rfl, ?_⟩
  rw [show command _ _ _ _ = _ from hfulfils]
  decide +kernel

/-- Two positional arguments of which the first is empty are run as one, and an empty one alone
starts the prompt. -/
theorem command_emptyFirst :
    Makes ["", "a.lox"] .tooManyFiles ∧
    ¬ Fulfils Session.shortly oneScript [] (command Session.shortly ["", "a.lox"] oneScript [])
      .tooManyFiles ∧
    (command Session.shortly ["", "a.lox"] oneScript []).out = "one\n" ∧
    Makes [""] (.script "" .run) ∧ ofArguments [""] = .prompt .run := by
  have hempty : Undecided ([] ++ [""]) := undecided_nil.concat_file isPositional_empty rfl
  have hout : (command Session.shortly ["", "a.lox"] oneScript []).out = "one\n" := by
    decide +kernel
  have hmakes : Makes (([] ++ [""]) ++ "a.lox" :: []) .tooManyFiles :=
    .decided rfl hempty (.tooManyFiles (by decide +kernel)
      ⟨"", List.mem_singleton_self _, isPositional_empty⟩)
  refine ⟨hmakes, fun h => ?_, hout,
    .script hempty (by decide +kernel), by decide +kernel⟩
  exact absurd (hout.symm.trans h.2.1) (by decide)

end Console
end LoxLang
