import LoxLang.Proofs.Session.Changing
import LoxLang.Proofs.Session.Safety
import Mathlib.Logic.Denumerable

/-! # Lines influence nothing but reports

Two sessions run sources that differ, source by source, only in the lines on which their tokens
stand.  Then they do the same, run by run: the same stages report the same errors, at tokens that
correspond to each other, the programs are the same up to lines and their references lead as many
scopes out, and they print the same text and end with the same runtime error, if one
(`run_onOtherLines`).

Both sessions come from a third one by a change of lines.  Its tokens stand on lines that say on
which lines both of two corresponding tokens stand (`Token.merge`), so that one change leads to the
first session (`Token.first`) and another one to the second (`Token.second`).  That a report is
about corresponding tokens follows from a third change, which moves just the tokens that do not come
from corresponding ones (`Token.moved`): it leaves the runs of the third session as they are, and so
there is no report about a token that it moves. -/

namespace LoxLang

deriving instance DecidableEq for Datum
deriving instance DecidableEq for Token

/-! ## Two lines in one -/

/-- A pair of lines as one line. -/
def pairOfLines : Int × Int ≃ Int := Denumerable.equiv₂ (Int × Int) Int

namespace Token

/-- A token that stands on the lines of two. -/
def merge (t t' : Token) : Token := { t with line := pairOfLines (t.line, t'.line) }

/-- The first of the two tokens. -/
def first (t : Token) : Token := { t with line := (pairOfLines.symm t.line).1 }

/-- The second of the two tokens. -/
def second (t : Token) : Token := { t with line := (pairOfLines.symm t.line).2 }

open Classical in
/-- A token stays on its line only if it stands for two tokens that belong together. -/
noncomputable def moved (P : Token → Token → Prop) (t : Token) : Token :=
  if P t.first t.second then t else { t with line := t.line + 1 }

theorem relines_first : Relines first := fun _ => rfl

theorem relines_second : Relines second := fun _ => rfl

theorem relines_moved (P : Token → Token → Prop) : Relines (moved P) := by
  intro t
  unfold moved
  split <;> rfl

theorem first_merge (t t' : Token) : (t.merge t').first = t := by
  simp [first, merge]

theorem second_merge {t t' : Token} (h : t'.unlined = t.unlined) : (t.merge t').second = t' := by
  obtain ⟨kind, lexeme, literal, line⟩ := t
  obtain ⟨kind', lexeme', literal', line'⟩ := t'
  obtain ⟨rfl, rfl, rfl, -⟩ := Token.mk.inj h
  simp [second, merge]

theorem moved_of_belong {P : Token → Token → Prop} {t : Token} (h : P t.first t.second) :
    moved P t = t := if_pos h

theorem belong_of_moved {P : Token → Token → Prop} {t : Token} (h : t = moved P t) :
    P t.first t.second := by
  by_contra hnot
  rw [moved, if_neg hnot] at h
  have hline : t.line = t.line + 1 := congrArg Token.line h
  omega

/-- Tokens on the lines of two lists of tokens that belong together. -/
theorem map_zipWith_merge {P : Token → Token → Prop} {ts ts' : List Token}
    (h : List.Forall₂ (fun t t' => t'.unlined = t.unlined ∧ P t t') ts ts') :
    (List.zipWith merge ts ts').map first = ts ∧ (List.zipWith merge ts ts').map second = ts' ∧
      (List.zipWith merge ts ts').map (moved P) = List.zipWith merge ts ts' := by
  induction h with
  | nil => exact ⟨rfl, rfl, rfl⟩
  | @cons t t' ts ts' ht _ ih =>
    obtain ⟨hlines, hbelong⟩ := ht
    obtain ⟨hfirst, hsecond, hmoved⟩ := ih
    have hstays : moved P (t.merge t') = t.merge t' := moved_of_belong (by
      rw [first_merge, second_merge hlines]
      exact hbelong)
    simp only [List.zipWith_cons_cons, List.map_cons, hfirst, hsecond, hmoved, hstays, first_merge,
      second_merge hlines, and_self]

end Token

variable {P : Token → Token → Prop}

/-! ## Texts that differ in lines -/

/-- Tokens that differ in lines and belong together one by one, and errors that say the same. -/
structure Tokenized.Alike (P : Token → Token → Prop) (found found' : Tokenized) : Prop where
  tokens : List.Forall₂ (fun t t' => t'.unlined = t.unlined ∧ P t t') found.tokens found'.tokens
  errors : found'.errors.map (fun e => e.fault.message) =
    found.errors.map fun e => e.fault.message

/-- The tokens of two texts, on the lines of both. -/
def Tokenized.merged (found found' : Tokenized) : Tokenized :=
  ⟨List.zipWith Token.merge found.tokens found'.tokens, found.errors⟩

/-- Both texts and itself come from the text on the lines of both. -/
theorem Tokenized.Alike.follows {found found' : Tokenized} (h : found.Alike P found') :
    (found.merged found').Follows Token.first found ∧
      (found.merged found').Follows Token.second found' ∧
      (found.merged found').Follows (Token.moved P) (found.merged found') := by
  obtain ⟨hfirst, hsecond, hmoved⟩ := Token.map_zipWith_merge h.tokens
  exact ⟨⟨hfirst.symm, rfl⟩, ⟨hsecond.symm, h.errors⟩, ⟨hmoved.symm, rfl⟩⟩

/-! ## What belongs together -/

/-- Two reports that come from a third one, which is about a token that is not moved. -/
theorem Diagnostic.alike_of_first_second {d e e' : Diagnostic}
    (hfirst : d.Alike (fun t t' => t' = t.first) e)
    (hsecond : d.Alike (fun t t' => t' = t.second) e')
    (hmoved : d.Alike (fun t t' => t' = t.moved P) d) : e.Alike P e' := by
  cases hmoved with
  | lexical message line =>
    cases hfirst
    cases hsecond
    exact .lexical message _ _
  | syntactic message h =>
    cases hfirst with
    | syntactic _ ht =>
      cases hsecond with
      | syntactic _ ht' =>
        subst ht ht'
        exact .syntactic message (Token.belong_of_moved h)
  | scoping message h =>
    cases hfirst with
    | scoping _ ht =>
      cases hsecond with
      | scoping _ ht' =>
        subst ht ht'
        exact .scoping message (Token.belong_of_moved h)
  | runtime message h =>
    cases hfirst with
    | runtime _ ht =>
      cases hsecond with
      | runtime _ ht' =>
        subst ht ht'
        exact .runtime message (Token.belong_of_moved h)

theorem Diagnostic.allAlike_of_first_second {ds es es' : List Diagnostic}
    (hfirst : List.Forall₂ (Diagnostic.Alike fun t t' => t' = t.first) ds es)
    (hsecond : List.Forall₂ (Diagnostic.Alike fun t t' => t' = t.second) ds es')
    (hmoved : List.Forall₂ (Diagnostic.Alike fun t t' => t' = t.moved P) ds ds) :
    List.Forall₂ (Diagnostic.Alike P) es es' := by
  induction hfirst generalizing es' with
  | nil =>
    cases hsecond
    exact .nil
  | cons hd _ ih =>
    cases hsecond with
    | cons hd' hsecond =>
      cases hmoved with
      | cons hd'' hmoved => exact .cons (alike_of_first_second hd hd' hd'') (ih hsecond hmoved)

/-- The same binding of a token that belongs with the other's. -/
structure Binding.Alike (P : Token → Token → Prop) (b b' : Binding) : Prop where
  label : b'.label = b.label
  use : b'.use = b.use
  hops : b'.hops = b.hops
  topLevel : b'.topLevel = b.topLevel
  name : P b.name b'.name

/-- What a change leaves as a whole, it leaves one by one. -/
theorem eq_of_eq_map {α : Type} {f : α → α} {as : List α} (h : as = as.map f) :
    ∀ a ∈ as, a = f a :=
  List.map_inj_left.mp ((List.map_id as).trans h)

theorem BindingTable.allAlike_of_first_second {t : BindingTable} (h : t = t.map (Token.moved P)) :
    List.Forall₂ (Binding.Alike P) (t.map Token.first).entries (t.map Token.second).entries := by
  have hentries : t.entries = t.entries.map (Binding.map (Token.moved P)) :=
    congrArg BindingTable.entries h
  rw [map, map, List.forall₂_map_left_iff, List.forall₂_map_right_iff, List.forall₂_same]
  intro b hb
  refine ⟨rfl, rfl, rfl, rfl, Token.belong_of_moved ?_⟩
  exact congrArg Binding.name (eq_of_eq_map hentries b hb)

/-- The same syntax error at tokens that belong together. -/
structure SyntaxError.Alike (P : Token → Token → Prop) (e e' : SyntaxError) : Prop where
  fault : e'.fault = e.fault
  place : P e.place e'.place

/-- The same scope error at tokens that belong together. -/
structure ScopeError.Alike (P : Token → Token → Prop) (e e' : ScopeError) : Prop where
  fault : e'.fault = e.fault
  place : P e.place e'.place

/-- Programs that are the same up to lines. -/
def SameProgram {ι : Type} (program program' : List (Stmt ι)) : Prop :=
  program'.map (Stmt.map id Token.unlined) = program.map (Stmt.map id Token.unlined)

/-- Changes of lines lead from a program to the same programs up to lines. -/
theorem sameProgram_map {ι : Type} {φ φ' : Token → Token} (hφ : Relines φ) (hφ' : Relines φ')
    (program : List (Stmt ι)) :
    SameProgram (program.map (Stmt.map id φ)) (program.map (Stmt.map id φ')) := by
  have hcomp : Token.unlined ∘ φ' = Token.unlined ∘ φ := funext fun t => (hφ' t).trans (hφ t).symm
  simp only [SameProgram, List.map_map]
  refine List.map_congr_left fun s _ => ?_
  rw [Function.comp, Function.comp, Stmt.map_map, Stmt.map_map, hcomp]

/-- The same programs up to lines, with the same errors, or the same fault. -/
inductive ParsedAlike (P : Token → Token → Prop) : Except Fault Parsed → Except Fault Parsed → Prop
  | fault (f : Fault) : ParsedAlike P (.error f) (.error f)
  | parsed {p p' : Parsed} (hprogram : SameProgram p.program p'.program)
      (herrors : List.Forall₂ (SyntaxError.Alike P) p.errors p'.errors) :
      ParsedAlike P (.ok p) (.ok p')

/-- **Tokens that differ in lines form the same program** up to lines, with the same errors at
tokens that belong together. -/
theorem Tokenized.Alike.parse {found found' : Tokenized} (h : found.Alike P found') (depth : Nat) :
    ParsedAlike P (parse depth found.tokens) (parse depth found'.tokens) := by
  obtain ⟨hfirst, hsecond, hmoved⟩ := h.follows
  have hparse := fun {φ : Token → Token} (hφ : Relines φ) =>
    parse_map hφ.kind hφ.literal depth (found.merged found').tokens
  have hstays := hparse (Token.relines_moved P)
  rw [← hmoved.tokens] at hstays
  rw [hfirst.tokens, hsecond.tokens, hparse Token.relines_first, hparse Token.relines_second]
  cases hp : LoxLang.parse depth (found.merged found').tokens with
  | error f => exact .fault f
  | ok p =>
    rw [hp] at hstays
    have herrors := eq_of_eq_map (congrArg Parsed.errors (Except.ok.inj hstays))
    refine .parsed (sameProgram_map Token.relines_first Token.relines_second p.program) ?_
    rw [Parsed.map, Parsed.map, List.forall₂_map_left_iff, List.forall₂_map_right_iff,
      List.forall₂_same]
    exact fun e he =>
      ⟨rfl, Token.belong_of_moved (congrArg SyntaxError.place (herrors e he))⟩

namespace Session

/-! ## Sessions that differ in lines -/

/-- Both sessions come from a third one, in which no token is moved. -/
def Parallel (P : Token → Token → Prop) (s s' : Session) : Prop :=
  ∃ m : Session, m.Follows Token.first s ∧ m.Follows Token.second s' ∧ m.Follows (Token.moved P) m

theorem parallel_start (passesOn passesOn' : Bool) : (start passesOn).Parallel P (start passesOn') :=
  ⟨start passesOn, follows_start _ _ _, follows_start _ _ _, follows_start _ _ _⟩

section
variable {s s' : Session} (h : s.Parallel P s')
include h

theorem Parallel.nextLabel : s'.nextLabel = s.nextLabel := by
  obtain ⟨m, hfirst, hsecond, _⟩ := h
  exact hsecond.nextLabel.trans hfirst.nextLabel.symm

theorem Parallel.output : s'.machine.output = s.machine.output := by
  obtain ⟨m, hfirst, hsecond, _⟩ := h
  rw [hfirst.machine, hsecond.machine]
  rfl

theorem Parallel.table : List.Forall₂ (Binding.Alike P) s.table.entries s'.table.entries := by
  obtain ⟨m, hfirst, hsecond, hmoved⟩ := h
  rw [hfirst.table, hsecond.table]
  exact BindingTable.allAlike_of_first_second hmoved.table

theorem Parallel.runtimeErrors :
    List.Forall₂ (Diagnostic.Alike P) s.log.runtimeErrors s'.log.runtimeErrors := by
  obtain ⟨m, hfirst, hsecond, hmoved⟩ := h
  exact Diagnostic.allAlike_of_first_second hfirst.runtimeErrors hsecond.runtimeErrors
    hmoved.runtimeErrors

/-- A run of tokens on other lines does the same, and leaves sessions that differ in lines. -/
theorem Parallel.runTokens (config : Config) {found found' : Tokenized}
    (hfound : found.Alike P found') :
    (s'.runTokens config found').1 = (s.runTokens config found).1 ∧
      (s.runTokens config found).2.Parallel P (s'.runTokens config found').2 := by
  obtain ⟨m, hfirst, hsecond, hmoved⟩ := h
  obtain ⟨hfoundFirst, hfoundSecond, hfoundMoved⟩ := hfound.follows
  obtain ⟨hfault, hfirst⟩ := hfirst.runTokens Token.relines_first config hfoundFirst
  obtain ⟨hfault', hsecond⟩ := hsecond.runTokens Token.relines_second config hfoundSecond
  obtain ⟨_, hmoved⟩ := hmoved.runTokens (Token.relines_moved P) config hfoundMoved
  exact ⟨hfault'.trans hfault.symm, _, hfirst, hsecond, hmoved⟩

end

/-- What is reported before execution is the same, at tokens that belong together. -/
theorem staticErrors_alike (config : Config) {found found' : Tokenized}
    (hfound : found.Alike P found') (n : Label) :
    List.Forall₂ (Diagnostic.Alike P) (staticErrors config found n)
      (staticErrors config found' n) := by
  obtain ⟨hfirst, hsecond, hmoved⟩ := hfound.follows
  exact Diagnostic.allAlike_of_first_second
    (alike_staticErrors Token.relines_first config hfirst n)
    (alike_staticErrors Token.relines_second config hsecond n)
    (alike_staticErrors (Token.relines_moved P) config hmoved n)

/-- Two programs bound alike: the same labelled program up to lines, the same errors at tokens that
belong together, and tables that lead the same references as many scopes out. -/
structure BoundAlike (P : Token → Token → Prop) (config : Config)
    (program program' : List (Stmt Unit)) (s s' : Session) : Prop where
  labelled : SameProgram (s.adopt program).1 (s'.adopt program').1
  errors : List.Forall₂ (ScopeError.Alike P) ((s.adopt program).2.bind config (s.adopt program).1).1
    ((s'.adopt program').2.bind config (s'.adopt program').1).1
  fault : ((s'.adopt program').2.bind config (s'.adopt program').1).2.1 =
    ((s.adopt program).2.bind config (s.adopt program).1).2.1
  table : List.Forall₂ (Binding.Alike P)
    ((s.adopt program).2.bind config (s.adopt program).1).2.2.table.entries
    ((s'.adopt program').2.bind config (s'.adopt program').1).2.2.table.entries

/-- A changed program is adopted as the program is. -/
theorem Follows.adopt {φ : Token → Token} {s s' : Session} (h : s.Follows φ s')
    (program : List (Stmt Unit)) :
    (s'.adopt (program.map (Stmt.map id φ))).1 = (s.adopt program).1.map (Stmt.map id φ) ∧
      (s.adopt program).2.Follows φ (s'.adopt (program.map (Stmt.map id φ))).2 := by
  unfold Session.adopt
  rw [Stmt.relabelAll_map, h.nextLabel]
  exact ⟨rfl, h.machine, h.table, rfl, h.runtimeErrors⟩

/-- A changed program is adopted and bound as the program is. -/
theorem Follows.adopt_bind {φ : Token → Token} (hφ : Relines φ) {s s' : Session}
    (h : s.Follows φ s') (config : Config) (program : List (Stmt Unit)) :
    let changed := s'.adopt (program.map (Stmt.map id φ))
    let bound := (s.adopt program).2.bind config (s.adopt program).1
    let bound' := changed.2.bind config changed.1
    bound'.1 = bound.1.map (ScopeError.map φ) ∧ bound'.2.1 = bound.2.1 ∧
      bound.2.2.Follows φ bound'.2.2 := by
  obtain ⟨hprogram, hadopted⟩ := h.adopt program
  have hbind := hadopted.bind hφ config (s.adopt program).1
  rwa [← hprogram] at hbind

/-- The programs of tokens that differ in lines are bound alike. -/
theorem Parallel.bind {s s' : Session} (h : s.Parallel P s') {config : Config} {found found' : Tokenized}
    (hfound : found.Alike P found') {parsed parsed' : Parsed}
    (hparsed : parse config.nesting found.tokens = .ok parsed)
    (hparsed' : parse config.nesting found'.tokens = .ok parsed') :
    BoundAlike P config parsed.program parsed'.program s s' := by
  obtain ⟨m, hfirst, hsecond, hmoved⟩ := h
  obtain ⟨hfoundFirst, hfoundSecond, hfoundMoved⟩ := hfound.follows
  have hparse := fun {φ : Token → Token} (hφ : Relines φ) =>
    parse_map hφ.kind hφ.literal config.nesting (found.merged found').tokens
  have hstays := hparse (Token.relines_moved P)
  rw [← hfoundMoved.tokens] at hstays
  rw [hfoundFirst.tokens, hparse Token.relines_first] at hparsed
  rw [hfoundSecond.tokens, hparse Token.relines_second] at hparsed'
  cases hp : parse config.nesting (found.merged found').tokens with
  | error f =>
    rw [hp] at hparsed
    cases hparsed
  | ok p =>
    rw [hp] at hparsed hparsed' hstays
    obtain rfl := (Except.ok.inj hparsed).symm
    obtain rfl := (Except.ok.inj hparsed').symm
    have hprogram : p.program = p.program.map (Stmt.map id (Token.moved P)) :=
      congrArg Parsed.program (Except.ok.inj hstays)
    obtain ⟨herrors, hfault, hbound⟩ := hfirst.adopt_bind Token.relines_first config p.program
    obtain ⟨herrors', hfault', hbound'⟩ :=
      hsecond.adopt_bind Token.relines_second config p.program
    obtain ⟨hkept, _, hbound''⟩ := hmoved.adopt_bind (Token.relines_moved P) config p.program
    rw [← hprogram] at hkept hbound''
    refine ⟨?_, ?_, hfault'.trans hfault.symm, Parallel.table ⟨_, hbound, hbound', hbound''⟩⟩
    · rw [Parsed.map, Parsed.map, (hfirst.adopt p.program).1, (hsecond.adopt p.program).1]
      exact sameProgram_map Token.relines_first Token.relines_second _
    · rw [Parsed.map, Parsed.map, herrors, herrors', List.forall₂_map_left_iff,
        List.forall₂_map_right_iff, List.forall₂_same]
      exact fun e he => ⟨rfl, Token.belong_of_moved
        (congrArg ScopeError.place (eq_of_eq_map hkept e he))⟩

end Session

/-! ## Source texts on other lines -/

/-- Two source texts with the same tokens and the same messages of lexical errors, on whatever
lines. -/
structure Source.OnOtherLines (source source' : String) : Prop where
  tokens : (tokenize source').tokens.map Token.unlined = (tokenize source).tokens.map Token.unlined
  errors : (tokenize source').errors.map (fun e => e.fault.message) =
    (tokenize source).errors.map fun e => e.fault.message

/-- Two tokens stand at the same position of two source texts. -/
def Source.Corresponding (source source' : String) (t t' : Token) : Prop :=
  ∃ i : Nat, (tokenize source).tokens[i]? = some t ∧ (tokenize source').tokens[i]? = some t'

theorem Source.OnOtherLines.alike {source source' : String} (h : OnOtherLines source source')
    (hP : ∀ t t', Corresponding source source' t t' → P t t') :
    (tokenize source).Alike P (tokenize source') where
  tokens := by
    have hlength := congrArg List.length h.tokens
    rw [List.length_map, List.length_map] at hlength
    refine List.forall₂_iff_get.mpr ⟨hlength.symm, fun i hi hi' => ⟨?_, hP _ _ ⟨i, ?_, ?_⟩⟩⟩
    · have hget := congrArg (fun ts => ts[i]?) h.tokens
      simpa [List.getElem?_eq_getElem hi, List.getElem?_eq_getElem hi'] using hget
    · exact List.getElem?_eq_getElem hi
    · exact List.getElem?_eq_getElem hi'
  errors := h.errors

namespace Session

/-- Two tokens stand at the same position of two source texts that are run at the same point. -/
def Corresponding (sources sources' : List (Config × String)) (t t' : Token) : Prop :=
  ∃ (i : Nat) (r r' : Config × String), sources[i]? = some r ∧ sources'[i]? = some r' ∧
    Source.Corresponding r.2 r'.2 t t'

/-- Runs of source texts on other lines leave sessions that differ in lines. -/
theorem Parallel.runSources {s s' : Session} (h : s.Parallel P s') {ran ran' : List (Config × String)}
    (hran : List.Forall₂ (fun r r' => r'.1 = r.1 ∧ Source.OnOtherLines r.2 r'.2) ran ran')
    (hP : ∀ t t', Corresponding ran ran' t t' → P t t') :
    (s.runSources ran).2.Parallel P (s'.runSources ran').2 := by
  induction hran generalizing s s' with
  | nil => exact h
  | @cons r r' ran ran' hr _ ih =>
    obtain ⟨config, source⟩ := r
    obtain ⟨config', source'⟩ := r'
    obtain ⟨hconfig, hlines⟩ := hr
    obtain rfl : config' = config := hconfig
    have hfound := hlines.alike fun t t' ht => hP t t' ⟨0, _, _, rfl, rfl, ht⟩
    have hrun := (h.runTokens config' hfound).2
    rw [← run_eq_runTokens, ← run_eq_runTokens] at hrun
    exact ih hrun fun t t' ⟨i, q, q', hq, hq', ht⟩ => hP t t' ⟨i + 1, q, q', hq, hq', ht⟩

/-- What two runs have in common whose source texts differ in lines only.  `P` are the tokens that
correspond to each other in all texts so far. -/
structure RunsAlike (P : Token → Token → Prop) (config : Config) (source source' : String)
    (s s' : Session) : Prop where
  /-- The texts form the same program, with the same syntax errors at corresponding tokens. -/
  parsed : ParsedAlike (Source.Corresponding source source')
    (parse config.nesting (Source.tokenize source).tokens)
    (parse config.nesting (Source.tokenize source').tokens)
  /-- The references of the program are bound over the same numbers of scopes. -/
  bound : ∀ program program', Accepted config source program → Accepted config source' program' →
    BoundAlike P config program program' s s'
  /-- The same stages report the same errors at corresponding tokens. -/
  errors : List.Forall₂ (Diagnostic.Alike (Source.Corresponding source source'))
    (s.run config source).2.log.errors (s'.run config source').2.log.errors
  /-- The same text has been printed. -/
  output : (s'.run config source').2.machine.output = (s.run config source).2.machine.output
  /-- The same error or none ends the running program, at corresponding tokens. -/
  runtimeErrors : List.Forall₂ (Diagnostic.Alike P)
    (s.run config source).2.log.runtimeErrors (s'.run config source').2.log.runtimeErrors
  /-- The same limit or none stops the runs. -/
  fault : (s'.run config source').1 = (s.run config source).1
  /-- The sessions keep bindings of the same references over the same numbers of scopes. -/
  table : List.Forall₂ (Binding.Alike P) (s.run config source).2.table.entries
    (s'.run config source').2.table.entries

/-- **Lines influence nothing but reports.**  After runs of source texts that differ in lines, runs
of two texts that differ in lines do the same. -/
theorem run_onOtherLines (passesOn passesOn' : Bool) (config : Config)
    {ran ran' : List (Config × String)} {source source' : String}
    (hran : List.Forall₂ (fun r r' => r'.1 = r.1 ∧ Source.OnOtherLines r.2 r'.2) ran ran')
    (hlines : Source.OnOtherLines source source') :
    RunsAlike (Corresponding (ran ++ [(config, source)]) (ran' ++ [(config, source')])) config
      source source' ((start passesOn).runSources ran).2 ((start passesOn').runSources ran').2 := by
  have hlength := hran.length_eq
  have hearlier : ∀ t t', Corresponding ran ran' t t' →
      Corresponding (ran ++ [(config, source)]) (ran' ++ [(config, source')]) t t' := by
    rintro t t' ⟨i, r, r', hr, hr', ht⟩
    have hi := (List.getElem?_eq_some_iff.mp hr).1
    have hi' := (List.getElem?_eq_some_iff.mp hr').1
    exact ⟨i, r, r', (List.getElem?_append_left hi).trans hr,
      (List.getElem?_append_left hi').trans hr', ht⟩
  have hlast : ∀ t t', Source.Corresponding source source' t t' →
      Corresponding (ran ++ [(config, source)]) (ran' ++ [(config, source')]) t t' := by
    intro t t' ht
    refine ⟨ran.length, (config, source), (config, source'), List.getElem?_concat_length, ?_, ht⟩
    rw [hlength]
    exact List.getElem?_concat_length
  have hparallel := (parallel_start passesOn passesOn').runSources hran hearlier
  generalize ((start passesOn).runSources ran).2 = s at hparallel
  generalize ((start passesOn').runSources ran').2 = s' at hparallel
  have hown := hlines.alike fun _ _ ht => ht
  obtain ⟨hfault, hafter⟩ := hparallel.runTokens config (hlines.alike hlast)
  have herrors := staticErrors_alike config hown s.nextLabel
  rw [← errors_runTokens, ← hparallel.nextLabel, ← errors_runTokens] at herrors
  simp only [← run_eq_runTokens] at hfault hafter herrors
  exact
    { parsed := hown.parse config.nesting
      bound := fun program program' haccepted haccepted' =>
        hparallel.bind (hlines.alike hlast) haccepted.2 haccepted'.2
      errors := herrors
      output := hafter.output
      runtimeErrors := hafter.runtimeErrors
      fault := hfault
      table := hafter.table }

/-- Limits for small programs. -/
def smallLimits : Config := ⟨20, 5, fun _ => 0⟩

/-- A function that fails, and the same further down and on two lines. -/
def failingSource : String := "fun f() \x7b return nil.x; \x7d"

def spreadSource : String := "// fails\nfun f()\n\x7b return nil.x; \x7d"

/-- A call of the function, and the same on two lines. -/
def callSource : String := "f();"

def spreadCallSource : String := "f(\n);"

theorem run_onOtherLines_failing :
    RunsAlike (Corresponding ([(smallLimits, failingSource)] ++ [(smallLimits, callSource)])
        ([(smallLimits, spreadSource)] ++ [(smallLimits, spreadCallSource)])) smallLimits callSource
        spreadCallSource ((start true).runSources [(smallLimits, failingSource)]).2
        ((start true).runSources [(smallLimits, spreadSource)]).2 ∧
      ((start true).runSources [(smallLimits, failingSource),
        (smallLimits, callSource)]).2.log.runtimeErrors.map Diagnostic.line = [1] ∧
      ((start true).runSources [(smallLimits, spreadSource),
        (smallLimits, spreadCallSource)]).2.log.runtimeErrors.map Diagnostic.line = [3] := by
  have hfirst : Source.OnOtherLines failingSource spreadSource :=
    ⟨by decide +kernel, by decide +kernel⟩
  have hcall : Source.OnOtherLines callSource spreadCallSource :=
    ⟨by decide +kernel, by decide +kernel⟩
  have hran : List.Forall₂ (fun r r' : Config × String => r'.1 = r.1 ∧ Source.OnOtherLines r.2 r'.2)
      [(smallLimits, failingSource)] [(smallLimits, spreadSource)] := .cons ⟨rfl, hfirst⟩ .nil
  have halike := run_onOtherLines true true smallLimits hran hcall
  exact ⟨halike, by decide +kernel, by decide +kernel⟩

end Session
end LoxLang
