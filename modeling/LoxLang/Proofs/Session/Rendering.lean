import LoxLang.Proofs.Grammar.Legible
import LoxLang.Proofs.Session.Invariant

/-! # Rendered programs

The rendering of an accepted program whose numbers are finite leaves no doubt which program it
renders, although strings hold whatever characters they please and heads such as `=` and `-` are
shared: two such programs have the same rendering exactly if they are the same up to lines, to the
parentheses that close arguments, and to numbers with the same text (`renderProgram_eq_iff`).

That numbers are finite matters.  A number too large to be finite is rendered as `Infinity`, which
is also a name. -/

namespace LoxLang

/-- The program of an accepted source text holds lexemes in their places. -/
theorem Accepted.lexical {config : Config} {source : String} {program : List (Stmt Unit)}
    (h : Accepted config source program) : ∀ s ∈ program, s.Lexical Datum.IsRead := by
  have hderives := derives_of_parse (Source.hasEnd_tokenize source) h.2 rfl
  rw [Source.tokens_eq, beforeEnd_append (Source.noEnd_tokensBeforeEnd source) rfl] at hderives
  exact hderives.lexical fun t ht => Source.isLexeme_of_mem ht

/-- The numbers of a program are finite. -/
def FiniteNumbers {ι : Type} (program : List (Stmt ι)) : Prop :=
  ∀ s ∈ program, ∀ d ∈ s.literals, d.isFinite

instance {ι : Type} (program : List (Stmt ι)) : Decidable (FiniteNumbers program) :=
  inferInstanceAs (Decidable (∀ s ∈ program, ∀ d ∈ s.literals, d.isFinite))

/-- **The rendering of a program distinguishes it** from all programs that differ from it in more
than lines, parentheses that close arguments, and numbers with the same text, and from no others. -/
theorem renderProgram_eq_iff {config config' : Config} {source source' : String}
    {program program' : List (Stmt Unit)} (h : Accepted config source program)
    (h' : Accepted config' source' program') (hfinite : FiniteNumbers program)
    (hfinite' : FiniteNumbers program') {depth depth' : Nat} {text text' : String}
    (htext : renderProgram depth program = .ok text)
    (htext' : renderProgram depth' program' = .ok text') :
    text = text' ↔ List.Forall₂ Stmt.Resembles program program' := by
  have hlegible : ∀ {config : Config} {source : String} {program : List (Stmt Unit)},
      Accepted config source program → FiniteNumbers program →
      ∀ s ∈ program, s.Lexical Datum.IsLegible := fun h hfinite s hs =>
    (h.lexical s hs).imp fun d hd hread => ⟨hread, hfinite s hs d hd⟩
  rw [eq_lines_of_renderProgram htext, eq_lines_of_renderProgram htext']
  constructor
  · intro hlines
    have houtlines : program.map Stmt.outline = program'.map Stmt.outline :=
      Outline.eq_of_lines_eq
        (List.forall_mem_map.mpr fun s hs => (hlegible h hfinite s hs).readable)
        (List.forall_mem_map.mpr fun s hs => (hlegible h' hfinite' s hs).readable) hlines
    exact forall₂_of_map_eq (fun s hs s' hs' heq =>
      (hlegible h hfinite s hs).resembles (hlegible h' hfinite' s' hs') heq) houtlines
  · intro hresembles
    rw [map_eq_of_forall₂ (fun _ _ _ hss => hss.outline_eq) hresembles]

/-- The program that a source text has if it is accepted. -/
def programOf (config : Config) (source : String) : List (Stmt Unit) :=
  match parse config.nesting (Source.tokenize source).tokens with
  | .ok parsed => parsed.program
  | .error _ => []

theorem accepted_programOf {config : Config} {source : String}
    (h : (Source.tokenize source).errors.isEmpty)
    (hparse : (parse config.nesting (Source.tokenize source).tokens).toOption.any
      fun parsed => parsed.errors.isEmpty) : Accepted config source (programOf config source) := by
  refine ⟨List.isEmpty_iff.mp h, ?_⟩
  unfold programOf
  cases hparsed : parse config.nesting (Source.tokenize source).tokens with
  | error f =>
    rw [hparsed] at hparse
    cases hparse
  | ok parsed =>
    rw [hparsed] at hparse
    obtain ⟨program, errors⟩ := parsed
    obtain rfl : errors = [] := List.isEmpty_iff.mp hparse
    rfl

/-- Limits for small programs. -/
def narrow : Config := ⟨20, 5, fun _ => 0⟩

def closeSource : String := "if (a.b) f(1.50 - 2); else a.b = -c;"

/-- The same program on more lines and with its numbers written otherwise. -/
def wideSource : String := "if (a.b)\n  f(1.5 - 2.0\n);\nelse a.b = -c;"

def conditionalText : String := "(if-else (. a b) (; (call f (- 1.5 2))) (; (= a b (- c))))"

theorem renderProgram_eq_iff_conditional :
    (Accepted narrow closeSource (programOf narrow closeSource) ∧
      FiniteNumbers (programOf narrow closeSource) ∧
      renderProgram 5 (programOf narrow closeSource) = .ok conditionalText) ∧
    (Accepted narrow wideSource (programOf narrow wideSource) ∧
      FiniteNumbers (programOf narrow wideSource) ∧
      renderProgram 9 (programOf narrow wideSource) = .ok conditionalText) ∧
    List.Forall₂ Stmt.Resembles (programOf narrow closeSource) (programOf narrow wideSource) := by
  have h : Accepted narrow closeSource (programOf narrow closeSource) :=
    accepted_programOf (by decide +kernel) (by decide +kernel)
  have h' : Accepted narrow wideSource (programOf narrow wideSource) :=
    accepted_programOf (by decide +kernel) (by decide +kernel)
  have hfinite : FiniteNumbers (programOf narrow closeSource) := by decide +kernel
  have hfinite' : FiniteNumbers (programOf narrow wideSource) := by decide +kernel
  have htext : renderProgram 5 (programOf narrow closeSource) = .ok conditionalText := by
    decide +kernel
  have htext' : renderProgram 9 (programOf narrow wideSource) = .ok conditionalText := by
    decide +kernel
  exact ⟨⟨h, hfinite, htext⟩, ⟨h', hfinite', htext'⟩,
    (renderProgram_eq_iff h h' hfinite hfinite' htext htext').mp rfl⟩

end LoxLang
