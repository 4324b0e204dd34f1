import LoxLang.Main
import LoxLang.Proofs.Computation
import LoxLang.Proofs.Grammar.Derivation
import LoxLang.Proofs.Grammar.Reads
import LoxLang.Proofs.Grammar.Soundness
import LoxLang.Proofs.Grammar.Yields
import LoxLang.Proofs.Source.Spelling
import LoxLang.Proofs.Syntax.Induction
import LoxLang.Proofs.Scope.Findings
import LoxLang.Proofs.Scope.Binding
import LoxLang.Proofs.Syntax.Map
import LoxLang.Proofs.Syntax.Label
import LoxLang.Proofs.Scope.Recorded
import LoxLang.Proofs.Machine.Plan
import LoxLang.Proofs.Machine.Sound
import LoxLang.Proofs.Machine.Runs
import LoxLang.Proofs.Machine.Access
import LoxLang.Proofs.Machine.Lockstep
import LoxLang.Proofs.Session.Invariant
import LoxLang.Proofs.Session.Safety
import LoxLang.Proofs.Machine.ByName
import LoxLang.Proofs.Session.ByName
import LoxLang.Proofs.Grammar.Lookahead
import LoxLang.Proofs.Source.Joining
import LoxLang.Proofs.Grammar.Joining
import LoxLang.Proofs.Machine.Map
import LoxLang.Proofs.Scope.Nesting
import LoxLang.Proofs.Machine.Follows
import LoxLang.Proofs.Machine.Retelling
import LoxLang.Proofs.Session.Joining
import LoxLang.Proofs.Grammar.Completeness
import LoxLang.Proofs.Grammar.Writing
import LoxLang.Proofs.Scope.Height
import LoxLang.Proofs.Scope.Lexical
import LoxLang.Proofs.Scope.Agreement
import LoxLang.Proofs.Scope.StaticScope
import LoxLang.Proofs.Scope.References
import LoxLang.Proofs.Session.Kept
import LoxLang.Proofs.Source.Comment
import LoxLang.Proofs.Source.LexicalGrammar
import LoxLang.Proofs.Source.Layout
import LoxLang.Proofs.Grammar.Pace
import LoxLang.Proofs.Grammar.Termination
import LoxLang.Proofs.Grammar.Isolation
import LoxLang.Proofs.Grammar.Drawn
import LoxLang.Proofs.Syntax.Renaming
import LoxLang.Proofs.Machine.Alike
import LoxLang.Proofs.Machine.Abreast
import LoxLang.Proofs.Machine.Renamed
import LoxLang.Proofs.Scope.Renamed
import LoxLang.Proofs.Scope.LocalVariable
import LoxLang.Proofs.Session.Renaming
import LoxLang.Proofs.Scope.Places
import LoxLang.Proofs.Machine.Places
import LoxLang.Proofs.Machine.Evaluator
import LoxLang.Proofs.Machine.Pairing
import LoxLang.Proofs.Machine.Renumbered
import LoxLang.Proofs.Machine.Rounds
import LoxLang.Proofs.Machine.Jumping
import LoxLang.Proofs.Machine.Moments
import LoxLang.Proofs.Machine.Orderly
import LoxLang.Proofs.Machine.Reflecting
import LoxLang.Proofs.Machine.Names
import LoxLang.Proofs.Machine.Located
import LoxLang.Proofs.Machine.Leaves
import LoxLang.Proofs.Machine.Parts
import LoxLang.Proofs.Machine.Placed
import LoxLang.Proofs.Machine.Words
import LoxLang.Proofs.Machine.Dispatch
import LoxLang.Proofs.Session.Moments
import LoxLang.Proofs.Session.Names
import LoxLang.Proofs.Session.Verdict
import LoxLang.Proofs.Session.Placed
import LoxLang.Proofs.Session.Dispatch
import LoxLang.Proofs.Session.Reflecting
import LoxLang.Proofs.Session.Returning
import LoxLang.Proofs.Session.Remains
import LoxLang.Proofs.Session.Unfolding
import LoxLang.Proofs.Command.Answers
import LoxLang.Proofs.Command.Prompt
import LoxLang.Proofs.Command.Reading
import LoxLang.Proofs.Machine.Sharing
import LoxLang.Proofs.Scope.Uniform
import LoxLang.Proofs.Scope.Visits
import LoxLang.Proofs.Session.Repeated
import LoxLang.Proofs.Session.References
import LoxLang.Proofs.Grammar.Changing
import LoxLang.Proofs.Session.Changing
import LoxLang.Proofs.Session.Lines
import LoxLang.Proofs.Decimal.Characters
import LoxLang.Proofs.Syntax.Outline
import LoxLang.Proofs.Syntax.Rendered
import LoxLang.Proofs.Syntax.Resembling
import LoxLang.Proofs.Grammar.Lexical
import LoxLang.Proofs.Grammar.Legible
import LoxLang.Proofs.Session.Rendering
