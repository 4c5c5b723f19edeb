import StagedLambda.Text.Decimal
import StagedLambda.Text.Blank
import StagedLambda.Distinct
import StagedLambda.Operator
import StagedLambda.Ident
import StagedLambda.Renaming
import StagedLambda.Wording
import StagedLambda.Term.Basic
import StagedLambda.Term.Scope
import StagedLambda.Term.Text
import StagedLambda.Source.Span
import StagedLambda.Source.Line
import StagedLambda.Source.Token
import StagedLambda.Source.Lexeme
import StagedLambda.Source.Grammar
import StagedLambda.Source.Program
import StagedLambda.Typing.Ty
import StagedLambda.Typing.Solution
import StagedLambda.Typing.Acyclic
import StagedLambda.Typing.Unification
import StagedLambda.Typing.Infer
import StagedLambda.Machine.Value
import StagedLambda.Machine.Stack
import StagedLambda.Machine.Fault
import StagedLambda.Machine.Arithmetic
import StagedLambda.Machine.State
import StagedLambda.Machine.Step
import StagedLambda.Machine.Fuel
import StagedLambda.Machine.Run
import StagedLambda.Session
import StagedLambda.Shell.Paint
import StagedLambda.Shell.SourceBlock
import StagedLambda.Shell.Report
import StagedLambda.Shell.Prompt
import StagedLambda.Main
import StagedLambda.Proofs.Machine.Division
import StagedLambda.Proofs.Machine.Moves
import StagedLambda.Proofs.Machine.Reach
import StagedLambda.Proofs.Machine.Binding
import StagedLambda.Proofs.Machine.Brackets
import StagedLambda.Proofs.Term.Names
import StagedLambda.Proofs.Term.Alpha
import StagedLambda.Proofs.Alpha.Mirrors
import StagedLambda.Proofs.Scope.Safety
import StagedLambda.Proofs.Level.Discipline
import StagedLambda.Proofs.Lexical.Evaluator
import StagedLambda.Proofs.Lexical.Refinement
import StagedLambda.Proofs.Typing.Inference
import StagedLambda.Proofs.Typing.Soundness
import StagedLambda.Proofs.Typing.Principal
import StagedLambda.Proofs.Alpha.Lockstep
import StagedLambda.Proofs.Alpha.Hygiene
import StagedLambda.Proofs.Lexical.Faults
import StagedLambda.Proofs.Staging.Copying
import StagedLambda.Proofs.Staging.Quoting
import StagedLambda.Proofs.Scope.Extrusion
import StagedLambda.Proofs.Source.Script
import StagedLambda.Proofs.Source.Reading
import StagedLambda.Proofs.Source.Phrases
import StagedLambda.Proofs.Source.Derivation
import StagedLambda.Proofs.Source.RoundTrip
import StagedLambda.Proofs.Tags.Equivariance
import StagedLambda.Proofs.Tags.Isolation
import StagedLambda.Proofs.Tags.Inventory
import StagedLambda.Proofs.Scope.Coherence
import StagedLambda.Proofs.Source.Acceptance
import StagedLambda.Proofs.Machine.Slices
import StagedLambda.Proofs.Machine.Operands
import StagedLambda.Proofs.Source.WellFormed
import StagedLambda.Proofs.Source.Viable
import StagedLambda.Proofs.Source.Lookahead
import StagedLambda.Proofs.Source.Pointing
import StagedLambda.Proofs.Machine.Rebasing
import StagedLambda.Proofs.Machine.Definitions
import StagedLambda.Proofs.Staging.Extracting
import StagedLambda.Proofs.Denotation.Observations
import StagedLambda.Proofs.Denotation.Terms
import StagedLambda.Proofs.Denotation.States
import StagedLambda.Proofs.Denotation.Erasure
import StagedLambda.Proofs.Machine.Integers
import StagedLambda.Proofs.Source.Wildcards
import StagedLambda.Proofs.Tags.Bases
import StagedLambda.Proofs.Source.Words
import StagedLambda.Proofs.Source.Glosses
import StagedLambda.Proofs.Source.Unambiguous
import StagedLambda.Proofs.Source.Tiling
import StagedLambda.Proofs.Source.LineBreaks
import StagedLambda.Proofs.Source.Places
import StagedLambda.Proofs.Machine.Drawing
import StagedLambda.Proofs.Typing.MostGeneral
