import BoardGame.Main
import BoardGame.Proofs.Folding.Failure
import BoardGame.Proofs.Automaton.Order
import BoardGame.Proofs.Automaton.Closure
import BoardGame.Proofs.References.Play
import BoardGame.Proofs.Grammar.RoundTrip
import BoardGame.Proofs.Grammar.Derivation.Parse
import BoardGame.Proofs.Grammar.Foresight
import BoardGame.Proofs.Game.Invariants
import BoardGame.Proofs.Rules.Order
import BoardGame.Proofs.Arithmetic.Failure
import BoardGame.Proofs.Automaton.Quotient
import BoardGame.Proofs.Game.Observation
import BoardGame.Proofs.Macros.Inlining
import BoardGame.Proofs.Checks.Duplicates
import BoardGame.Proofs.Game.Variables
import BoardGame.Proofs.Effects
import BoardGame.Proofs.Text.Lines
import BoardGame.Proofs.Grammar.Termination
import BoardGame.Proofs.Grammar.Spans
import BoardGame.Proofs.Evaluation.Termination
import BoardGame.Proofs.Folding.Normal
import BoardGame.Proofs.Board.Views
