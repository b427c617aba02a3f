import NormalGrammar.Language.Derivation
import NormalGrammar.Language.Rewriting
import NormalGrammar.Language.Reachability
import NormalGrammar.Normal.Pipeline
import NormalGrammar.Sampling.Sentence
import NormalGrammar.Source.Reader
import NormalGrammar.Source.Rendering
import NormalGrammar.Source.Writer
import NormalGrammar.CommandLine.Program
import NormalGrammar.Main
import NormalGrammar.Proofs.EpsilonFree
import NormalGrammar.Proofs.Settling
import NormalGrammar.Proofs.Leftovers
import NormalGrammar.Proofs.Productive
import NormalGrammar.Proofs.Reachable
import NormalGrammar.Proofs.Rewriting
import NormalGrammar.Proofs.Freshness
import NormalGrammar.Proofs.Sentences
import NormalGrammar.Proofs.RoundTrip
import NormalGrammar.Proofs.CutOff
import NormalGrammar.Proofs.Variants
import NormalGrammar.Proofs.Sameness
import NormalGrammar.Proofs.Passes
import NormalGrammar.Proofs.FixedPoints
import NormalGrammar.Proofs.Agreement
import NormalGrammar.Proofs.EpsilonPasses
import NormalGrammar.Proofs.RenamingClosure
import NormalGrammar.Proofs.Conversion
import NormalGrammar.Proofs.Repetitions
import NormalGrammar.Proofs.KeptHeights
import NormalGrammar.Proofs.Visits
import NormalGrammar.Proofs.Economy
import NormalGrammar.Proofs.SampleFailures
import NormalGrammar.Proofs.Scripts
import NormalGrammar.Proofs.OpenQuotes
import NormalGrammar.Proofs.BrokenLines
import NormalGrammar.Proofs.FileLayout
import NormalGrammar.Proofs.Clashes
import NormalGrammar.Proofs.Refusals
import NormalGrammar.Proofs.Warnings
import NormalGrammar.Proofs.Runs
import NormalGrammar.Proofs.Classes
import NormalGrammar.Proofs.Parts
import NormalGrammar.Proofs.History
