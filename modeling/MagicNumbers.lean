import MagicNumbers.Context.Range
import MagicNumbers.Main
import MagicNumbers.Scan.Recursive
import MagicNumbers.Proofs.Search
import MagicNumbers.Proofs.Tokens
import MagicNumbers.Proofs.Walk
import MagicNumbers.Proofs.Blocks
import MagicNumbers.Proofs.Recursion
import MagicNumbers.Proofs.Skim
import MagicNumbers.Proofs.Stack
import MagicNumbers.Proofs.Failure
import MagicNumbers.Proofs.Lines
import MagicNumbers.Proofs.Extension
import MagicNumbers.Proofs.Surroundings
import MagicNumbers.Proofs.Embedding
import MagicNumbers.Proofs.Composition
import MagicNumbers.Proofs.Nesting
import MagicNumbers.Proofs.Coverage
import MagicNumbers.Proofs.Order
import MagicNumbers.Proofs.Restriction
import MagicNumbers.Proofs.Locality
import MagicNumbers.Proofs.Keywords
import MagicNumbers.Proofs.Drift
import MagicNumbers.Proofs.Delivery
import MagicNumbers.Proofs.JsonText
import MagicNumbers.Proofs.JsonReport
import MagicNumbers.Proofs.Directory
import MagicNumbers.Proofs.DirectoryScan
import MagicNumbers.Proofs.Occurrence
import MagicNumbers.Proofs.Ranges
import MagicNumbers.Proofs.Access
import MagicNumbers.Proofs.CheckedScan
import MagicNumbers.Proofs.BlockGrammar
import MagicNumbers.Proofs.Revision
import MagicNumbers.Proofs.RevisedScan
import MagicNumbers.Proofs.Comments
import MagicNumbers.Proofs.LineEnds
import MagicNumbers.Proofs.Opening
import MagicNumbers.Proofs.Streaming
import MagicNumbers.Proofs.Output
import MagicNumbers.Proofs.NumberGrammar
import MagicNumbers.Proofs.LiteralGrammar
import MagicNumbers.Proofs.OpenConstructs
import MagicNumbers.Proofs.Words
