import EbnfKit.Buffer
import EbnfKit.CommandLine.FileTree
import EbnfKit.Config.Json
import EbnfKit.Grammar.References
import EbnfKit.Main
import EbnfKit.Text.LineIndex
import EbnfKit.Proofs.Derivation
import EbnfKit.Proofs.Placement
import EbnfKit.Proofs.Reading
import EbnfKit.Proofs.Parsing
import EbnfKit.Proofs.Sections
import EbnfKit.Proofs.Acceptance
import EbnfKit.Proofs.Spelling
import EbnfKit.Proofs.Adjacency
import EbnfKit.Proofs.ReadBack
import EbnfKit.Proofs.Documentation
import EbnfKit.Proofs.RoundTrip
import EbnfKit.Proofs.Editing
import EbnfKit.Proofs.Blocks
import EbnfKit.Proofs.Places
import EbnfKit.Proofs.Surgery
import EbnfKit.Proofs.Reachability
import EbnfKit.Proofs.Removal
import EbnfKit.Proofs.Clean
import EbnfKit.Proofs.Offering
import EbnfKit.Proofs.Rounds
import EbnfKit.Proofs.Dangling
import EbnfKit.Proofs.Slices
import EbnfKit.Proofs.Convergence
import EbnfKit.Proofs.Framing
import EbnfKit.Proofs.Recovery
import EbnfKit.Proofs.Halves
import EbnfKit.Proofs.Commands
import EbnfKit.Proofs.Seams
import EbnfKit.Proofs.Survival
import EbnfKit.Proofs.Above
import EbnfKit.Proofs.Entries
import EbnfKit.Proofs.Standing
import EbnfKit.Proofs.Marks
import EbnfKit.Proofs.Numbering
import EbnfKit.Proofs.Reports
import EbnfKit.Proofs.Substitution
import EbnfKit.Proofs.Tiling
import EbnfKit.Proofs.Connection
import EbnfKit.Proofs.Endless
import EbnfKit.Proofs.Requests
import EbnfKit.Proofs.Ascent
import EbnfKit.Proofs.Lookup
import EbnfKit.Proofs.Finding
import EbnfKit.Proofs.Canonical
import EbnfKit.Proofs.Problems
import EbnfKit.Proofs.Selection
import EbnfKit.Proofs.Forward
import EbnfKit.Proofs.Coverage
import EbnfKit.Proofs.Resolution
import EbnfKit.Proofs.Reported
import EbnfKit.Proofs.Semicolons
import EbnfKit.Proofs.OpenStrings
import EbnfKit.Proofs.Alternatives
import EbnfKit.Proofs.Stretches
import EbnfKit.Proofs.Progress
import EbnfKit.Proofs.Lines
import EbnfKit.Proofs.Cuts
import EbnfKit.Proofs.Quotes
