import PatternSearch.CharSet.Insertion
import PatternSearch.Expr.Composition
import PatternSearch.Expr.Rewriting
import PatternSearch.FileTree.Shape
import PatternSearch.Grammar
import PatternSearch.Graph.Shape
import PatternSearch.Lexis
import PatternSearch.Main
import PatternSearch.Parse.Descent
import PatternSearch.Proofs.CharSet.Insertions
import PatternSearch.Proofs.Command.Response
import PatternSearch.Proofs.Expr.Canonical
import PatternSearch.Proofs.Expr.Parts
import PatternSearch.Proofs.FileTree.Expansion
import PatternSearch.Proofs.FileTree.Paths
import PatternSearch.Proofs.FileTree.Walk
import PatternSearch.Proofs.Grammar.Brackets
import PatternSearch.Proofs.Grammar.Composition
import PatternSearch.Proofs.Grammar.Derivations
import PatternSearch.Proofs.Grammar.Leaves
import PatternSearch.Proofs.Grammar.Lexis
import PatternSearch.Proofs.Grammar.Literals
import PatternSearch.Proofs.Grammar.Numbering
import PatternSearch.Proofs.Grammar.Quantifiers
import PatternSearch.Proofs.Grammar.Unambiguity
import PatternSearch.Proofs.Grammar.Unions
import PatternSearch.Proofs.Graph.Layout
import PatternSearch.Proofs.Graph.Origins
import PatternSearch.Proofs.Graph.Recovery
import PatternSearch.Proofs.Graph.Shape
import PatternSearch.Proofs.Graph.Size
import PatternSearch.Proofs.Parse.Advance
import PatternSearch.Proofs.Parse.Brackets
import PatternSearch.Proofs.Parse.Continuations
import PatternSearch.Proofs.Parse.Descent
import PatternSearch.Proofs.Parse.Faults
import PatternSearch.Proofs.Parse.Quantifiers
import PatternSearch.Proofs.Parse.Readers
import PatternSearch.Proofs.Parse.Reading
import PatternSearch.Proofs.Parse.RoundTrip
import PatternSearch.Proofs.Parse.Routines
import PatternSearch.Proofs.Parse.Settled
import PatternSearch.Proofs.Search.Asking
import PatternSearch.Proofs.Search.Balance
import PatternSearch.Proofs.Search.Bounds
import PatternSearch.Proofs.Search.Calls
import PatternSearch.Proofs.Search.Captures
import PatternSearch.Proofs.Search.Colours
import PatternSearch.Proofs.Search.DecodedLines
import PatternSearch.Proofs.Search.EndNotes
import PatternSearch.Proofs.Search.Extension
import PatternSearch.Proofs.Search.Literals
import PatternSearch.Proofs.Search.Lowering
import PatternSearch.Proofs.Search.Mirrors
import PatternSearch.Proofs.Search.NestedStars
import PatternSearch.Proofs.Search.Passages
import PatternSearch.Proofs.Search.Refinement
import PatternSearch.Proofs.Search.Report
import PatternSearch.Proofs.Search.Rollback
import PatternSearch.Proofs.Search.Runs
import PatternSearch.Proofs.Search.Sessions
import PatternSearch.Proofs.Search.Simulation
import PatternSearch.Proofs.Search.Squares
import PatternSearch.Proofs.Search.Suffixes
import PatternSearch.Proofs.Search.Termination
import PatternSearch.Proofs.Search.Trail
import PatternSearch.Proofs.Search.Trees
import PatternSearch.Proofs.Search.TryEach
import PatternSearch.Proofs.Search.Ungrouping
import PatternSearch.Proofs.Search.Unrolling
import PatternSearch.Proofs.Semantics.Attempts
import PatternSearch.Proofs.Semantics.Choices
import PatternSearch.Proofs.Semantics.Groups
import PatternSearch.Proofs.Semantics.Language
import PatternSearch.Proofs.Semantics.Loops
import PatternSearch.Proofs.Semantics.Marks
import PatternSearch.Proofs.Semantics.Outcomes
import PatternSearch.Proofs.Text.Decoding
import PatternSearch.Proofs.Text.Offsets
import PatternSearch.Proofs.Text.Order
import PatternSearch.Proofs.Text.Utf8
import PatternSearch.Semantics.Marks
import PatternSearch.Semantics.Matches
import PatternSearch.Semantics.Outcomes
import PatternSearch.Session
