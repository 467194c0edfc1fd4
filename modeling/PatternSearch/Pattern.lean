import PatternSearch.Graph.Lowering
import PatternSearch.Parse

/-! Compiled patterns. A pattern carries the facts that its tree was read from its source and
its graph lowered from its tree, so `compile` is the only source of patterns. -/

namespace PatternSearch

structure Pattern where
  source : String
  expr : Expr
  groups : Nat
  graph : Graph
  parsed : parse source = .ok ⟨expr, groups⟩
  lowered : graph = .ofExpr expr
deriving DecidableEq

def compile (source : String) : Except ParseError Pattern :=
  match parsed : parse source with
  | .error error => .error error
  | .ok ⟨expr, groups⟩ => .ok ⟨source, expr, groups, .ofExpr expr, parsed, rfl⟩

theorem compile_source (pattern : Pattern) : compile pattern.source = .ok pattern := by
  obtain ⟨source, expr, groups, graph, parsed, lowered⟩ := pattern
  subst lowered
  unfold compile
  split
  · next error found => cases found.symm.trans parsed
  · next found =>
    cases found.symm.trans parsed
    rfl

theorem source_of_compile {source : String} {pattern : Pattern}
    (compiled : compile source = .ok pattern) : pattern.source = source := by
  unfold compile at compiled
  split at compiled
  · cases compiled
  · cases compiled
    rfl

end PatternSearch
