import PatternSearch.Proofs.Search.Bounds
import PatternSearch.Proofs.Search.Report

/-! Searches for a tree, whether or not a pattern stands for it. What a search of its graph leaves
is told by where and how the tree first matches, and what the graph leaves when it is tried at one
position alone is told by the first outcome from there. -/

namespace PatternSearch

/-- Runs the graph behind its node `start`: the tree is tried at one position alone, with all slots
unset. -/
def Expr.tryAt (expr : Expr) (groups : Nat) (text : List Char) (index : Nat) : Bool × Registers :=
  (Graph.ofExpr expr).run text.toArray ⟨0, text.length⟩ (.visit (expr.lower #[.last] 0).2) index
    .done (.blank groups)

section Trees

variable (expr : Expr) (groups : Nat) (text : List Char)

theorem Slots.span_blank (group : Nat) : (blank groups).span group = none := by
  rw [span, start_blank]
  rfl

theorem Graph.reports_ofExpr (start : Nat) :
    let found := expr.firstOutcome? text.toArray start (.blank groups)
    let result := (ofExpr expr).search text.toArray start (.blank groups text.length)
    result.1 = found.isSome ∧ ∀ group, result.2.registers.slots.span group =
      found.bind fun (index, first) => first.span index group := by
  intro found result
  have searched : result = _ := search_ofExpr expr groups text start
  rw [searched]
  change (scanned _ _ found).1 = _ ∧ ∀ group, (scanned _ _ found).2.slots.span group = _
  rcases matched : found with _ | ⟨index, first⟩
  · exact ⟨rfl, Slots.span_blank groups⟩
  · obtain ⟨_, inside, member, _⟩ := Expr.firstOutcome?_spec matched
    have follows := expr.outcomes_follow index _ inside _ member
    exact ⟨rfl, Outcome.span_written follows⟩

theorem Expr.tryAt_eq {index : Nat} (inside : index ≤ text.length) :
    let first := (expr.outcomes text.toArray index (.blank groups)).head?
    let tried := expr.tryAt groups text index
    tried.1 = first.isSome ∧ ∀ stop after, first = some (stop, after) →
      tried.2.matchStop = stop ∧ tried.2.slots = after := by
  intro first tried
  have last := Graph.last_ofExpr expr
  have walked : tried = _ := Graph.walk_expr last
    (expr.tries_of_carries last (Graph.carries_ofExpr expr)) (.blank groups) inside
  have read : (expr.outcomes text.toArray index (Registers.blank groups).slots).head? = first := rfl
  rw [read] at walked
  rw [walked]
  clear_value first
  cases first with
  | none => exact ⟨rfl, nofun⟩
  | some outcome =>
    refine ⟨rfl, ?_⟩
    intro stop after same
    cases same
    exact ⟨rfl, rfl⟩

theorem Expr.tryAt_iff {index : Nat} (inside : index ≤ text.length) :
    (expr.tryAt groups text index).1 = true ↔
      expr.outcomes text.toArray index (.blank groups) ≠ [] := by
  rw [(expr.tryAt_eq groups text inside).1, List.isSome_head?]

end Trees

end PatternSearch
