import PatternSearch.Proofs.Graph.Layout
import PatternSearch.Proofs.Search.Simulation

/-! A walk along the graph of an expression tries the expression's attempts in their order. The
graph, its continuations and its undoing can be forgotten: `tryEach` over `Expr.attempts` is
all that a search does from one position. -/

namespace PatternSearch

theorem Expr.inside_attempts (expr : Expr) (text : Array Char) :
    Graph.Inside text (expr.attempts text) := by
  intro index slots inside stop after tried
  have follows := follows_of_attempt inside tried
  exact ⟨follows.forward, follows.inside⟩

namespace Expr

open PatternSearch.Graph

variable {graph : Graph} {text : Array Char}

mutual

/-- A walk along the nodes of an expression tries the attempts of the expression. -/
theorem tries_of_carries (last : graph.node 0 = .last) : (expr : Expr) → {entry next : Nat} →
    graph.Carries expr entry next → graph.Tries text entry next (expr.attempts text)
  | empty, entry, next, carries => by
    cases carries with
    | empty => exact tries_empty
  | predicate test, entry, next, carries => by
    cases carries with
    | predicate found => exact tries_char found
  | atStart, entry, next, carries => by
    cases carries with
    | atStart found => exact tries_atStart found
  | atEnd, entry, next, carries => by
    cases carries with
    | atEnd found => exact tries_atEnd found
  | sequence items, entry, next, carries => by
    cases carries with
    | sequence all =>
      have tried := tries_of_carriesItems last items all
      exact tried
  | alternation branches, entry, next, carries => by
    cases carries with
    | alternation found each =>
      exact tries_branch found (chooses_of_carriesBranches last branches each)
  | group index body, entry, next, carries => by
    cases carries with
    | group head inside found =>
      have inner := tries_of_carries last body inside
      exact tries_groupHead head
        (inner.andThen (body.inside_attempts text) (tries_groupTail found))
  | repetition body quantifier, entry, next, carries => by
    cases carries with
    | repetition found inside =>
      have inner := tries_of_carries last body inside
      exact tries_loop last (body.inside_attempts text) inner found
  | backreference index, entry, next, carries => by
    cases carries with
    | backreference found => exact tries_backreference found

theorem tries_of_carriesItems (last : graph.node 0 = .last) : (items : List Expr) →
    {entry next : Nat} → graph.CarriesItems items entry next →
      graph.Tries text entry next (itemAttempts text items)
  | [], entry, next, carries => by
    cases carries with
    | nil =>
      intro index cont registers inside
      rw [itemAttempts, tryEach_walk_here]
  | item :: items, entry, next, carries => by
    cases carries with
    | cons first rest =>
      have head := tries_of_carries last item first
      exact head.andThen (item.inside_attempts text) (tries_of_carriesItems last items rest)

theorem chooses_of_carriesBranches (last : graph.node 0 = .last) : (branches : List Expr) →
    {entries : List Nat} → graph.CarriesBranches branches entries →
      graph.Chooses text entries (branchAttempts text branches)
  | [], entries, carries => by
    cases carries with
    | nil => exact chooses_nil
  | branch :: branches, entries, carries => by
    cases carries with
    | cons first rest =>
      exact chooses_cons last (tries_of_carries last branch first)
        (chooses_of_carriesBranches last branches rest)

end

end Expr

end PatternSearch
