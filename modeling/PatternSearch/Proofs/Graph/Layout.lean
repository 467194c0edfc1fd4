import PatternSearch.Graph.Lowering

/-! How an expression lies in a graph. `Graph.Carries` reads the expression off the nodes from an
entry to the node that follows it, wherever in the array they are. Lowering lays every expression
out so, and what holds of the nodes of an expression is shown from there, without the array. -/

namespace PatternSearch

namespace Graph

def Holds (graph : Graph) (nodes : Array Node) : Prop :=
  ∀ id (bounded : id < nodes.size), graph.node id = nodes[id]

variable {graph : Graph}

theorem Holds.newest {nodes : Array Node} {node : Node} (holds : graph.Holds (nodes.push node)) :
    graph.node nodes.size = node := by
  rw [holds nodes.size (by simp), Array.getElem_push_eq]

theorem Holds.before {nodes : Array Node} {node : Node} (holds : graph.Holds (nodes.push node)) :
    graph.Holds nodes := by
  intro id bounded
  rw [holds id (by simp; omega), Array.getElem_push_lt bounded]

mutual

/-- The nodes from `entry` to `next` are those of the expression. -/
inductive Carries (graph : Graph) : Expr → Nat → Nat → Prop where
  | empty {next : Nat} : Carries graph .empty next next
  | predicate {test : Predicate} {entry next : Nat}
      (found : graph.node entry = .char test next) : Carries graph (.predicate test) entry next
  | atStart {entry next : Nat} (found : graph.node entry = .atStart next) :
      Carries graph .atStart entry next
  | atEnd {entry next : Nat} (found : graph.node entry = .atEnd next) :
      Carries graph .atEnd entry next
  | sequence {items : List Expr} {entry next : Nat} (all : CarriesItems graph items entry next) :
      Carries graph (.sequence items) entry next
  | alternation {branches : List Expr} {entries : List Nat} {entry next : Nat}
      (found : graph.node entry = .branch entries next)
      (each : CarriesBranches graph branches entries) :
      Carries graph (.alternation branches) entry next
  | group {index inner tail entry next : Nat} {body : Expr}
      (head : graph.node entry = .groupHead index inner) (inside : Carries graph body inner tail)
      (found : graph.node tail = .groupTail index next) :
      Carries graph (.group index body) entry next
  | repetition {body : Expr} {quantifier : Quantifier} {inner entry next : Nat}
      (found : graph.node entry = .loop ⟨inner, quantifier, next⟩)
      (inside : Carries graph body inner 0) :
      Carries graph (.repetition body quantifier) entry next
  | backreference {index entry next : Nat}
      (found : graph.node entry = .backreference index next) :
      Carries graph (.backreference index) entry next

inductive CarriesItems (graph : Graph) : List Expr → Nat → Nat → Prop where
  | nil {next : Nat} : CarriesItems graph [] next next
  | cons {item : Expr} {items : List Expr} {entry middle next : Nat}
      (first : Carries graph item entry middle) (rest : CarriesItems graph items middle next) :
      CarriesItems graph (item :: items) entry next

inductive CarriesBranches (graph : Graph) : List Expr → List Nat → Prop where
  | nil : CarriesBranches graph [] []
  | cons {branch : Expr} {branches : List Expr} {entry : Nat} {entries : List Nat}
      (first : Carries graph branch entry 0) (rest : CarriesBranches graph branches entries) :
      CarriesBranches graph (branch :: branches) (entry :: entries)

end

end Graph

namespace Expr

open PatternSearch.Graph

variable {graph : Graph}

mutual

theorem holds_of_lower : (expr : Expr) → (nodes : Array Node) → (next : Nat) →
    graph.Holds (expr.lower nodes next).1 → graph.Holds nodes
  | empty, nodes, next, holds => by
    rw [lower] at holds
    exact holds
  | predicate test, nodes, next, holds => by
    rw [lower] at holds
    exact holds.before
  | atStart, nodes, next, holds => by
    rw [lower] at holds
    exact holds.before
  | atEnd, nodes, next, holds => by
    rw [lower] at holds
    exact holds.before
  | sequence items, nodes, next, holds => by
    rw [lower] at holds
    exact holds_of_lowerItems items nodes next holds
  | alternation branches, nodes, next, holds => by
    rw [lower] at holds
    exact holds_of_lowerBranches branches nodes holds.before
  | group index body, nodes, next, holds => by
    rw [lower] at holds
    exact (holds_of_lower body _ _ holds.before).before
  | repetition body quantifier, nodes, next, holds => by
    rw [lower] at holds
    exact holds_of_lower body _ _ holds.before
  | backreference index, nodes, next, holds => by
    rw [lower] at holds
    exact holds.before

theorem holds_of_lowerItems : (items : List Expr) → (nodes : Array Node) → (next : Nat) →
    graph.Holds (lowerItems nodes next items).1 → graph.Holds nodes
  | [], nodes, next, holds => by
    rw [lowerItems] at holds
    exact holds
  | item :: items, nodes, next, holds => by
    rw [lowerItems] at holds
    exact holds_of_lowerItems items nodes next (holds_of_lower item _ _ holds)

theorem holds_of_lowerBranches : (branches : List Expr) → (nodes : Array Node) →
    graph.Holds (lowerBranches nodes branches).1 → graph.Holds nodes
  | [], nodes, holds => by
    rw [lowerBranches] at holds
    exact holds
  | branch :: branches, nodes, holds => by
    rw [lowerBranches] at holds
    exact holds_of_lower branch nodes 0 (holds_of_lowerBranches branches _ holds)

end

mutual

/-- A graph that holds the nodes of a lowered expression carries the expression. -/
theorem carries_lower : (expr : Expr) → (nodes : Array Node) → (next : Nat) →
    graph.Holds (expr.lower nodes next).1 → graph.Carries expr (expr.lower nodes next).2 next
  | empty, nodes, next, holds => by
    rw [lower]
    exact .empty
  | predicate test, nodes, next, holds => by
    rw [lower] at holds ⊢
    exact .predicate holds.newest
  | atStart, nodes, next, holds => by
    rw [lower] at holds ⊢
    exact .atStart holds.newest
  | atEnd, nodes, next, holds => by
    rw [lower] at holds ⊢
    exact .atEnd holds.newest
  | sequence items, nodes, next, holds => by
    rw [lower] at holds ⊢
    exact .sequence (carries_lowerItems items nodes next holds)
  | alternation branches, nodes, next, holds => by
    rw [lower] at holds ⊢
    exact .alternation holds.newest (carries_lowerBranches branches nodes holds.before)
  | group index body, nodes, next, holds => by
    rw [lower] at holds ⊢
    exact .group holds.newest (carries_lower body _ _ holds.before)
      (holds_of_lower body _ _ holds.before).newest
  | repetition body quantifier, nodes, next, holds => by
    rw [lower] at holds ⊢
    exact .repetition holds.newest (carries_lower body nodes 0 holds.before)
  | backreference index, nodes, next, holds => by
    rw [lower] at holds ⊢
    exact .backreference holds.newest

theorem carries_lowerItems : (items : List Expr) → (nodes : Array Node) → (next : Nat) →
    graph.Holds (lowerItems nodes next items).1 →
      graph.CarriesItems items (lowerItems nodes next items).2 next
  | [], nodes, next, holds => by
    rw [lowerItems]
    exact .nil
  | item :: items, nodes, next, holds => by
    rw [lowerItems] at holds ⊢
    exact .cons (carries_lower item _ _ holds)
      (carries_lowerItems items nodes next (holds_of_lower item _ _ holds))

theorem carries_lowerBranches : (branches : List Expr) → (nodes : Array Node) →
    graph.Holds (lowerBranches nodes branches).1 →
      graph.CarriesBranches branches (lowerBranches nodes branches).2
  | [], nodes, holds => by
    rw [lowerBranches]
    exact .nil
  | branch :: branches, nodes, holds => by
    rw [lowerBranches] at holds ⊢
    exact .cons (carries_lower branch nodes 0 (holds_of_lowerBranches branches _ holds))
      (carries_lowerBranches branches _ holds)

end

end Expr

namespace Graph

variable (expr : Expr)

theorem holds_ofExpr : (ofExpr expr).Holds (ofExpr expr).nodes := by
  intro id bounded
  simp [node, bounded]

theorem holds_lower_ofExpr : (ofExpr expr).Holds (expr.lower #[.last] 0).1 :=
  (holds_ofExpr expr).before

theorem last_ofExpr : (ofExpr expr).node 0 = .last := by
  have first := expr.holds_of_lower _ _ (holds_lower_ofExpr expr)
  exact first 0 (by simp)

theorem root_ofExpr : (ofExpr expr).node (ofExpr expr).root = .start (expr.lower #[.last] 0).2 :=
  (holds_ofExpr expr).newest

theorem carries_ofExpr : (ofExpr expr).Carries expr (expr.lower #[.last] 0).2 0 :=
  expr.carries_lower _ _ (holds_lower_ofExpr expr)

end Graph

end PatternSearch
