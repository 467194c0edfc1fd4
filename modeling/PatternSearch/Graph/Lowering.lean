import PatternSearch.Graph.Basic

/-! The match graph of a syntax tree. The tree is lowered from its end to its start, so the
node that follows an expression exists before the expression's own nodes. -/

namespace PatternSearch

namespace Expr

mutual

/-- Adds the nodes of an expression in front of the node `next`, and gives the node at which
the expression starts. -/
def lower (nodes : Array Node) (next : Nat) : Expr → Array Node × Nat
  | empty => (nodes, next)
  | predicate test => (nodes.push (.char test next), nodes.size)
  | atStart => (nodes.push (.atStart next), nodes.size)
  | atEnd => (nodes.push (.atEnd next), nodes.size)
  | sequence items => lowerItems nodes next items
  | alternation branches =>
      let (nodes, entries) := lowerBranches nodes branches
      (nodes.push (.branch entries next), nodes.size)
  | group index body =>
      let (nodes, inner) := lower (nodes.push (.groupTail index next)) nodes.size body
      (nodes.push (.groupHead index inner), nodes.size)
  | repetition body quantifier =>
      let (nodes, entry) := lower nodes 0 body
      (nodes.push (.loop ⟨entry, quantifier, next⟩), nodes.size)
  | backreference index => (nodes.push (.backreference index next), nodes.size)

def lowerItems (nodes : Array Node) (next : Nat) : List Expr → Array Node × Nat
  | [] => (nodes, next)
  | item :: items =>
      let (nodes, following) := lowerItems nodes next items
      lower nodes following item

def lowerBranches (nodes : Array Node) : List Expr → Array Node × List Nat
  | [] => (nodes, [])
  | branch :: branches =>
      let (nodes, entry) := lower nodes 0 branch
      let (nodes, entries) := lowerBranches nodes branches
      (nodes, entry :: entries)

end

/-- What lowering keeps: indices descend, and the start of the expression is a node. -/
structure Lowered (before : Array Node) (after : Array Node × Nat) : Prop where
  descending : Descending after.1
  grows : before.size ≤ after.1.size
  entry : after.2 < after.1.size

structure LoweredBranches (before : Array Node) (after : Array Node × List Nat) : Prop where
  descending : Descending after.1
  grows : before.size ≤ after.1.size
  entries : ∀ entry ∈ after.2, entry < after.1.size

theorem Lowered.push {before nodes : Array Node} {node : Node}
    (descending : Descending nodes) (grows : before.size ≤ nodes.size)
    (named : ∀ successor ∈ node.successors, successor < nodes.size) :
    Lowered before (nodes.push node, nodes.size) :=
  ⟨descending.push named, by rw [Array.size_push]; omega, by rw [Array.size_push]; omega⟩

mutual

theorem lower_descending (expr : Expr) (nodes : Array Node) (next : Nat)
    (descending : Descending nodes) (bounded : next < nodes.size) :
    Lowered nodes (lower nodes next expr) := by
  cases expr with
  | empty =>
    rw [lower]
    exact ⟨descending, Nat.le_refl _, bounded⟩
  | predicate test =>
    rw [lower]
    exact .push descending (Nat.le_refl _) (by simpa [Node.successors] using bounded)
  | atStart =>
    rw [lower]
    exact .push descending (Nat.le_refl _) (by simpa [Node.successors] using bounded)
  | atEnd =>
    rw [lower]
    exact .push descending (Nat.le_refl _) (by simpa [Node.successors] using bounded)
  | sequence items =>
    rw [lower]
    exact lowerItems_descending items nodes next descending bounded
  | alternation branches =>
    have inner := lowerBranches_descending branches nodes descending (by omega)
    rw [lower]
    refine .push inner.descending inner.grows ?_
    intro successor member
    simp only [Node.successors, List.mem_append, List.mem_singleton] at member
    rcases member with entry | rfl
    · exact inner.entries successor entry
    · exact Nat.lt_of_lt_of_le bounded inner.grows
  | group index body =>
    have tail : Descending (nodes.push (.groupTail index next)) :=
      descending.push (by simpa [Node.successors] using bounded)
    have inner := lower_descending body _ nodes.size tail (by simp)
    have grows := inner.grows
    rw [Array.size_push] at grows
    rw [lower]
    refine .push inner.descending (by omega) ?_
    simpa [Node.successors] using inner.entry
  | repetition body quantifier =>
    have inner := lower_descending body nodes 0 descending (by omega)
    have grows := inner.grows
    rw [lower]
    refine .push inner.descending inner.grows ?_
    simp only [Node.successors, List.mem_cons, List.not_mem_nil, or_false, forall_eq_or_imp,
      forall_eq]
    exact ⟨inner.entry, by omega⟩
  | backreference index =>
    rw [lower]
    exact .push descending (Nat.le_refl _) (by simpa [Node.successors] using bounded)

theorem lowerItems_descending (items : List Expr) (nodes : Array Node) (next : Nat)
    (descending : Descending nodes) (bounded : next < nodes.size) :
    Lowered nodes (lowerItems nodes next items) := by
  cases items with
  | nil =>
    rw [lowerItems]
    exact ⟨descending, Nat.le_refl _, bounded⟩
  | cons item items =>
    have rest := lowerItems_descending items nodes next descending bounded
    have first := lower_descending item _ _ rest.descending rest.entry
    rw [lowerItems]
    exact ⟨first.descending, Nat.le_trans rest.grows first.grows, first.entry⟩

theorem lowerBranches_descending (branches : List Expr) (nodes : Array Node)
    (descending : Descending nodes) (nonempty : 0 < nodes.size) :
    LoweredBranches nodes (lowerBranches nodes branches) := by
  cases branches with
  | nil =>
    rw [lowerBranches]
    exact ⟨descending, Nat.le_refl _, by simp⟩
  | cons branch branches =>
    have first := lower_descending branch nodes 0 descending nonempty
    have grows := first.grows
    have rest := lowerBranches_descending branches _ first.descending (by omega)
    have restGrows := rest.grows
    have entry := first.entry
    rw [lowerBranches]
    refine ⟨rest.descending, Nat.le_trans grows restGrows, ?_⟩
    intro id member
    simp only [List.mem_cons] at member
    rcases member with rfl | later
    · exact Nat.lt_of_lt_of_le entry restGrows
    · exact rest.entries id later

end

end Expr

theorem descending_last : Descending #[.last] := by
  intro id bounded successor member
  have first : id = 0 := by simpa using bounded
  subst first
  simp [Node.successors] at member

/-- The node `last` comes first and the node `start`, the root, comes last. -/
def Graph.ofExpr (expr : Expr) : Graph :=
  let lowered := expr.lower #[.last] 0
  { nodes := lowered.1.push (.start lowered.2)
    root := lowered.1.size
    descending :=
      have kept := expr.lower_descending #[.last] 0 descending_last (by simp)
      kept.descending.push (by simpa [Node.successors] using kept.entry) }

end PatternSearch
