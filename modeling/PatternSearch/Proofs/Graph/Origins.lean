import PatternSearch.Graph.Lowering
import PatternSearch.Proofs.Expr.Parts

/-! Where the nodes of a graph come from. Every node of a lowered graph, apart from its first node
and its root, stands for a part of the syntax tree: it tests, marks or repeats what that part does,
and nothing that the tree does not hold gets into the graph. -/

namespace PatternSearch

inductive Node.StandsFor : Node → Expr → Prop where
  | char (test : Predicate) (next : Nat) : StandsFor (.char test next) (.predicate test)
  | atStart (next : Nat) : StandsFor (.atStart next) .atStart
  | atEnd (next : Nat) : StandsFor (.atEnd next) .atEnd
  | branch (entries : List Nat) (next : Nat) (branches : List Expr) :
      StandsFor (.branch entries next) (.alternation branches)
  | groupHead (index next : Nat) (body : Expr) :
      StandsFor (.groupHead index next) (.group index body)
  | groupTail (index next : Nat) (body : Expr) :
      StandsFor (.groupTail index next) (.group index body)
  | loop (entry next : Nat) (quantifier : Quantifier) (body : Expr) :
      StandsFor (.loop ⟨entry, quantifier, next⟩) (.repetition body quantifier)
  | backreference (index next : Nat) : StandsFor (.backreference index next) (.backreference index)

def Origins (before : Array Node) (parts : List Expr) (after : Array Node) : Prop :=
  ∀ node ∈ after, node ∈ before ∨ ∃ part ∈ parts, node.StandsFor part

namespace Origins

variable {before middle after : Array Node} {parts others all : List Expr} {node : Node}
  {part : Expr}

theorem refl (nodes : Array Node) (parts : List Expr) : Origins nodes parts nodes :=
  fun _ member => .inl member

theorem push (origins : Origins before parts after) (member : part ∈ parts)
    (stands : node.StandsFor part) : Origins before parts (after.push node) := by
  intro other pushed
  rcases Array.mem_push.mp pushed with earlier | rfl
  · exact origins other earlier
  · exact .inr ⟨part, member, stands⟩

theorem trans (first : Origins before parts middle) (second : Origins middle others after)
    (contained : parts ⊆ all) (further : others ⊆ all) : Origins before all after := by
  intro node member
  rcases second node member with earlier | ⟨part, among, stands⟩
  · rcases first node earlier with original | ⟨part, among, stands⟩
    · exact .inl original
    · exact .inr ⟨part, contained among, stands⟩
  · exact .inr ⟨part, further among, stands⟩

theorem mono (origins : Origins before parts after) (contained : parts ⊆ all) :
    Origins before all after :=
  (refl before all).trans origins (List.Subset.refl _) contained

end Origins

namespace Expr

mutual

theorem origins_lower : (expr : Expr) → (nodes : Array Node) → (next : Nat) →
    Origins nodes expr.parts (expr.lower nodes next).1
  | empty, nodes, next => by
    rw [lower]
    exact .refl nodes _
  | predicate test, nodes, next => by
    rw [lower]
    exact (Origins.refl nodes _).push (self_mem_parts _) (.char test next)
  | atStart, nodes, next => by
    rw [lower]
    exact (Origins.refl nodes _).push (self_mem_parts _) (.atStart next)
  | atEnd, nodes, next => by
    rw [lower]
    exact (Origins.refl nodes _).push (self_mem_parts _) (.atEnd next)
  | sequence items, nodes, next => by
    rw [lower]
    exact (origins_lowerItems items nodes next).mono (List.subset_cons_self _ _)
  | alternation branches, nodes, next => by
    rw [lower]
    exact ((origins_lowerBranches branches nodes).mono (List.subset_cons_self _ _)).push
      (self_mem_parts _) (.branch _ next branches)
  | group index body, nodes, next => by
    have tail : Origins nodes [group index body] (nodes.push (.groupTail index next)) :=
      (Origins.refl nodes _).push (List.mem_singleton_self _) (.groupTail index next body)
    have own : [group index body] ⊆ (group index body).parts :=
      List.cons_subset.mpr ⟨self_mem_parts _, List.nil_subset _⟩
    rw [lower]
    exact (tail.trans (origins_lower body _ _) own (List.subset_cons_self _ _)).push
      (self_mem_parts _) (.groupHead index _ body)
  | repetition body quantifier, nodes, next => by
    rw [lower]
    exact ((origins_lower body nodes 0).mono (List.subset_cons_self _ _)).push (self_mem_parts _)
      (.loop _ next quantifier body)
  | backreference index, nodes, next => by
    rw [lower]
    exact (Origins.refl nodes _).push (self_mem_parts _) (.backreference index next)

theorem origins_lowerItems : (items : List Expr) → (nodes : Array Node) → (next : Nat) →
    Origins nodes (allParts items) (lowerItems nodes next items).1
  | [], nodes, next => by
    rw [lowerItems]
    exact .refl nodes _
  | item :: items, nodes, next => by
    rw [lowerItems, allParts]
    exact (origins_lowerItems items nodes next).trans (origins_lower item _ _)
      (List.subset_append_right _ _) (List.subset_append_left _ _)

theorem origins_lowerBranches : (branches : List Expr) → (nodes : Array Node) →
    Origins nodes (allParts branches) (lowerBranches nodes branches).1
  | [], nodes => by
    rw [lowerBranches]
    exact .refl nodes _
  | branch :: branches, nodes => by
    rw [lowerBranches, allParts]
    exact (origins_lower branch nodes 0).trans (origins_lowerBranches branches _)
      (List.subset_append_left _ _) (List.subset_append_right _ _)

end

end Expr

theorem Graph.mem_nodes_ofExpr {expr : Expr} {node : Node} (member : node ∈ (ofExpr expr).nodes) :
    node = .last ∨ (∃ next, node = .start next) ∨ ∃ part ∈ expr.parts, node.StandsFor part := by
  rcases Array.mem_push.mp member with lowered | rfl
  · rcases expr.origins_lower _ _ node lowered with first | origin
    · exact .inl (by simpa using first)
    · exact .inr (.inr origin)
  · exact .inr (.inl ⟨_, rfl⟩)

theorem Graph.node_ofExpr (expr : Expr) (id : Nat) :
    (ofExpr expr).node id = .last ∨ (∃ next, (ofExpr expr).node id = .start next) ∨
      ∃ part ∈ expr.parts, ((ofExpr expr).node id).StandsFor part := by
  unfold node
  by_cases inside : id < (ofExpr expr).nodes.size
  · rw [Array.getElem?_eq_getElem inside]
    exact mem_nodes_ofExpr (Array.getElem_mem inside)
  · rw [Array.getElem?_eq_none (Nat.not_lt.mp inside)]
    exact .inl rfl

end PatternSearch
