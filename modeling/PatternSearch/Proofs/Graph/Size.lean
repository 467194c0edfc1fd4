import Mathlib
import PatternSearch.Pattern
import PatternSearch.Proofs.Grammar.Composition

/-! How large a graph is. Every part of a tree has its own nodes and no part is lowered twice, so
the bounds of a repetition do not matter. Each node of a pattern's graph is paid for by a character
that only its part is written with, except for the first node and the root. -/

namespace PatternSearch

namespace Expr

def ownNodes : Expr → Nat
  | empty | sequence _ => 0
  | predicate _ | atStart | atEnd | alternation _ | repetition _ _ | backreference _ => 1
  | group _ _ => 2

def nodeCount (expr : Expr) : Nat := (expr.parts.map ownNodes).sum

theorem sum_allParts (exprs : List Expr) :
    ((allParts exprs).map ownNodes).sum = (exprs.map nodeCount).sum := by
  induction exprs with
  | nil => rfl
  | cons expr exprs ih =>
    rw [allParts, List.map_append, List.sum_append, ih, List.map_cons, List.sum_cons]
    rfl

section NodeCount

variable {items branches : List Expr} {body : Expr} {index : Nat} {quantifier : Quantifier}

@[simp] theorem nodeCount_empty : empty.nodeCount = 0 := rfl

@[simp] theorem nodeCount_predicate {test : Predicate} : (predicate test).nodeCount = 1 := rfl

@[simp] theorem nodeCount_atStart : atStart.nodeCount = 1 := rfl

@[simp] theorem nodeCount_atEnd : atEnd.nodeCount = 1 := rfl

@[simp] theorem nodeCount_sequence :
    (sequence items).nodeCount = (items.map nodeCount).sum := by
  rw [← sum_allParts]
  exact Nat.zero_add _

@[simp] theorem nodeCount_alternation :
    (alternation branches).nodeCount = (branches.map nodeCount).sum + 1 := by
  rw [← sum_allParts]
  exact Nat.add_comm 1 _

@[simp] theorem nodeCount_group : (group index body).nodeCount = body.nodeCount + 2 :=
  Nat.add_comm 2 _

@[simp] theorem nodeCount_repetition :
    (repetition body quantifier).nodeCount = body.nodeCount + 1 :=
  Nat.add_comm 1 _

@[simp] theorem nodeCount_backreference : (backreference index).nodeCount = 1 := rfl

end NodeCount

theorem nodeCount_sequenceOf (items : List Expr) :
    (sequenceOf items).nodeCount = (items.map nodeCount).sum := by
  match items with
  | [] => rfl
  | [item] => exact (Nat.add_zero _).symm
  | first :: second :: items => exact nodeCount_sequence

theorem nodeCount_alternationOf {branches : List Expr} (nonempty : branches ≠ []) :
    (alternationOf branches).nodeCount + 1 ≤ (branches.map nodeCount).sum + branches.length := by
  match branches with
  | [branch] => simp [alternationOf]
  | first :: second :: branches =>
    have whole : (alternation (first :: second :: branches)).nodeCount = _ := nodeCount_alternation
    change (alternation (first :: second :: branches)).nodeCount + 1 ≤ _
    rw [whole, List.length_cons, List.length_cons]
    omega

mutual

theorem size_lower : (expr : Expr) → (nodes : Array Node) → (next : Nat) →
    (expr.lower nodes next).1.size = nodes.size + expr.nodeCount
  | empty, nodes, next => by
    rw [lower, nodeCount_empty, Nat.add_zero]
  | predicate test, nodes, next => by
    rw [lower, Array.size_push, nodeCount_predicate]
  | atStart, nodes, next => by
    rw [lower, Array.size_push, nodeCount_atStart]
  | atEnd, nodes, next => by
    rw [lower, Array.size_push, nodeCount_atEnd]
  | sequence items, nodes, next => by
    rw [lower, nodeCount_sequence, size_lowerItems]
  | alternation branches, nodes, next => by
    rw [lower, Array.size_push, size_lowerBranches, nodeCount_alternation, Nat.add_assoc]
  | group index body, nodes, next => by
    rw [lower, Array.size_push, size_lower body, Array.size_push, nodeCount_group]
    omega
  | repetition body quantifier, nodes, next => by
    rw [lower, Array.size_push, size_lower body, nodeCount_repetition, Nat.add_assoc]
  | backreference index, nodes, next => by
    rw [lower, Array.size_push, nodeCount_backreference]

theorem size_lowerItems : (items : List Expr) → (nodes : Array Node) → (next : Nat) →
    (lowerItems nodes next items).1.size = nodes.size + (items.map nodeCount).sum
  | [], nodes, next => by
    rw [lowerItems]
    rfl
  | item :: items, nodes, next => by
    rw [lowerItems, size_lower item, size_lowerItems items, List.map_cons, List.sum_cons]
    omega

theorem size_lowerBranches : (branches : List Expr) → (nodes : Array Node) →
    (lowerBranches nodes branches).1.size = nodes.size + (branches.map nodeCount).sum
  | [], nodes => by
    rw [lowerBranches]
    rfl
  | branch :: branches, nodes => by
    rw [lowerBranches, size_lowerBranches branches, size_lower branch, List.map_cons,
      List.sum_cons, Nat.add_assoc]

end

end Expr

theorem Graph.size_eq_nodeCount (expr : Expr) :
    (ofExpr expr).nodes.size = 2 + expr.nodeCount := by
  change ((expr.lower #[.last] 0).1.push _).size = _
  rw [Array.size_push, expr.size_lower]
  exact Nat.add_right_comm 1 _ 1

namespace Grammar

open PatternSearch.Expr (nodeCount)

/-- A repetition is paid for by its quantifier. -/
theorem nodeCount_repeated (atom : Expr) (suffix : Option Suffix) :
    (repeated atom suffix).nodeCount ≤ atom.nodeCount + (writeSuffix suffix).length := by
  cases suffix with
  | none => exact Nat.le_refl _
  | some suffix =>
    obtain ⟨c, tail, written, _⟩ := suffix.bounds.reads
    rw [repeated, Expr.nodeCount_repetition, writeSuffix, Suffix.write, written, List.length_append,
      List.length_cons]
    omega

theorem Leaf.nodeCount_tree (leaf : Leaf) : leaf.tree.nodeCount ≤ leaf.write.length := by
  obtain ⟨c, tail, written, _⟩ := leaf.readsBack
  have single : leaf.tree.nodeCount = 1 := by cases leaf <;> rfl
  rw [single, written]
  exact Nat.succ_le_succ (Nat.zero_le _)

mutual

/-- Every bar but none before the first branch pays for the node of the alternation. -/
theorem Body.nodeCount_branches : ∀ (body : Body) (before : Nat),
    ((body.branches before).map nodeCount).sum + (body.branches before).length ≤
      body.write.length + 1
  | .single branch, before => by
    have inner := branch.nodeCount_items before
    simpa [Body.branches, Branch.tree_eq, Body.write, Expr.nodeCount_sequenceOf] using inner
  | .bar branch others, before => by
    have inner := branch.nodeCount_items before
    have rest := others.nodeCount_branches (before + branch.groups)
    simp only [Body.branches, Branch.tree_eq, Body.write, List.map_cons, List.sum_cons, List.length_cons,
      List.length_append, Expr.nodeCount_sequenceOf]
    omega

theorem Branch.nodeCount_items : ∀ (branch : Branch) (before : Nat),
    ((branch.items before).map nodeCount).sum ≤ branch.write.length
  | .nil, before => Nat.le_refl 0
  | .cons item items, before => by
    rw [Branch.items, Branch.write, List.map_cons, List.sum_cons, List.length_append]
    exact Nat.add_le_add (item.nodeCount_tree before) (items.nodeCount_items _)

theorem Item.nodeCount_tree : ∀ (item : Item) (before : Nat),
    (item.tree before).nodeCount ≤ item.write.length
  | .atStart, before => Nat.le_refl 1
  | .atEnd, before => Nat.le_refl 1
  | .leaf leaf suffix, before => by
    rw [Item.tree, Item.write, List.length_append]
    exact Nat.le_trans (nodeCount_repeated _ suffix)
      (Nat.add_le_add_right leaf.nodeCount_tree _)
  | .group body suffix, before => by
    have inner := body.nodeCount_branches (before + 1)
    have alternation := Expr.nodeCount_alternationOf (body.branches_ne_nil (before + 1))
    rw [← body.tree_eq] at alternation
    have outer := nodeCount_repeated (.group (before + 1) (body.tree (before + 1))) suffix
    rw [Expr.nodeCount_group] at outer
    rw [Item.tree, Item.write, List.length_cons, List.length_append, List.length_cons]
    omega

end

end Grammar

/-- The graph of a pattern has two nodes and those of the parts of its tree, one for each and two
for a group, whatever the bounds of its repetitions are. These are at most as many as the pattern
has characters, and two. -/
theorem size_graph (pattern : Pattern) :
    pattern.graph.nodes.size = 2 + (pattern.expr.parts.map Expr.ownNodes).sum ∧
      pattern.graph.nodes.size ≤ pattern.source.length + 2 := by
  have counted : pattern.graph.nodes.size = 2 + pattern.expr.nodeCount := by
    rw [pattern.lowered]
    exact Graph.size_eq_nodeCount pattern.expr
  refine ⟨counted, ?_⟩
  obtain ⟨body, written, _, tree, _⟩ := body_of_parse pattern.parsed
  have inner := body.nodeCount_branches 0
  have whole := Expr.nodeCount_alternationOf (body.branches_ne_nil 0)
  rw [← body.tree_eq, ← tree] at whole
  rw [counted, ← String.length_toList, written]
  dsimp only at whole
  omega

end PatternSearch
