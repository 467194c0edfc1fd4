import Mathlib.Logic.Relation
import PatternSearch.Graph.Basic

/-! The shape of a match graph. A node lies in a chain that leads from node to node to the node
`last`; alternatives and the bodies of loops are chains of their own. In a graph of good shape every
chain leaves the groups that it enters, innermost first. -/

namespace PatternSearch

namespace Node

def next? : Node → Option Nat
  | last => none
  | start next | char _ next | atStart next | atEnd next => some next
  | groupHead _ next | groupTail _ next | branch _ next | backreference _ next => some next
  | loop repeated => some repeated.next

/-- Where chains of their own begin. -/
def entries : Node → List Nat
  | branch alternatives _ => alternatives
  | loop repeated => [repeated.body]
  | _ => []

theorem mem_successors {node : Node} {id : Nat} :
    id ∈ node.successors ↔ id ∈ node.entries ∨ node.next? = some id := by
  cases node <;> simp [successors, entries, next?, eq_comm]

def isPlain : Node → Bool
  | last | groupHead _ _ | groupTail _ _ => false
  | _ => true

end Node

namespace Graph

def Names (graph : Graph) (id successor : Nat) : Prop := successor ∈ (graph.node id).successors

def Reaches (graph : Graph) : Nat → Nat → Prop := Relation.ReflTransGen graph.Names

def chain (graph : Graph) (id : Nat) : List Nat :=
  match _found : (graph.node id).next? with
  | none => [id]
  | some next => id :: graph.chain next
termination_by id
decreasing_by exact successor_lt (Node.mem_successors.mpr (.inr _found))

variable {graph : Graph} {id next : Nat}

theorem chain_of_none (ends : (graph.node id).next? = none) : graph.chain id = [id] := by
  rw [chain]
  split
  · rfl
  · next found =>
    rw [ends] at found
    cases found

theorem chain_of_some (follows : (graph.node id).next? = some next) :
    graph.chain id = id :: graph.chain next := by
  rw [chain]
  split
  · next found =>
    rw [follows] at found
    cases found
  · next found =>
    rw [follows] at found
    cases found
    rfl

/-- Part of a chain, in which every group that is entered is left, and no other. -/
inductive Nested (graph : Graph) : List Nat → Prop where
  | nil : Nested graph []
  | plain {id : Nat} {ids : List Nat} (plain : (graph.node id).isPlain)
      (rest : Nested graph ids) : Nested graph (id :: ids)
  | group {head tail group inner next : Nat} {body ids : List Nat}
      (enters : graph.node head = .groupHead group inner) (inside : Nested graph body)
      (leaves : graph.node tail = .groupTail group next) (rest : Nested graph ids) :
      Nested graph (head :: (body ++ tail :: ids))

def Comes (graph : Graph) (entry stop : Nat) : Prop :=
  ∃ ids, graph.chain entry = ids ++ graph.chain stop ∧ graph.Nested ids

def Begins (graph : Graph) (entry : Nat) : Prop :=
  entry = graph.root ∨ ∃ id, entry ∈ (graph.node id).entries

structure WellShaped (graph : Graph) : Prop where
  last_iff : ∀ id, graph.nodes[id]? = some .last ↔ id = 0
  start_iff : ∀ id, (∃ next, graph.nodes[id]? = some (.start next)) ↔ id = graph.root
  size : graph.nodes.size = graph.root + 1
  descends : ∀ id successor, graph.Names id successor → successor < id
  acyclic : ∀ id, ¬Relation.TransGen graph.Names id id
  ends : ∀ id < graph.nodes.size, (graph.chain id).getLast? = some 0
  reachable : ∀ id < graph.nodes.size, graph.Reaches graph.root id
  /-- The chain from the head of a group on meets the tail of the same group, and in between only
  groups that are entered and left there. -/
  paired : ∀ head group inner, graph.node head = .groupHead group inner →
    ∃ body tail behind next, graph.chain head = head :: (body ++ tail :: behind) ∧
      graph.Nested body ∧ graph.node tail = .groupTail group next
  nested : ∀ entry, graph.Begins entry →
    ∃ ids, graph.chain entry = ids ++ [0] ∧ graph.Nested ids

end Graph

end PatternSearch
