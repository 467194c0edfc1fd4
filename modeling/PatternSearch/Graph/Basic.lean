import PatternSearch.Expr.Basic

/-! The match graph: an array of nodes that name each other by their index. Alternatives and
the bodies of loops are subgraphs of their own that end in the shared node `last`. A node
names only nodes with smaller indices, so the graph has no cycle and a walk along it ends. -/

namespace PatternSearch

structure Loop where
  body : Nat
  quantifier : Quantifier
  next : Nat
deriving DecidableEq

inductive Node where
  | last
  | start (next : Nat)
  | char (test : Predicate) (next : Nat)
  | atStart (next : Nat)
  | atEnd (next : Nat)
  | loop (repeated : Loop)
  | groupHead (group next : Nat)
  | groupTail (group next : Nat)
  | branch (alternatives : List Nat) (next : Nat)
  | backreference (group next : Nat)
deriving DecidableEq

def Node.successors : Node → List Nat
  | last => []
  | start next | char _ next | atStart next | atEnd next => [next]
  | groupHead _ next | groupTail _ next | backreference _ next => [next]
  | loop repeated => [repeated.body, repeated.next]
  | branch alternatives next => alternatives ++ [next]

def Descending (nodes : Array Node) : Prop :=
  ∀ id (bounded : id < nodes.size), ∀ successor ∈ nodes[id].successors, successor < id

structure Graph where
  nodes : Array Node
  root : Nat
  descending : Descending nodes
deriving DecidableEq

namespace Graph

/-- No node of a graph names an index without a node. -/
def node (graph : Graph) (id : Nat) : Node := graph.nodes[id]?.getD .last

theorem successor_lt {graph : Graph} {id successor : Nat}
    (named : successor ∈ (graph.node id).successors) : successor < id := by
  unfold node at named
  by_cases bounded : id < graph.nodes.size
  · rw [Array.getElem?_eq_getElem bounded] at named
    exact graph.descending id bounded successor named
  · rw [Array.getElem?_eq_none (by omega)] at named
    simp [Node.successors] at named

end Graph

theorem Descending.push {nodes : Array Node} {node : Node} (descending : Descending nodes)
    (named : ∀ successor ∈ node.successors, successor < nodes.size) :
    Descending (nodes.push node) := by
  intro id bounded successor member
  rw [Array.getElem_push] at member
  split at member
  · next inside => exact descending id inside successor member
  · have newest : id = nodes.size := by
      rw [Array.size_push] at bounded
      omega
    exact newest ▸ named successor member

end PatternSearch
