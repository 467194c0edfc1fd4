import PatternSearch.Expr.Printer
import PatternSearch.Graph.Lowering

/-! The listing of a match graph: one line for each node, with a star at the root. -/

namespace PatternSearch

namespace Loop

def renderBounds (quantifier : Quantifier) : String :=
  toString quantifier.min ++ ".." ++ (quantifier.max.map toString).getD "inf"

def render (repeated : Loop) : String :=
  "repeat " ++ renderBounds repeated.quantifier ++
    (if repeated.quantifier.greedy then " greedy" else " lazy") ++
    " atom " ++ toString repeated.body

end Loop

namespace Node

def arrow (text : String) (next : Nat) : String := text ++ " -> " ++ toString next

def render : Node → String
  | last => "last"
  | start next => arrow "start" next
  | char test next => arrow ("char " ++ String.ofList test.print) next
  | atStart next => arrow "begin" next
  | atEnd next => arrow "end" next
  | loop repeated => arrow repeated.render repeated.next
  | groupHead group next => arrow ("group-head " ++ toString group) next
  | groupTail group next => arrow ("group-tail " ++ toString group) next
  | branch alternatives next =>
      arrow ("branch [" ++ ", ".intercalate (alternatives.map toString) ++ "]") next
  | backreference group next => arrow ("backref " ++ toString group) next

end Node

namespace Graph

def renderIndex (id : Nat) : String :=
  let digits := toString id
  "".pushn ' ' (3 - digits.length) ++ digits

def renderLine (graph : Graph) (id : Nat) (node : Node) : String :=
  (if id = graph.root then "*" else " ") ++ renderIndex id ++ ": " ++ node.render ++ "\n"

def render (graph : Graph) : String :=
  String.join (graph.nodes.mapIdx graph.renderLine).toList

end Graph

end PatternSearch
