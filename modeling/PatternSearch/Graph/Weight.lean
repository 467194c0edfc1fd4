import PatternSearch.Graph.Basic

/-! How much work a walk along the graph can do without moving forward in the text. The
weight of a node exceeds the weights of the nodes it names; a loop counts its body once for
every iteration that it is forced to make. -/

namespace PatternSearch

namespace Graph

def weight (graph : Graph) (id : Nat) : Nat :=
  match named : graph.node id with
  | .last => 0
  | .start next => graph.weight next + 2
  | .char _ next | .atStart next | .atEnd next => graph.weight next + 1
  | .groupHead _ next | .groupTail _ next | .backreference _ next => graph.weight next + 1
  | .loop repeated =>
      (repeated.quantifier.min + 1) * (graph.weight repeated.body + 2) +
        graph.weight repeated.next + 2
  | .branch alternatives next =>
      alternatives.attach.foldr (fun entry total => graph.weight entry.1 + 1 + total) 0 +
        graph.weight next + 2
termination_by id
decreasing_by
  all_goals
    apply successor_lt
    rw [named]
  all_goals simp [Node.successors]
  exact .inl (Subtype.property _)

/-- The weight of a loop from its iteration number `count` on. -/
def loopWeight (graph : Graph) (repeated : Loop) (count : Nat) : Nat :=
  (repeated.quantifier.min - count + 1) * (graph.weight repeated.body + 2) +
    graph.weight repeated.next + 1

def choiceWeight (graph : Graph) (alternatives : List Nat) : Nat :=
  alternatives.foldr (fun entry total => graph.weight entry + 1 + total) 0

variable {graph : Graph} {id next : Nat}

theorem weight_start (found : graph.node id = .start next) :
    graph.weight id = graph.weight next + 2 := by
  rw [weight]
  split <;> simp_all

theorem weight_atStart (found : graph.node id = .atStart next) :
    graph.weight id = graph.weight next + 1 := by
  rw [weight]
  split <;> simp_all

theorem weight_atEnd (found : graph.node id = .atEnd next) :
    graph.weight id = graph.weight next + 1 := by
  rw [weight]
  split <;> simp_all

theorem weight_groupHead {group : Nat} (found : graph.node id = .groupHead group next) :
    graph.weight id = graph.weight next + 1 := by
  rw [weight]
  split <;> simp_all

theorem weight_groupTail {group : Nat} (found : graph.node id = .groupTail group next) :
    graph.weight id = graph.weight next + 1 := by
  rw [weight]
  split <;> simp_all

theorem weight_backreference {group : Nat}
    (found : graph.node id = .backreference group next) :
    graph.weight id = graph.weight next + 1 := by
  rw [weight]
  split <;> simp_all

theorem weight_loop {repeated : Loop} (found : graph.node id = .loop repeated) :
    graph.weight id = graph.loopWeight repeated 0 + 1 := by
  rw [weight]
  split <;> simp_all [loopWeight]

theorem weight_branch {alternatives : List Nat}
    (found : graph.node id = .branch alternatives next) :
    graph.weight id = graph.choiceWeight alternatives + graph.weight next + 2 := by
  rw [weight]
  split <;> simp_all [choiceWeight]

theorem loopWeight_forced (graph : Graph) {repeated : Loop} {count : Nat}
    (forced : count < repeated.quantifier.min) :
    graph.weight repeated.body + graph.loopWeight repeated (count + 1) + 2 =
      graph.loopWeight repeated count := by
  unfold loopWeight
  have left : repeated.quantifier.min - count + 1 =
      (repeated.quantifier.min - (count + 1) + 1) + 1 := by omega
  rw [left]
  simp only [Nat.add_mul, Nat.one_mul]
  omega

theorem weight_body_lt_loopWeight (graph : Graph) (repeated : Loop) (count : Nat) :
    graph.weight repeated.body + 1 < graph.loopWeight repeated count := by
  unfold loopWeight
  rw [Nat.succ_mul]
  omega

theorem weight_next_lt_loopWeight (graph : Graph) (repeated : Loop) (count : Nat) :
    graph.weight repeated.next < graph.loopWeight repeated count := by
  unfold loopWeight
  omega

end Graph

end PatternSearch
