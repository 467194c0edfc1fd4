import PatternSearch.Expr.Composition
import PatternSearch.Pattern
import PatternSearch.Proofs.Graph.Layout
import PatternSearch.Proofs.Parse.Reading

/-! The tree of a pattern can be read back from its graph. Where an item begins, its node tells what
it is and where its parts begin, and a run of items goes on until it comes to the end of its chain
or to the tail of its group. So a graph carries at most one canonical tree between its root and its
end. Trees that are not canonical may share a graph: a sequence that holds another one has the graph
of a single sequence. -/

namespace PatternSearch

def Node.Starts (graph : Graph) (item : Expr) (next : Nat) : Node → Prop
  | .char test following => item = .predicate test ∧ next = following
  | .atStart following => item = .atStart ∧ next = following
  | .atEnd following => item = .atEnd ∧ next = following
  | .branch entries following => next = following ∧
      ∃ branches, item = .alternation branches ∧ graph.CarriesBranches branches entries
  | .groupHead index inner => ∃ body tail, item = .group index body ∧
      graph.Carries body inner tail ∧ graph.node tail = .groupTail index next
  | .loop repeated => next = repeated.next ∧ ∃ body,
      item = .repetition body repeated.quantifier ∧ graph.Carries body repeated.body 0
  | .backreference index following => item = .backreference index ∧ next = following
  | .last | .start _ | .groupTail _ _ => False

def Node.isStop : Node → Bool
  | last | groupTail _ _ => true
  | _ => false

theorem Node.Starts.not_isStop {graph : Graph} {item : Expr} {next : Nat} {node : Node}
    (starts : node.Starts graph item next) : ¬node.isStop := by
  cases node with
  | last | groupTail => exact starts.elim
  | _ => exact Bool.false_ne_true

namespace Expr

def isSingle : Expr → Bool
  | empty | sequence _ => false
  | _ => true

theorem isSingle_of_isItem {expr : Expr} (item : expr.isItem) : expr.isSingle := by
  cases expr <;> first | rfl | cases item

theorem items_of_isSingle {expr : Expr} (single : expr.isSingle) : expr.items = [expr] := by
  cases expr <;> first | rfl | cases single

theorem sequenceOf_items {expr : Expr} (shaped : expr.Throughout Shaped) :
    sequenceOf expr.items = expr := by
  cases expr with
  | sequence items =>
    have several := shaped.here.1
    match items, several with
    | first :: second :: items, _ => rfl
  | _ => rfl

theorem single_of_mem_items {expr item : Expr} (shaped : expr.Throughout Shaped)
    (member : item ∈ expr.items) : item.isSingle ∧ item.Throughout Shaped := by
  cases expr with
  | empty => cases member
  | sequence items =>
    obtain ⟨⟨_, each⟩, inside⟩ := Throughout.sequence_iff.mp shaped
    exact ⟨isSingle_of_isItem (each item member), inside item member⟩
  | _ => exact List.mem_singleton.mp member ▸ ⟨rfl, shaped⟩

end Expr

namespace Graph

open PatternSearch.Expr (Shaped)

variable {graph : Graph} {entry next behind : Nat} {expr other item : Expr}

theorem Carries.run (carries : graph.Carries expr entry next) :
    graph.CarriesItems expr.items entry next := by
  cases carries with
  | empty => exact .nil
  | sequence all => exact all
  | predicate found => exact .cons (.predicate found) .nil
  | atStart found => exact .cons (.atStart found) .nil
  | atEnd found => exact .cons (.atEnd found) .nil
  | alternation found each => exact .cons (.alternation found each) .nil
  | group head inside found => exact .cons (.group head inside found) .nil
  | repetition found inside => exact .cons (.repetition found inside) .nil
  | backreference found => exact .cons (.backreference found) .nil

theorem Carries.starts (single : item.isSingle) (carries : graph.Carries item entry next) :
    (graph.node entry).Starts graph item next := by
  cases carries with
  | empty | sequence => cases single
  | predicate found | atStart found | atEnd found | backreference found =>
    rw [found]
    exact ⟨rfl, rfl⟩
  | alternation found each =>
    rw [found]
    exact ⟨rfl, _, rfl, each⟩
  | group head inside found =>
    rw [head]
    exact ⟨_, _, rfl, inside, found⟩
  | repetition found inside =>
    rw [found]
    exact ⟨rfl, _, rfl, inside⟩

theorem not_isStop_of_carries (single : item.isSingle) (carries : graph.Carries item entry next) :
    ¬(graph.node entry).isStop :=
  (carries.starts single).not_isStop

/-- The graph carries no other item in shape from where it carries the given one. -/
def Determines (graph : Graph) (item : Expr) : Prop :=
  ∀ (other : Expr) (entry next behind : Nat), other.isSingle → other.Throughout Shaped →
    graph.Carries item entry next → graph.Carries other entry behind → item = other ∧ next = behind

theorem Determines.items (determines : graph.Determines expr) (single : expr.isSingle) :
    ∀ item ∈ expr.items, graph.Determines item := by
  rw [Expr.items_of_isSingle single]
  exact List.forall_mem_singleton.mpr determines

theorem determines_of_node (node : Nat → Node)
    (only : ∀ entry next, graph.Carries item entry next → graph.node entry = node next)
    (tells : ∀ other next behind, (node next).Starts graph other behind →
      other = item ∧ behind = next) : graph.Determines item := by
  intro other entry next behind single _ carries carriesOther
  have starts := carriesOther.starts single
  rw [only entry next carries] at starts
  obtain ⟨rfl, rfl⟩ := tells other next behind starts
  exact ⟨rfl, rfl⟩

/-- Two runs of items from the same node on are the same if both end where a run can end. -/
theorem run_unique {items others : List Expr}
    (determined : ∀ item ∈ items, item.isSingle ∧ graph.Determines item)
    (shaped : ∀ other ∈ others, other.isSingle ∧ other.Throughout Shaped)
    (first : graph.CarriesItems items entry next) (second : graph.CarriesItems others entry behind)
    (stops : (graph.node next).isStop) (ends : (graph.node behind).isStop) :
    items = others ∧ next = behind := by
  induction items generalizing others entry with
  | nil =>
    cases first with
    | nil =>
      cases second with
      | nil => exact ⟨rfl, rfl⟩
      | cons carries rest =>
        have single := (shaped _ (List.mem_cons_self ..)).1
        exact absurd stops (not_isStop_of_carries single carries)
  | cons item items ih =>
    obtain ⟨⟨single, determines⟩, further⟩ := List.forall_mem_cons.mp determined
    cases first with
    | cons carries rest =>
      cases second with
      | nil => exact absurd ends (not_isStop_of_carries single carries)
      | cons carriesOther restOther =>
        obtain ⟨⟨alone, inShape⟩, shapedRest⟩ := List.forall_mem_cons.mp shaped
        obtain ⟨rfl, rfl⟩ := determines _ _ _ _ alone inShape carries carriesOther
        obtain ⟨rfl, same⟩ := ih further shapedRest rest restOther
        exact ⟨rfl, same⟩

/-- The graph carries no other tree in shape from where it carries the given one, if both end where
a run can end. -/
def CarriesOnly (graph : Graph) (expr : Expr) : Prop :=
  ∀ (other : Expr) (entry next behind : Nat), other.Throughout Shaped →
    graph.Carries expr entry next → graph.Carries other entry behind → (graph.node next).isStop →
      (graph.node behind).isStop → expr = other ∧ next = behind

theorem carriesOnly_of_items (shaped : expr.Throughout Shaped)
    (determined : ∀ item ∈ expr.items, graph.Determines item) : graph.CarriesOnly expr := by
  intro other entry next behind shapedOther carries carriesOther stops ends
  obtain ⟨items, same⟩ := run_unique
    (fun item member => ⟨(Expr.single_of_mem_items shaped member).1, determined item member⟩)
    (fun item member => Expr.single_of_mem_items shapedOther member) carries.run carriesOther.run
    stops ends
  refine ⟨?_, same⟩
  rw [← Expr.sequenceOf_items shaped, items, Expr.sequenceOf_items shapedOther]

theorem determines_group {index : Nat} {body : Expr} (only : graph.CarriesOnly body) :
    graph.Determines (.group index body) := by
  intro other entry next behind single shaped carries carriesOther
  have starts := carriesOther.starts single
  cases carries with
  | group head inside found =>
    rw [head] at starts
    obtain ⟨otherBody, tail, rfl, insideOther, foundOther⟩ := starts
    obtain ⟨rfl, rfl⟩ := only otherBody _ _ _ (Expr.Throughout.group_iff.mp shaped).2 inside
      insideOther (by rw [found]; rfl) (by rw [foundOther]; rfl)
    rw [found] at foundOther
    cases foundOther
    exact ⟨rfl, rfl⟩

section Ended

variable (last : graph.node 0 = .last)
include last

theorem isStop_zero : (graph.node 0).isStop := by
  rw [last]
  rfl

theorem determines_repetition {body : Expr} {quantifier : Quantifier}
    (only : graph.CarriesOnly body) : graph.Determines (.repetition body quantifier) := by
  intro other entry next behind single shaped carries carriesOther
  have starts := carriesOther.starts single
  cases carries with
  | repetition found inside =>
    rw [found] at starts
    obtain ⟨rfl, otherBody, rfl, insideOther⟩ := starts
    obtain ⟨rfl, _⟩ := only otherBody _ _ _ (Expr.Throughout.repetition_iff.mp shaped).2 inside
      insideOther (isStop_zero last) (isStop_zero last)
    exact ⟨rfl, rfl⟩

theorem branches_unique {branches others : List Expr} {entries : List Nat}
    (only : ∀ branch ∈ branches, graph.CarriesOnly branch)
    (shaped : ∀ other ∈ others, other.Throughout Shaped)
    (first : graph.CarriesBranches branches entries)
    (second : graph.CarriesBranches others entries) : branches = others := by
  induction branches generalizing others entries with
  | nil =>
    cases first
    cases second
    rfl
  | cons branch branches ih =>
    obtain ⟨onlyBranch, further⟩ := List.forall_mem_cons.mp only
    cases first with
    | cons carries rest =>
      cases second with
      | cons carriesOther restOther =>
        obtain ⟨shapedOther, shapedRest⟩ := List.forall_mem_cons.mp shaped
        obtain ⟨rfl, _⟩ := onlyBranch _ _ _ _ shapedOther carries carriesOther (isStop_zero last)
          (isStop_zero last)
        rw [ih further shapedRest rest restOther]

theorem determines_alternation {branches : List Expr}
    (only : ∀ branch ∈ branches, graph.CarriesOnly branch) :
    graph.Determines (.alternation branches) := by
  intro other entry next behind single shaped carries carriesOther
  have starts := carriesOther.starts single
  cases carries with
  | alternation found each =>
    rw [found] at starts
    obtain ⟨rfl, others, rfl, eachOther⟩ := starts
    rw [branches_unique last only (Expr.Throughout.alternation_iff.mp shaped).2 each eachOther]
    exact ⟨rfl, rfl⟩

theorem determines_items (expr : Expr) (shaped : expr.Throughout Shaped) :
    ∀ item ∈ expr.items, graph.Determines item := by
  induction expr using Expr.induction with
  | empty => nofun
  | predicate test =>
    refine Determines.items (determines_of_node (.char test) ?_ ?_) rfl
    · exact fun entry next carries => by cases carries; assumption
    · exact fun other next behind starts => starts
  | atStart =>
    refine Determines.items (determines_of_node .atStart ?_ ?_) rfl
    · exact fun entry next carries => by cases carries; assumption
    · exact fun other next behind starts => starts
  | atEnd =>
    refine Determines.items (determines_of_node .atEnd ?_ ?_) rfl
    · exact fun entry next carries => by cases carries; assumption
    · exact fun other next behind starts => starts
  | backreference index =>
    refine Determines.items (determines_of_node (.backreference index) ?_ ?_) rfl
    · exact fun entry next carries => by cases carries; assumption
    · exact fun other next behind starts => starts
  | sequence items ih =>
    obtain ⟨⟨_, each⟩, inside⟩ := Expr.Throughout.sequence_iff.mp shaped
    intro item member
    have own := ih item member (inside item member)
    rw [Expr.items_of_isSingle (Expr.isSingle_of_isItem (each item member))] at own
    exact own item (List.mem_singleton_self _)
  | alternation branches ih =>
    have inside := (Expr.Throughout.alternation_iff.mp shaped).2
    refine Determines.items (determines_alternation last ?_) rfl
    exact fun branch member =>
      carriesOnly_of_items (inside branch member) (ih branch member (inside branch member))
  | group index body ih =>
    have inside := (Expr.Throughout.group_iff.mp shaped).2
    have only := carriesOnly_of_items inside (ih inside)
    exact (determines_group only).items rfl
  | repetition body quantifier ih =>
    have inside := (Expr.Throughout.repetition_iff.mp shaped).2
    have only := carriesOnly_of_items inside (ih inside)
    exact (determines_repetition last only).items rfl

end Ended

/-- A graph stands for one tree in shape at most. -/
theorem eq_of_ofExpr_eq (shaped : expr.Throughout Shaped) (shapedOther : other.Throughout Shaped)
    (same : ofExpr expr = ofExpr other) : expr = other := by
  have last := last_ofExpr expr
  have carriesOther := carries_ofExpr other
  have root := root_ofExpr other
  rw [← same] at carriesOther root
  rw [root_ofExpr expr, Node.start.injEq] at root
  rw [← root] at carriesOther
  have only := carriesOnly_of_items shaped (determines_items last expr shaped)
  exact (only other _ _ _ shapedOther (carries_ofExpr expr) carriesOther (isStop_zero last)
    (isStop_zero last)).1

/-- Out of shape, trees can share a graph. -/
example : ofExpr (.sequence [.sequence [.atStart], .atEnd]) =
    ofExpr (.sequence [.atStart, .atEnd]) := rfl

theorem eq_of_nodes {first second : Graph} (nodes : first.nodes = second.nodes)
    (root : first.root = second.root) : first = second := by
  cases first
  cases second
  cases nodes
  cases root
  rfl

end Graph

/-- Two patterns have the same nodes and the same root if and only if they have the same tree, and
then they have the same number of groups. -/
theorem graph_determines_tree (first second : Pattern) :
    (first.graph.nodes = second.graph.nodes ∧ first.graph.root = second.graph.root ↔
        first.expr = second.expr) ∧
      (first.expr = second.expr → first.groups = second.groups) := by
  have canonical := canonical_of_parse first.parsed
  have canonicalOther := canonical_of_parse second.parsed
  refine ⟨⟨?_, ?_⟩, ?_⟩
  · rintro ⟨nodes, root⟩
    have graphs : first.graph = second.graph := Graph.eq_of_nodes nodes root
    rw [first.lowered, second.lowered] at graphs
    exact Graph.eq_of_ofExpr_eq canonical.shaped canonicalOther.shaped graphs
  · intro trees
    rw [first.lowered, second.lowered, trees]
    exact ⟨rfl, rfl⟩
  · intro trees
    have numbered := canonical.numbered
    dsimp only at numbered
    have numberedOther := canonicalOther.numbered
    dsimp only at numberedOther
    rw [trees, numberedOther] at numbered
    simpa using congrArg List.length numbered.symm

end PatternSearch
