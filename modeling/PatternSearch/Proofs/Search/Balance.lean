import PatternSearch.Proofs.Search.Bounds
import PatternSearch.Proofs.Search.Trail

/-! Where a group is open. The head of a group leads into its body and the tail out of it, and no
group lies inside itself, so along every way through the graph the heads and the tails of a group
take turns. `Node.Balanced` says so of what lies ahead of a node, and every call of a search
hands it on to the calls that it asks. -/

namespace PatternSearch

/-- Along every way from the node to the end of its chain, the group is entered only where it is
not open and left only where it is. The first flag tells whether it is open at the node, and the
second one whether it is at the end. -/
inductive Node.Balanced (graph : Graph) (group : Nat) : Bool → Bool → Node → Prop where
  | last {opened : Bool} : Balanced graph group opened opened .last
  | start {opened ends : Bool} {next : Nat}
      (rest : Balanced graph group opened ends (graph.node next)) :
      Balanced graph group opened ends (.start next)
  | char {opened ends : Bool} {test : Predicate} {next : Nat}
      (rest : Balanced graph group opened ends (graph.node next)) :
      Balanced graph group opened ends (.char test next)
  | atStart {opened ends : Bool} {next : Nat}
      (rest : Balanced graph group opened ends (graph.node next)) :
      Balanced graph group opened ends (.atStart next)
  | atEnd {opened ends : Bool} {next : Nat}
      (rest : Balanced graph group opened ends (graph.node next)) :
      Balanced graph group opened ends (.atEnd next)
  | backreference {opened ends : Bool} {number next : Nat}
      (rest : Balanced graph group opened ends (graph.node next)) :
      Balanced graph group opened ends (.backreference number next)
  | enter {ends : Bool} {next : Nat} (rest : Balanced graph group true ends (graph.node next)) :
      Balanced graph group false ends (.groupHead group next)
  | leave {ends : Bool} {next : Nat} (rest : Balanced graph group false ends (graph.node next)) :
      Balanced graph group true ends (.groupTail group next)
  | otherHead {opened ends : Bool} {number next : Nat} (other : number ≠ group)
      (rest : Balanced graph group opened ends (graph.node next)) :
      Balanced graph group opened ends (.groupHead number next)
  | otherTail {opened ends : Bool} {number next : Nat} (other : number ≠ group)
      (rest : Balanced graph group opened ends (graph.node next)) :
      Balanced graph group opened ends (.groupTail number next)
  | branch {opened ends : Bool} {ids : List Nat} {next : Nat}
      (alternatives : ∀ id ∈ ids, Balanced graph group opened opened (graph.node id))
      (rest : Balanced graph group opened ends (graph.node next)) :
      Balanced graph group opened ends (.branch ids next)
  | loop {opened ends : Bool} {repeated : Loop}
      (body : Balanced graph group opened opened (graph.node repeated.body))
      (rest : Balanced graph group opened ends (graph.node repeated.next)) :
      Balanced graph group opened ends (.loop repeated)

namespace Expr

variable {graph : Graph} {group : Nat}

mutual

/-- The nodes of an expression are balanced, unless the group lies inside itself. -/
theorem balanced_of_carries {opened ends : Bool} (last : graph.node 0 = .last) :
    (expr : Expr) → {entry next : Nat} → expr.groups.Nodup →
      (opened = true → group ∉ expr.groups) → graph.Carries expr entry next →
      (graph.node next).Balanced graph group opened ends →
      (graph.node entry).Balanced graph group opened ends
  | empty, entry, next, distinct, fresh, carries, balanced => by
    cases carries with
    | empty => exact balanced
  | predicate test, entry, next, distinct, fresh, carries, balanced => by
    cases carries with
    | predicate found => exact found ▸ .char balanced
  | atStart, entry, next, distinct, fresh, carries, balanced => by
    cases carries with
    | atStart found => exact found ▸ .atStart balanced
  | atEnd, entry, next, distinct, fresh, carries, balanced => by
    cases carries with
    | atEnd found => exact found ▸ .atEnd balanced
  | sequence items, entry, next, distinct, fresh, carries, balanced => by
    rw [groups_sequence, List.nodup_flatMap] at distinct
    rw [groups_sequence] at fresh
    cases carries with
    | sequence all =>
      refine balanced_of_carriesItems last items distinct.1 ?_ all balanced
      exact fun entered item member named =>
        fresh entered (List.mem_flatMap.mpr ⟨item, member, named⟩)
  | alternation branches, entry, next, distinct, fresh, carries, balanced => by
    rw [groups_alternation, List.nodup_flatMap] at distinct
    rw [groups_alternation] at fresh
    cases carries with
    | alternation found each =>
      rw [found]
      refine .branch (balanced_of_carriesBranches last branches distinct.1 ?_ each) balanced
      exact fun entered item member named =>
        fresh entered (List.mem_flatMap.mpr ⟨item, member, named⟩)
  | .group number body, entry, next, distinct, fresh, carries, balanced => by
    rw [groups_group, List.nodup_cons] at distinct
    rw [groups_group] at fresh
    cases carries with
    | @group _ inner tail _ _ _ head inside found =>
      rw [head]
      by_cases own : group = number
      · -- No group lies inside itself, so this one is not open at its own head.
        subst own
        have closed : opened = false := by
          rw [← Bool.not_eq_true]
          exact fun entered => fresh entered (List.mem_cons_self ..)
        have ended : (graph.node tail).Balanced graph group true ends := by
          rw [found]
          exact .leave (closed ▸ balanced)
        rw [closed]
        exact .enter (balanced_of_carries last body distinct.2 (fun _ => distinct.1) inside ended)
      · have other : number ≠ group := fun same => own same.symm
        have ended : (graph.node tail).Balanced graph group opened ends := by
          rw [found]
          exact .otherTail other balanced
        exact .otherHead other (balanced_of_carries last body distinct.2
          (fun entered named => fresh entered (List.mem_cons_of_mem _ named)) inside ended)
  | repetition body quantifier, entry, next, distinct, fresh, carries, balanced => by
    rw [groups_repetition] at distinct fresh
    have ended : (graph.node 0).Balanced graph group opened opened := by
      rw [last]
      exact .last
    cases carries with
    | repetition found inside =>
      rw [found]
      exact .loop (balanced_of_carries last body distinct fresh inside ended) balanced
  | backreference number, entry, next, distinct, fresh, carries, balanced => by
    cases carries with
    | backreference found => exact found ▸ .backreference balanced

theorem balanced_of_carriesItems {opened ends : Bool} (last : graph.node 0 = .last) :
    (items : List Expr) → {entry next : Nat} → (∀ item ∈ items, item.groups.Nodup) →
      (opened = true → ∀ item ∈ items, group ∉ item.groups) →
      graph.CarriesItems items entry next →
      (graph.node next).Balanced graph group opened ends →
      (graph.node entry).Balanced graph group opened ends
  | [], entry, next, distinct, fresh, carries, balanced => by
    cases carries with
    | nil => exact balanced
  | item :: items, entry, next, distinct, fresh, carries, balanced => by
    obtain ⟨this, others⟩ := List.forall_mem_cons.mp distinct
    cases carries with
    | cons first rest =>
      have behind := balanced_of_carriesItems last items others
        (fun entered => (List.forall_mem_cons.mp (fresh entered)).2) rest balanced
      exact balanced_of_carries last item this
        (fun entered => (List.forall_mem_cons.mp (fresh entered)).1) first behind

theorem balanced_of_carriesBranches {opened : Bool} (last : graph.node 0 = .last) :
    (branches : List Expr) → {entries : List Nat} → (∀ branch ∈ branches, branch.groups.Nodup) →
      (opened = true → ∀ branch ∈ branches, group ∉ branch.groups) →
      graph.CarriesBranches branches entries →
      ∀ id ∈ entries, (graph.node id).Balanced graph group opened opened
  | [], entries, distinct, fresh, carries => by
    cases carries with
    | nil => nofun
  | branch :: branches, entries, distinct, fresh, carries => by
    obtain ⟨this, others⟩ := List.forall_mem_cons.mp distinct
    have ended : (graph.node 0).Balanced graph group opened opened := by
      rw [last]
      exact .last
    cases carries with
    | cons first rest =>
      refine List.forall_mem_cons.mpr ⟨?_, ?_⟩
      · exact balanced_of_carries last branch this
          (fun entered => (List.forall_mem_cons.mp (fresh entered)).1) first ended
      · exact balanced_of_carriesBranches last branches others
          (fun entered => (List.forall_mem_cons.mp (fresh entered)).2) rest

end

end Expr

section Calls

inductive Goal.Balanced (graph : Graph) (group : Nat) : Bool → Bool → Goal → Prop where
  | visit {opened ends : Bool} {id : Nat}
      (here : (graph.node id).Balanced graph group opened ends) :
      Balanced graph group opened ends (.visit id)
  | choose {opened : Bool} {ids : List Nat}
      (each : ∀ id ∈ ids, (graph.node id).Balanced graph group opened opened) :
      Balanced graph group opened opened (.choose ids)
  | iterate {opened ends : Bool} {repeated : Loop} {count : Nat}
      (body : (graph.node repeated.body).Balanced graph group opened opened)
      (rest : (graph.node repeated.next).Balanced graph group opened ends) :
      Balanced graph group opened ends (.iterate repeated count)
  | scan {opened ends : Bool} {next : Nat}
      (rest : (graph.node next).Balanced graph group opened ends) :
      Balanced graph group opened ends (.scan next)

inductive Continuation.Balanced (graph : Graph) (group : Nat) : Bool → Continuation → Prop where
  | done : Balanced graph group false .done
  | resume {opened ends : Bool} {next : Nat} {parent : Continuation}
      (rest : (graph.node next).Balanced graph group opened ends)
      (outer : Balanced graph group ends parent) : Balanced graph group opened (.resume next parent)
  | loop {opened ends : Bool} {repeated : Loop} {count start : Nat} {parent : Continuation}
      (body : (graph.node repeated.body).Balanced graph group opened opened)
      (rest : (graph.node repeated.next).Balanced graph group opened ends)
      (outer : Balanced graph group ends parent) :
      Balanced graph group opened (.loop repeated count start parent)

def Call.Balanced (graph : Graph) (group : Nat) (opened : Bool) (call : Call) : Prop :=
  ∃ ends, call.goal.Balanced graph group opened ends ∧ call.cont.Balanced graph group ends

inductive Turn (group : Nat) : Bool → List Mark → Bool → Prop where
  | silent {opened : Bool} {marks : List Mark} (others : ∀ mark ∈ marks, mark.group ≠ group) :
      Turn group opened marks opened
  | enter {index : Nat} : Turn group false [.head group index] true
  | leave {index : Nat} : Turn group true [.tail group index] false

variable {graph : Graph} {text : Array Char} {window : Window} {group index : Nat}
  {opened ends : Bool} {call next : Call}

def Call.Turns (graph : Graph) (group : Nat) (opened : Bool) (marks : List Mark) (next : Call) :
    Prop :=
  ∃ after, Turn group opened marks after ∧ next.Balanced graph group after

theorem Call.turns_silent (balanced : next.Balanced graph group opened) :
    next.Turns graph group opened [] := ⟨opened, .silent nofun, balanced⟩

theorem Call.turns_other {mark : Mark} (other : mark.group ≠ group)
    (balanced : next.Balanced graph group opened) : next.Turns graph group opened [mark] :=
  ⟨opened, .silent (by simpa using other), balanced⟩

theorem Node.Asks.turns {id : Nat} {cont : Continuation} {registers : Registers}
    (asks : (graph.node id).Asks text window index cont registers next)
    (here : (graph.node id).Balanced graph group opened ends)
    (outer : cont.Balanced graph group ends) :
    next.Turns graph group opened (graph.marks ⟨.visit id, index, cont, registers⟩) := by
  simp only [Graph.marks]
  generalize graph.node id = node at asks here ⊢
  cases asks with
  | resume =>
    cases here
    cases outer with
    | resume rest outer => exact Call.turns_silent ⟨_, .visit rest, outer⟩
  | again fresh =>
    cases here
    cases outer with
    | loop body rest outer => exact Call.turns_silent ⟨_, .iterate body rest, outer⟩
  | start =>
    cases here with
    | start rest => exact Call.turns_silent ⟨_, .scan rest, outer⟩
  | char before accepted =>
    cases here with
    | char rest => exact Call.turns_silent ⟨_, .visit rest, outer⟩
  | atStart =>
    cases here with
    | atStart rest => exact Call.turns_silent ⟨_, .visit rest, outer⟩
  | atEnd =>
    cases here with
    | atEnd rest => exact Call.turns_silent ⟨_, .visit rest, outer⟩
  | loop =>
    cases here with
    | loop body rest => exact Call.turns_silent ⟨_, .iterate body rest, outer⟩
  | groupHead =>
    cases here with
    | enter rest => exact ⟨true, .enter, _, .visit rest, outer⟩
    | otherHead other rest => exact Call.turns_other other ⟨_, .visit rest, outer⟩
  | groupTail =>
    cases here with
    | leave rest => exact ⟨false, .leave, _, .visit rest, outer⟩
    | otherTail other rest => exact Call.turns_other other ⟨_, .visit rest, outer⟩
  | branch =>
    cases here with
    | branch alternatives rest =>
      exact Call.turns_silent ⟨_, .choose alternatives, .resume rest outer⟩
  | backreference held fits repeats =>
    cases here with
    | backreference rest => exact Call.turns_silent ⟨_, .visit rest, outer⟩

theorem Call.Asks.turns (asks : call.Asks graph text window next)
    (balanced : call.Balanced graph group opened) :
    next.Turns graph group opened (graph.marks call) := by
  obtain ⟨ends, goal, outer⟩ := balanced
  cases asks with
  | visit asks =>
    cases goal with
    | visit here => exact asks.turns here outer
  | choose =>
    cases goal with
    | choose each => exact turns_silent ⟨_, .visit (each _ (List.mem_cons_self ..)), outer⟩
  | others restored =>
    cases goal with
    | choose each =>
      exact turns_silent ⟨_, .choose fun id later => each id (List.mem_cons_of_mem _ later), outer⟩
  | forced few =>
    cases goal with
    | iterate body rest => exact turns_silent ⟨_, .visit body, .loop body rest outer⟩
  | more enough allowed restored =>
    cases goal with
    | iterate body rest => exact turns_silent ⟨_, .visit body, .loop body rest outer⟩
  | leave enough restored =>
    cases goal with
    | iterate body rest => exact turns_silent ⟨_, .visit rest, outer⟩
  | attempt inside =>
    cases goal with
    | scan rest => exact turns_silent ⟨_, .visit rest, outer⟩
  | onward inside restored =>
    cases goal with
    | scan rest => exact turns_silent ⟨_, .scan rest, outer⟩

theorem Matcher.balanced_firstCall (pattern : Pattern) (text : List Char) (start group : Nat) :
    ((pattern.matcher text).firstCall start).Balanced pattern.graph group false := by
  rw [firstCall_matcher]
  refine ⟨false, .visit ?_, .done⟩
  rw [pattern.lowered, Graph.root_ofExpr]
  have ended := Graph.last_ofExpr pattern.expr
  refine .start (pattern.expr.balanced_of_carries ended pattern.nodup_groups nofun
    (Graph.carries_ofExpr pattern.expr) ?_)
  rw [ended]
  exact .last

end Calls

end PatternSearch
