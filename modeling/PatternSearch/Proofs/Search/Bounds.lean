import PatternSearch.Proofs.Graph.Origins
import PatternSearch.Proofs.Parse.Reading
import PatternSearch.Proofs.Search.Asking
import PatternSearch.Proofs.Search.Refinement
import PatternSearch.Proofs.Text.Offsets

/-! Nothing that a search reaches for is missing. Every node that a call names is in the graph,
every group that the graph marks has its slots, and no slot of a call holds a position behind the
call's own, so a repeated text lies before the position at which it is compared. Whatever a match
reports can be cut out of the text. -/

namespace PatternSearch

namespace Goal

def nodes : Goal → List Nat
  | visit id => [id]
  | choose ids => ids
  | iterate repeated _ => [repeated.body, repeated.next]
  | scan next => [next]

end Goal

namespace Continuation

def nodes : Continuation → List Nat
  | done => []
  | resume next parent => next :: parent.nodes
  | loop repeated _ _ parent => repeated.body :: repeated.next :: parent.nodes

end Continuation

def Call.nodes (call : Call) : List Nat := call.goal.nodes ++ call.cont.nodes

def Call.Placed (graph : Graph) (call : Call) : Prop := ∀ id ∈ call.nodes, id < graph.nodes.size

theorem Node.Asks.named {text : Array Char} {window : Window} {node : Node} {index : Nat}
    {cont : Continuation} {registers : Registers} {next : Call}
    (asks : node.Asks text window index cont registers next) :
    ∀ id ∈ next.nodes, id ∈ node.successors ∨ id ∈ cont.nodes := by
  intro id member
  rw [Call.nodes, List.mem_append] at member
  cases asks with
  | branch =>
    simp only [Goal.nodes, Continuation.nodes, List.mem_cons] at member
    simp only [successors, List.mem_append, List.mem_singleton]
    rcases member with entry | rfl | outer
    · exact .inl (.inl entry)
    · exact .inl (.inr rfl)
    · exact .inr outer
  | loop =>
    exact member
  | resume =>
    refine .inr ?_
    rcases member with here | outer
    · rw [List.mem_singleton.mp here]
      exact List.mem_cons_self ..
    · exact List.mem_cons_of_mem _ outer
  | again => exact .inr (List.mem_append.mpr member)
  | _ => exact member

theorem Call.Asks.placed {graph : Graph} {text : Array Char} {window : Window} {call next : Call}
    (asks : call.Asks graph text window next) (placed : call.Placed graph) :
    next.Placed graph := by
  intro id member
  cases asks with
  | @visit node index cont registers next asks =>
    have inside : node < graph.nodes.size := placed node (List.mem_cons_self ..)
    rcases asks.named id member with successor | outer
    · exact Nat.lt_trans (Graph.successor_lt successor) inside
    · exact placed id (List.mem_cons_of_mem _ outer)
  | _ =>
    apply placed
    simp only [Call.nodes, Goal.nodes, Continuation.nodes, List.mem_append, List.mem_cons]
      at member ⊢
    grind

structure Slots.Within (slots : Slots) (groups index : Nat) : Prop where
  starts : slots.starts.size = groups + 1
  stops : slots.stops.size = groups + 1
  started : ∀ group, slots.start group ≤ index
  stopped : ∀ group, slots.stop group ≤ index

namespace Slots

variable {slots : Slots} {groups group index : Nat}

theorem start_blank (groups group : Nat) : (blank groups).start group = unset := by
  unfold blank start
  rw [Array.getElem?_replicate]
  split <;> rfl

theorem stop_blank (groups group : Nat) : (blank groups).stop group = unset := by
  unfold blank stop
  rw [Array.getElem?_replicate]
  split <;> rfl

theorem within_blank (groups index : Nat) : (blank groups).Within groups index := by
  have behind : unset ≤ (index : Int) := by
    unfold unset
    omega
  refine ⟨Array.size_replicate, Array.size_replicate, ?_, ?_⟩
  · intro group
    rw [start_blank]
    exact behind
  · intro group
    rw [stop_blank]
    exact behind

theorem Within.later {further : Nat} (within : slots.Within groups index)
    (moved : index ≤ further) : slots.Within groups further where
  starts := within.starts
  stops := within.stops
  started group := Int.le_trans (within.started group) (Int.ofNat_le.mpr moved)
  stopped group := Int.le_trans (within.stopped group) (Int.ofNat_le.mpr moved)

theorem getD_setIfInBounds_le {values : Array Int} {value bound : Int}
    (small : ∀ other : Nat, values[other]?.getD unset ≤ bound) (fits : value ≤ bound)
    (other : Nat) :
    (values.setIfInBounds group value)[other]?.getD unset ≤ bound := by
  rw [Array.getElem?_setIfInBounds]
  split
  · split
    · exact fits
    · next same outside =>
      rw [← Array.getElem?_eq_none (Nat.not_lt.mp outside)]
      exact small group
  · exact small other

theorem Within.setStart {value : Nat} (within : slots.Within groups index)
    (inside : value ≤ index) : (slots.setStart group value).Within groups index where
  starts := Array.size_setIfInBounds.trans within.starts
  stops := within.stops
  started := getD_setIfInBounds_le within.started (Int.ofNat_le.mpr inside)
  stopped := within.stopped

theorem Within.setStop {value : Nat} (within : slots.Within groups index)
    (inside : value ≤ index) : (slots.setStop group value).Within groups index where
  starts := within.starts
  stops := Array.size_setIfInBounds.trans within.stops
  started := within.started
  stopped := getD_setIfInBounds_le within.stopped (Int.ofNat_le.mpr inside)

theorem ends_of_span {start stop : Nat} (held : slots.span group = some (start, stop)) :
    slots.start group = start ∧ slots.stop group = stop ∧ start ≤ stop := by
  simp only [Slots.span] at held
  split at held
  · simp only [Option.some.injEq, Prod.mk.injEq] at held
    obtain ⟨rfl, rfl⟩ := held
    omega
  · cases held

theorem Within.span {start stop : Nat} (within : slots.Within groups index)
    (held : slots.span group = some (start, stop)) : start ≤ stop ∧ stop ≤ index := by
  have stopped := within.stopped group
  obtain ⟨_, ended, ordered⟩ := ends_of_span held
  omega

theorem Within.span_beyond (within : slots.Within groups index) (beyond : groups < group) :
    slots.span group = none := by
  have outside : slots.starts.size ≤ group := by
    rw [within.starts]
    exact beyond
  have vacant : slots.start group = unset := by
    unfold start
    rw [Array.getElem?_eq_none outside]
    rfl
  simp [Slots.span, vacant, unset]

end Slots

def Call.Within (groups : Nat) (call : Call) : Prop :=
  call.registers.slots.Within groups call.index

theorem Node.Asks.within {text : Array Char} {window : Window} {node : Node} {groups index : Nat}
    {cont : Continuation} {registers : Registers} {next : Call}
    (asks : node.Asks text window index cont registers next)
    (within : registers.slots.Within groups index) : next.Within groups := by
  cases asks with
  | char => exact within.later (Nat.le_succ _)
  | backreference => exact within.later (Nat.le_add_right ..)
  | groupHead => exact within.setStart (Nat.le_refl _)
  | groupTail => exact within.setStop (Nat.le_refl _)
  | _ => exact within

theorem Call.Asks.within {graph : Graph} {text : Array Char} {window : Window} {call next : Call}
    {groups : Nat} (asks : call.Asks graph text window next) (within : call.Within groups) :
    next.Within groups := by
  cases asks with
  | visit asks => exact asks.within within
  | others restored | more _ _ restored | leave _ restored =>
    unfold Call.Within
    rw [restored.slots_eq]
    exact within
  | onward _ restored =>
    unfold Call.Within
    rw [restored.slots_eq]
    exact Slots.Within.later within (Nat.le_succ _)
  | choose | forced | attempt => exact within

def Node.marked? : Node → Option Nat
  | groupHead group _ | groupTail group _ => some group
  | _ => none

theorem Node.StandsFor.marked? {node : Node} {part : Expr} (stands : node.StandsFor part) :
    ∀ group ∈ node.marked?, part.groupIndex? = some group := by
  cases stands with
  | groupHead | groupTail => exact fun group named => named
  | _ => nofun

theorem Pattern.groups_expr (pattern : Pattern) :
    pattern.expr.groups = List.range' 1 pattern.groups :=
  (canonical_of_parse pattern.parsed).numbered

theorem Pattern.mem_groups_iff (pattern : Pattern) {group : Nat} :
    group ∈ pattern.expr.groups ↔ 1 ≤ group ∧ group ≤ pattern.groups := by
  rw [pattern.groups_expr, List.mem_range'_1]
  omega

theorem Pattern.nodup_groups (pattern : Pattern) : pattern.expr.groups.Nodup := by
  rw [pattern.groups_expr]
  exact List.nodup_range'

theorem Pattern.le_groups_of_marked (pattern : Pattern) {id group : Nat}
    (marked : group ∈ (pattern.graph.node id).marked?) : 1 ≤ group ∧ group ≤ pattern.groups := by
  rw [← pattern.mem_groups_iff]
  rw [pattern.lowered] at marked
  rcases Graph.node_ofExpr pattern.expr id with last | ⟨next, start⟩ | ⟨part, member, stands⟩
  · rw [last] at marked
    cases marked
  · rw [start] at marked
    cases marked
  · exact List.mem_filterMap.mpr ⟨part, member, stands.marked? group marked⟩

namespace Graph

variable {graph : Graph} {text : Array Char} {window : Window}

theorem Succeeds.within (rooted : ∃ first, graph.node graph.root = .start first) {groups : Nat}
    (call : Call) : graph.Succeeds text window call → call.Counted graph window →
      call.Within groups →
        (graph.answer text window call).2.slots.Within groups window.stop ∧
          ∃ stop : Nat, stop ≤ window.stop ∧
            (graph.answer text window call).2.matchStop = stop := by
  induction call using call_induction graph text window with
  | advance call ih =>
    intro succeeds counted within
    have onward : ∀ next ∈ (graph.step text window call).asked (graph.answer text window),
        next.Counted graph window ∧ next.Within groups := by
      intro next asked
      exact ⟨(step_counted rooted call counted).of_asked next asked,
        (asks_of_asked asked).within within⟩
    refine succeeds.elim ?_ ?_ ?_
    · rintro id index registers rfl last
      have inside : index ≤ window.stop := by
        rcases counted.2 with rfl | inside
        · obtain ⟨first, root⟩ := rooted
          rw [last] at root
          cases root
        · exact inside
      rw [answer_finished last]
      exact ⟨Slots.Within.later within inside, index, inside, rfl⟩
    · intro next asked further same
      rw [← same]
      exact ih next asked further (onward next asked).1 (onward next asked).2
    · rintro next index cont registers rfl inside asked further report
      obtain ⟨slots, stop, before, recorded⟩ :=
        ih _ asked further (onward _ asked).1 (onward _ asked).2
      rw [report]
      refine ⟨?_, stop, before, recorded⟩
      rw [Registers.succeed, recorded]
      exact (slots.setStart inside).setStop before

end Graph

theorem Matcher.firstCall_matcher (pattern : Pattern) (text : List Char) (start : Nat) :
    (pattern.matcher text).firstCall start =
      ⟨.visit pattern.graph.root, start, .done, .blank pattern.groups⟩ := by
  rw [firstCall, prepared_matcher]
  rfl

theorem Matcher.succeeds_searchFrom {matcher : Matcher} {start : Nat}
    (succeeded : (matcher.searchFrom start).1 = true) :
    matcher.pattern.graph.Succeeds matcher.text matcher.prepared.window
      (matcher.firstCall start) := by
  rw [searchFrom_eq_answer] at succeeded
  exact succeeded

theorem Matcher.registers_searchFrom {matcher : Matcher} {start : Nat}
    (succeeded : (matcher.searchFrom start).1 = true) :
    (matcher.searchFrom start).2.state.registers =
      (matcher.pattern.graph.answer matcher.text matcher.prepared.window
        (matcher.firstCall start)).2 := by
  change _ = (matcher.pattern.graph.search matcher.text start matcher.prepared).2.registers
  unfold searchFrom at succeeded ⊢
  split
  · next found => rw [found]
  · next failed =>
    rw [failed] at succeeded
    cases succeeded

theorem Matcher.charSpan_searchFrom_failed {matcher : Matcher} {start : Nat}
    (failed : (matcher.searchFrom start).1 = false) (group : Nat) :
    (matcher.searchFrom start).2.charSpan group = none := by
  unfold searchFrom at failed ⊢
  split
  · next found =>
    rw [found] at failed
    cases failed
  · rfl

theorem Matcher.text_searchFrom (matcher : Matcher) (start : Nat) :
    (matcher.searchFrom start).2.text = matcher.text := by
  unfold searchFrom
  split <;> rfl

theorem Matcher.within_firstCall (pattern : Pattern) (text : List Char) (start : Nat) :
    ((pattern.matcher text).firstCall start).Within pattern.groups := by
  rw [firstCall_matcher]
  exact Slots.within_blank ..

/-- The slots after a successful search are in order and inside the text. -/
theorem within_searchFrom {pattern : Pattern} {text : List Char} {start : Nat}
    (succeeded : ((pattern.matcher text).searchFrom start).1 = true) :
    ((pattern.matcher text).searchFrom start).2.state.registers.slots.Within pattern.groups
      text.length := by
  have within := ((Matcher.succeeds_searchFrom succeeded).within pattern.rooted _
    ((pattern.matcher text).counted_firstCall _ start)
    (Matcher.within_firstCall pattern text start)).1
  rw [Matcher.registers_searchFrom succeeded]
  rw [Matcher.prepared_matcher] at within
  exact within

theorem charSpan_searchFrom_le {pattern : Pattern} {text : List Char} {start group first last : Nat}
    (held : ((pattern.matcher text).searchFrom start).2.charSpan group = some (first, last)) :
    first ≤ last ∧ last ≤ text.length := by
  cases succeeded : ((pattern.matcher text).searchFrom start).1 with
  | false =>
    rw [Matcher.charSpan_searchFrom_failed succeeded] at held
    cases held
  | true =>
    rw [Matcher.charSpan] at held
    split at held
    · cases held
    · exact (within_searchFrom succeeded).span held

/-- Everything that a call reaches for is there: the nodes of its goal, the character at its
position, both slots of every group that it marks, and every text that it compares. -/
structure Call.InBounds (pattern : Pattern) (text : List Char) (window : Window) (call : Call) :
    Prop where
  nodes : ∀ id ∈ call.goal.nodes, id < pattern.graph.nodes.size
  index : ∀ id, call.goal = .visit id → (∀ next, pattern.graph.node id ≠ .start next) →
    call.index ≤ text.length
  character : ∀ id test next, call.goal = .visit id → pattern.graph.node id = .char test next →
    call.index < window.stop → call.index < text.length
  slots : call.registers.slots.starts.size = pattern.groups + 1 ∧
    call.registers.slots.stops.size = pattern.groups + 1
  marked : ∀ id group next, call.goal = .visit id →
    (pattern.graph.node id = .groupHead group next ∨
      pattern.graph.node id = .groupTail group next) →
    group < call.registers.slots.starts.size ∧ group < call.registers.slots.stops.size
  compared : ∀ id group next start stop, call.goal = .visit id →
    pattern.graph.node id = .backreference group next →
    call.registers.slots.span group = some (start, stop) →
    start ≤ stop ∧ stop ≤ call.index ∧
      (call.index + (stop - start) ≤ window.stop → call.index + (stop - start) ≤ text.length)

theorem Call.inBounds {pattern : Pattern} {text : List Char} {call : Call}
    (placed : call.Placed pattern.graph) (counted : call.Counted pattern.graph ⟨0, text.length⟩)
    (within : call.Within pattern.groups) : call.InBounds pattern text ⟨0, text.length⟩ where
  nodes id member := placed id (List.mem_append_left _ member)
  index id visits other := by
    obtain ⟨_, entered⟩ := counted
    rw [visits] at entered
    rcases entered with rfl | inside
    · obtain ⟨first, root⟩ := pattern.rooted
      exact absurd root (other first)
    · exact inside
  character _ _ _ _ _ before := before
  slots := ⟨within.starts, within.stops⟩
  marked id group next visits marks := by
    have named : group ∈ (pattern.graph.node id).marked? := by
      rcases marks with head | tail
      · rw [head]
        rfl
      · rw [tail]
        rfl
    have bounds := pattern.le_groups_of_marked named
    rw [within.starts, within.stops]
    omega
  compared id group next start stop visits found held :=
    ⟨(within.span held).1, (within.span held).2, fun fits => fits⟩

/-- For every pattern, text and start, no call of the search reaches for what is not there, be it
a node, a character, a slot or a stretch of the text. And whatever the search reports afterwards,
the table of offsets holds both of its ends, and the text can be cut there. -/
theorem searchFrom_inBounds (pattern : Pattern) (text : List Char) (start : Nat) :
    let matcher := pattern.matcher text
    let window := matcher.prepared.window
    (∀ call, pattern.graph.Reached matcher.text window (matcher.firstCall start) call →
        call.InBounds pattern text window) ∧
      ∀ group first last, (matcher.searchFrom start).2.charSpan group = some (first, last) →
        ∃ lower upper, (byteOffsets text)[first]? = some lower ∧
          (byteOffsets text)[last]? = some upper ∧
          (matcher.searchFrom start).2.byteSpan group = some (lower, upper) ∧
          Sliceable text lower upper := by
  intro matcher window
  constructor
  · intro call reached
    have whole : window = ⟨0, text.length⟩ := by
      change matcher.prepared.window = _
      rw [Matcher.prepared_matcher]
      rfl
    have placed : call.Placed pattern.graph := by
      apply reached.keeps fun _ _ asks => asks.placed
      intro id member
      rw [Matcher.firstCall_matcher, Call.nodes, Goal.nodes, Continuation.nodes,
        List.append_nil, List.mem_singleton] at member
      subst member
      rw [pattern.lowered]
      simp [Graph.ofExpr]
    have counted : call.Counted pattern.graph window :=
      reached.preserves (Graph.step_counted pattern.rooted)
        (matcher.counted_firstCall window start)
    have within : call.Within pattern.groups := by
      apply reached.keeps fun _ _ asks => asks.within
      rw [Matcher.firstCall_matcher]
      exact Slots.within_blank ..
    rw [whole] at counted ⊢
    exact Call.inBounds placed counted within
  · intro group first last held
    obtain ⟨ordered, inside⟩ := charSpan_searchFrom_le held
    refine ⟨byteLength (text.take first), byteLength (text.take last),
      getElem?_byteOffsets (by omega), getElem?_byteOffsets inside, ?_, sliceable_take ordered⟩
    have same : (matcher.searchFrom start).2.text = text.toArray := matcher.text_searchFrom start
    rw [Matcher.byteSpan, held]
    simp only [Option.map_some, Matcher.byteOffset, same]

end PatternSearch
