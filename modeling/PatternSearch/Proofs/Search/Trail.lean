import PatternSearch.Proofs.Search.Asking
import PatternSearch.Proofs.Search.Lowering
import PatternSearch.Proofs.Semantics.Marks

/-! The trail of a successful search: the calls that succeed, each asked by the one before it, and
the marks that they make. A trail writes nothing but its marks. A walk that succeeds leads through
the nodes of an expression along a trail whose marks are those of a match of the expression. -/

namespace PatternSearch

open PatternSearch.Expr (Passes PassesAll)

namespace Graph

def marks (graph : Graph) (call : Call) : List Mark :=
  match call.goal with
  | .visit id =>
      match graph.node id with
      | .groupHead group _ => [.head group call.index]
      | .groupTail group _ => [.tail group call.index]
      | _ => []
  | _ => []

/-- From the first call to the last, every call succeeds and asks the next one. The marks are
those of all calls but the last. -/
inductive Trail (graph : Graph) (text : Array Char) (window : Window) :
    Call → List Mark → Call → Prop where
  | here {call : Call} (succeeds : graph.Succeeds text window call) :
      Trail graph text window call [] call
  | onward {call next last : Call} {marks : List Mark}
      (succeeds : graph.Succeeds text window call)
      (asked : next ∈ (graph.step text window call).asked (graph.answer text window))
      (rest : Trail graph text window next marks last) :
      Trail graph text window call (graph.marks call ++ marks) last

variable {graph : Graph} {text : Array Char} {window : Window} {call middle last : Call}
  {marks later : List Mark}

theorem Trail.succeeds_last (trail : Trail graph text window call marks last) :
    graph.Succeeds text window last := by
  induction trail with
  | here succeeds => exact succeeds
  | onward _ _ _ ih => exact ih

theorem Trail.trans (trail : Trail graph text window call marks middle)
    (further : Trail graph text window middle later last) :
    Trail graph text window call (marks ++ later) last := by
  induction trail with
  | here _ => exact further
  | onward succeeds asked _ ih =>
    rw [List.append_assoc]
    exact .onward succeeds asked (ih further)

theorem slots_of_asks {next : Call} (asks : call.Asks graph text window next) :
    next.registers.slots = call.registers.slots.replay (graph.marks call) := by
  cases asks with
  | @visit id index cont registers next asks =>
    unfold marks
    dsimp only
    cases found : graph.node id <;> rw [found] at asks <;> cases asks <;> rfl
  | choose | forced | attempt => rfl
  | others restored | more _ _ restored | leave _ restored | onward _ restored =>
    exact restored.slots_eq

theorem Trail.slots_eq (trail : Trail graph text window call marks last) :
    last.registers.slots = call.registers.slots.replay marks := by
  induction trail with
  | here _ => rfl
  | onward _ asked _ ih => rw [ih, slots_of_asks (asks_of_asked asked), Slots.replay_append]

structure HandsOver (graph : Graph) (text : Array Char) (window : Window) (call : Call)
    (marks : List Mark) (last : Call) : Prop where
  trail : Trail graph text window call marks last
  same : graph.answer text window last = graph.answer text window call

theorem HandsOver.here (succeeds : graph.Succeeds text window call) :
    HandsOver graph text window call [] call := ⟨.here succeeds, rfl⟩

theorem HandsOver.succeeds_last (handed : HandsOver graph text window call marks last) :
    graph.Succeeds text window last := handed.trail.succeeds_last

theorem HandsOver.trans (handed : HandsOver graph text window call marks middle)
    (further : HandsOver graph text window middle later last) :
    HandsOver graph text window call (marks ++ later) last :=
  ⟨handed.trail.trans further.trail, further.same.trans handed.same⟩

theorem Succeeds.handsOver (succeeds : graph.Succeeds text window call)
    (hands : (graph.step text window call).HandsOn) :
    ∃ next, call.Asks graph text window next ∧
      HandsOver graph text window call (graph.marks call) next := by
  obtain ⟨next, asked, same⟩ := succeeds.exists_asked hands
  have trail := Trail.onward succeeds asked (.here (succeeds.of_answer same))
  rw [List.append_nil] at trail
  exact ⟨next, asks_of_asked asked, trail, same⟩

section Walks

variable {id entry next index group count : Nat} {cont : Continuation} {registers : Registers}
  {node : Node} {repeated : Loop} {ids : List Nat}

theorem Succeeds.visit
    (succeeds : graph.Succeeds text window ⟨.visit id, index, cont, registers⟩)
    (found : graph.node id = node) (unfinished : node = .last → cont ≠ .done) :
    ∃ next, node.Asks text window index cont registers next ∧
      HandsOver graph text window ⟨.visit id, index, cont, registers⟩
        (graph.marks ⟨.visit id, index, cont, registers⟩) next := by
  subst found
  obtain ⟨next, asks, handed⟩ := succeeds.handsOver (step_visit_handsOn unfinished)
  cases asks with
  | visit asks => exact ⟨next, asks, handed⟩

/-- Every successful walk from `entry` leads to the node `next`, between positions and along marks
for which `passes` holds. -/
def Crosses (graph : Graph) (text : Array Char) (entry next : Nat)
    (passes : Nat → List Mark → Nat → Prop) : Prop :=
  ∀ index cont registers, index ≤ text.size →
    graph.Succeeds text (whole text) ⟨.visit entry, index, cont, registers⟩ →
      ∃ marks stop after, passes index marks stop ∧
        HandsOver graph text (whole text) ⟨.visit entry, index, cont, registers⟩ marks
          ⟨.visit next, stop, cont, after⟩

theorem crosses_char {test : Predicate} (found : graph.node id = .char test next) :
    graph.Crosses text id next (Passes text (.predicate test)) := by
  intro index cont registers inside succeeds
  obtain ⟨call, asks, handed⟩ := succeeds.visit found nofun
  simp only [Graph.marks, found] at handed
  cases asks with
  | char before accepted =>
    obtain ⟨c, there, accepts⟩ := (Option.any_eq_true ..).mp accepted
    exact ⟨[], index + 1, registers, .predicate there accepts, handed⟩

theorem crosses_atStart (found : graph.node id = .atStart next) :
    graph.Crosses text id next (Passes text .atStart) := by
  intro index cont registers inside succeeds
  obtain ⟨call, asks, handed⟩ := succeeds.visit found nofun
  simp only [Graph.marks, found] at handed
  cases asks with
  | atStart here =>
    subst here
    exact ⟨[], 0, registers, .atStart, handed⟩

theorem crosses_atEnd (found : graph.node id = .atEnd next) :
    graph.Crosses text id next (Passes text .atEnd) := by
  intro index cont registers inside succeeds
  obtain ⟨call, asks, handed⟩ := succeeds.visit found nofun
  simp only [Graph.marks, found] at handed
  cases asks with
  | atEnd here =>
    subst here
    exact ⟨[], text.size, registers, .atEnd, handed⟩

theorem crosses_backreference (found : graph.node id = .backreference group next) :
    graph.Crosses text id next (Passes text (.backreference group)) := by
  intro index cont registers inside succeeds
  obtain ⟨call, asks, handed⟩ := succeeds.visit found nofun
  simp only [Graph.marks, found] at handed
  cases asks with
  | backreference held fits repeats =>
    exact ⟨[], _, registers, .backreference (Nat.le_add_right ..) fits, handed⟩

theorem crosses_group {inner tail : Nat} {body : Expr}
    (head : graph.node id = .groupHead group inner)
    (crosses : graph.Crosses text inner tail (Passes text body))
    (found : graph.node tail = .groupTail group next) :
    graph.Crosses text id next (Passes text (.group group body)) := by
  intro index cont registers inside succeeds
  obtain ⟨call, asks, begun⟩ := succeeds.visit head nofun
  simp only [Graph.marks, head] at begun
  cases asks with
  | groupHead =>
    obtain ⟨marks, stop, after, passes, crossed⟩ :=
      crosses index cont (registers.setStart group index) inside begun.succeeds_last
    obtain ⟨call, asks, ended⟩ := crossed.succeeds_last.visit found nofun
    simp only [Graph.marks, found] at ended
    cases asks with
    | groupTail =>
      exact ⟨_, stop, after.setStop group stop, .group passes, begun.trans (crossed.trans ended)⟩

theorem crosses_nil : graph.Crosses text next next (PassesAll text []) :=
  fun index _ registers _ succeeds => ⟨[], index, registers, .nil, .here succeeds⟩

theorem crosses_cons {middle : Nat} {item : Expr} {items : List Expr}
    (head : graph.Crosses text entry middle (Passes text item))
    (tail : graph.Crosses text middle next (PassesAll text items)) :
    graph.Crosses text entry next (PassesAll text (item :: items)) := by
  intro index cont registers inside succeeds
  obtain ⟨first, between, after, passes, begun⟩ := head index cont registers inside succeeds
  obtain ⟨rest, stop, later, passesAll, ended⟩ :=
    tail between cont after (passes.forward inside).2 begun.succeeds_last
  exact ⟨first ++ rest, stop, later, .cons passes passesAll, begun.trans ended⟩

def ChoosesAmong (graph : Graph) (text : Array Char) (ids : List Nat) (branches : List Expr) :
    Prop :=
  ∀ index cont registers, index ≤ text.size →
    graph.Succeeds text (whole text) ⟨.choose ids, index, cont, registers⟩ →
      ∃ branch ∈ branches, ∃ marks stop after, Passes text branch index marks stop ∧
        HandsOver graph text (whole text) ⟨.choose ids, index, cont, registers⟩ marks
          ⟨.visit 0, stop, cont, after⟩

theorem choosesAmong_nil : graph.ChoosesAmong text [] [] := by
  intro index cont registers inside succeeds
  obtain ⟨next, asks, handed⟩ := succeeds.handsOver (step_choose_handsOn [])
  cases asks

theorem choosesAmong_cons {branch : Expr} {branches : List Expr}
    (first : graph.Crosses text id 0 (Passes text branch))
    (rest : graph.ChoosesAmong text ids branches) :
    graph.ChoosesAmong text (id :: ids) (branch :: branches) := by
  intro index cont registers inside succeeds
  obtain ⟨next, asks, handed⟩ := succeeds.handsOver (step_choose_handsOn (id :: ids))
  cases asks with
  | choose =>
    obtain ⟨marks, stop, after, passes, crossed⟩ :=
      first index cont registers inside handed.succeeds_last
    exact ⟨branch, List.mem_cons_self .., marks, stop, after, passes, handed.trans crossed⟩
  | others restored =>
    obtain ⟨other, offered, marks, stop, after, passes, crossed⟩ :=
      rest index cont _ inside handed.succeeds_last
    exact ⟨other, List.mem_cons_of_mem _ offered, marks, stop, after, passes,
      handed.trans crossed⟩

theorem crosses_branch {branches : List Expr} (last : graph.node 0 = .last)
    (found : graph.node id = .branch ids next) (chooses : graph.ChoosesAmong text ids branches) :
    graph.Crosses text id next (Passes text (.alternation branches)) := by
  intro index cont registers inside succeeds
  obtain ⟨call, asks, begun⟩ := succeeds.visit found nofun
  simp only [Graph.marks, found] at begun
  cases asks with
  | branch =>
    obtain ⟨branch, offered, marks, stop, after, passes, crossed⟩ :=
      chooses index (.resume next cont) registers inside begun.succeeds_last
    obtain ⟨call, asks, ended⟩ := crossed.succeeds_last.visit last nofun
    simp only [Graph.marks, last] at ended
    cases asks with
    | resume =>
      have handed := begun.trans (crossed.trans ended)
      rw [List.nil_append, List.append_nil] at handed
      exact ⟨marks, stop, after, .alternation offered passes, handed⟩

variable {body : Expr}

theorem crosses_iteration (last : graph.node 0 = .last)
    (crosses : graph.Crosses text repeated.body 0 (Passes text body)) (inside : index ≤ text.size)
    (succeeds : graph.Succeeds text (whole text)
      ⟨.visit repeated.body, index, .loop repeated count index cont, registers⟩) :
    ∃ marks stop after, Passes text body index marks stop ∧
      ¬(repeated.quantifier.min < count ∧ stop = index) ∧
        HandsOver graph text (whole text)
          ⟨.visit repeated.body, index, .loop repeated count index cont, registers⟩ marks
          ⟨.iterate repeated count, stop, cont, after⟩ := by
  obtain ⟨marks, stop, after, passes, crossed⟩ := crosses index _ registers inside succeeds
  obtain ⟨call, asks, ended⟩ := crossed.succeeds_last.visit last nofun
  simp only [Graph.marks, last] at ended
  cases asks with
  | again fresh =>
    have handed := crossed.trans ended
    rw [List.append_nil] at handed
    exact ⟨marks, stop, after, passes, fresh, handed⟩

theorem asks_of_iterate {next : Call}
    (asks : Call.Asks graph text window ⟨.iterate repeated count, index, cont, registers⟩ next) :
    (repeated.quantifier.min ≤ count ∧ ∃ after, next = ⟨.visit repeated.next, index, cont, after⟩) ∨
      (count < repeated.quantifier.min ∨ repeated.quantifier.allowsMore count = true) ∧
        ∃ after, next =
          ⟨.visit repeated.body, index, .loop repeated (count + 1) index cont, after⟩ := by
  cases asks with
  | leave enough _ => exact .inl ⟨Nat.not_lt.mp enough, _, rfl⟩
  | forced few => exact .inr ⟨.inl few, _, rfl⟩
  | more _ allowed _ => exact .inr ⟨.inr allowed, _, rfl⟩

/-- What is left of a loop after `count` iterations: so many more of them, and then the node
behind the loop. The recursion is that of the loop: forced iterations run out, free ones move. -/
theorem crosses_iterate (last : graph.node 0 = .last)
    (crosses : graph.Crosses text repeated.body 0 (Passes text body))
    (ordered : ∀ max ∈ repeated.quantifier.max, repeated.quantifier.min ≤ max)
    (count index : Nat) (registers : Registers) (inside : index ≤ text.size)
    (counted : ∀ max ∈ repeated.quantifier.max, count ≤ max)
    (succeeds : graph.Succeeds text (whole text)
      ⟨.iterate repeated count, index, cont, registers⟩) :
    ∃ more marks stop after, repeated.quantifier.min ≤ count + more ∧
      (∀ max ∈ repeated.quantifier.max, count + more ≤ max) ∧
        PassesAll text (List.replicate more body) index marks stop ∧
          HandsOver graph text (whole text) ⟨.iterate repeated count, index, cont, registers⟩ marks
            ⟨.visit repeated.next, stop, cont, after⟩ := by
  obtain ⟨next, asks, handed⟩ := succeeds.handsOver (step_iterate_handsOn repeated count)
  rcases asks_of_iterate asks with ⟨enough, after, rfl⟩ | ⟨allowed, after, rfl⟩
  · exact ⟨0, [], index, after, enough, counted, .nil, handed⟩
  · obtain ⟨first, middle, between, passes, fresh, iterated⟩ :=
      crosses_iteration last crosses inside handed.succeeds_last
    have forward := passes.forward inside
    have fits : ∀ max ∈ repeated.quantifier.max, count + 1 ≤ max := by
      rcases allowed with few | allowsMore
      · exact fun max given => Nat.le_trans few (ordered max given)
      · exact Quantifier.allowsMore_iff.mp allowsMore
    obtain ⟨more, rest, stop, after, enough, bounded, passesAll, ended⟩ :=
      crosses_iterate last crosses ordered (count + 1) middle between forward.2 fits
        iterated.succeeds_last
    rw [Nat.add_assoc, Nat.add_comm 1] at enough
    simp only [Nat.add_assoc, Nat.add_comm 1] at bounded
    exact ⟨more + 1, first ++ rest, stop, after, enough, bounded, .cons passes passesAll,
      handed.trans (iterated.trans ended)⟩
termination_by (repeated.quantifier.min - count, text.size - index)
decreasing_by
  by_cases few : count < repeated.quantifier.min
  · exact .left _ _ (by omega)
  · rw [show repeated.quantifier.min - (count + 1) = repeated.quantifier.min - count by omega]
    exact .right _ (by omega)

theorem crosses_loop (last : graph.node 0 = .last) (found : graph.node id = .loop repeated)
    (crosses : graph.Crosses text repeated.body 0 (Passes text body))
    (ordered : ∀ max ∈ repeated.quantifier.max, repeated.quantifier.min ≤ max) :
    graph.Crosses text id repeated.next (Passes text (.repetition body repeated.quantifier)) := by
  intro index cont registers inside succeeds
  obtain ⟨call, asks, begun⟩ := succeeds.visit found nofun
  simp only [Graph.marks, found] at begun
  cases asks with
  | loop =>
    obtain ⟨count, marks, stop, after, enough, allowed, passesAll, ended⟩ :=
      crosses_iterate last crosses ordered 0 index registers inside (by simp) begun.succeeds_last
    rw [Nat.zero_add] at enough
    simp only [Nat.zero_add] at allowed
    exact ⟨marks, stop, after, .repetition enough allowed passesAll, begun.trans ended⟩

end Walks

end Graph

end PatternSearch
