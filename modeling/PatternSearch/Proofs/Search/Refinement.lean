import PatternSearch.Matcher
import PatternSearch.Proofs.Search.Lowering

/-! A search finds the first outcome. The lowered graph, run with continuations and with slots
that are set and set back, reports exactly what the outcomes of the syntax tree say: the first
position from which there is an outcome, and the first outcome from there with its slots. It notes
that the end was reached if an attempt before that outcome asked for text behind the end. -/

namespace PatternSearch

open Attempt (outcome? startsBeyond)

theorem tryEach_done (attempts : List Attempt) (registers : Registers) :
    let reachedEnd := registers.reachedEnd || startsBeyond attempts
    tryEach (fun stop reached => (true, reached.stopAt stop)) attempts registers =
      match (attempts.filterMap outcome?).head? with
      | some (stop, slots) => (true, ((registers.withEnd reachedEnd).withSlots slots).stopAt stop)
      | none => (false, registers.withEnd reachedEnd) := by
  induction attempts generalizing registers with
  | nil =>
    simp only [startsBeyond, Bool.or_false]
    rfl
  | cons attempt attempts ih =>
    cases attempt with
    | beyond =>
      rw [List.filterMap_cons_none rfl, startsBeyond, Bool.or_true]
      exact ih registers.reachEnd
    | outcome stop slots =>
      simp only [List.filterMap_cons, outcome?, List.head?_cons, startsBeyond, Bool.or_false]
      rfl

namespace Expr

variable {expr : Expr} {text : Array Char} {start : Nat} {slots : Slots}

theorem firstOutcome?_beyond (expr : Expr) (beyond : text.size < start) :
    expr.firstOutcome? text start slots = none := by
  unfold firstOutcome?
  rw [show text.size + 1 - start = 0 by omega]
  rfl

theorem firstOutcome?_inside (expr : Expr) (inside : start ≤ text.size) :
    expr.firstOutcome? text start slots =
      match (expr.outcomes text start slots).head? with
      | some outcome => some (start, outcome)
      | none => expr.firstOutcome? text (start + 1) slots := by
  unfold firstOutcome?
  rw [show text.size + 1 - start = text.size + 1 - (start + 1) + 1 by omega,
    List.range'_succ, List.findSome?_cons]
  cases (expr.outcomes text start slots).head? <;> rfl

theorem firstOutcome?_or (expr : Expr) (inside : start ≤ text.size) :
    expr.firstOutcome? text start slots =
      ((expr.outcomes text start slots).head?.map (start, ·)).or
        (expr.firstOutcome? text (start + 1) slots) := by
  rw [firstOutcome?_inside expr inside]
  cases (expr.outcomes text start slots).head? <;> rfl

theorem firstOutcome?_eq_none :
    expr.firstOutcome? text start slots = none ↔
      ∀ index, start ≤ index → index ≤ text.size → expr.outcomes text index slots = [] := by
  simp only [firstOutcome?, List.findSome?_eq_none_iff, List.mem_range'_1, Option.map_eq_none_iff,
    List.head?_eq_none_iff]
  constructor
  · intro barren index after inside
    exact barren index ⟨after, by omega⟩
  · intro barren index between
    exact barren index between.1 (by omega)

theorem firstOutcome?_eq_some {index : Nat} {outcome : Outcome} (after : start ≤ index)
    (inside : index ≤ text.size) (head : (expr.outcomes text index slots).head? = some outcome)
    (barren : ∀ earlier, start ≤ earlier → earlier < index →
      expr.outcomes text earlier slots = []) :
    expr.firstOutcome? text start slots = some (index, outcome) := by
  induction ahead : index - start generalizing start with
  | zero =>
    have here : start = index := by omega
    subst here
    rw [firstOutcome?_inside expr inside, head]
  | succ ahead ih =>
    rw [firstOutcome?_inside expr (by omega), barren start (Nat.le_refl _) (by omega)]
    apply ih
    · omega
    · intro earlier behind before
      exact barren earlier (by omega) before
    · omega

theorem firstOutcome?_spec {index : Nat} {outcome : Outcome}
    (found : expr.firstOutcome? text start slots = some (index, outcome)) :
    start ≤ index ∧ index ≤ text.size ∧ outcome ∈ expr.outcomes text index slots ∧
      ∀ earlier, start ≤ earlier → earlier < index → expr.outcomes text earlier slots = [] := by
  induction left : text.size + 1 - start generalizing start with
  | zero =>
    rw [firstOutcome?_beyond expr (by omega)] at found
    cases found
  | succ left ih =>
    rw [firstOutcome?_inside expr (by omega)] at found
    cases head : (expr.outcomes text start slots).head? with
    | some first =>
      rw [head] at found
      cases found
      exact ⟨Nat.le_refl _, by omega, List.mem_of_head? head, by omega⟩
    | none =>
      rw [head] at found
      obtain ⟨after, inside, member, barren⟩ := ih found (by omega)
      refine ⟨by omega, inside, member, ?_⟩
      intro earlier behind before
      by_cases here : earlier = start
      · subst here
        exact List.head?_eq_none_iff.mp head
      · exact barren earlier (by omega) before

theorem firstOutcome?_head {index : Nat} {outcome : Outcome}
    (found : expr.firstOutcome? text start slots = some (index, outcome)) :
    (expr.outcomes text index slots).head? = some outcome := by
  obtain ⟨after, inside, member, barren⟩ := firstOutcome?_spec found
  cases first : (expr.outcomes text index slots).head? with
  | none =>
    rw [List.head?_eq_none_iff.mp first] at member
    cases member
  | some other =>
    rw [firstOutcome?_eq_some after inside first barren] at found
    cases found
    rfl

end Expr

namespace Graph

variable {graph : Graph} {text : Array Char} {next index : Nat} {registers : Registers}

theorem run_scan_eq_value {cont : Continuation} :
    graph.run text (whole text) (.scan next) index cont registers =
      (graph.step text (whole text) ⟨.scan next, index, cont, registers⟩).value
        (graph.answer text (whole text)) :=
  answer_eq_value ⟨.scan next, index, cont, registers⟩

theorem walk_last_done (last : graph.node 0 = .last) :
    graph.walk text 0 .done index registers = (true, registers.stopAt index) := by
  rw [walk_eq_value]
  simp only [step, last, Step.value_answer]

variable {expr : Expr}

theorem walk_expr (last : graph.node 0 = .last)
    (tries : graph.Tries text next 0 (expr.attempts text)) (registers : Registers)
    (inside : index ≤ text.size) :
    let reachedEnd := registers.reachedEnd || startsBeyond (expr.attempts text index registers.slots)
    graph.walk text next .done index registers =
      match (expr.outcomes text index registers.slots).head? with
      | some (stop, slots) => (true, ((registers.withEnd reachedEnd).withSlots slots).stopAt stop)
      | none => (false, registers.withEnd reachedEnd) := by
  have ended : graph.walk text 0 .done = fun stop reached => (true, reached.stopAt stop) := by
    funext stop reached
    exact walk_last_done last
  rw [tries index .done registers inside, ended, ← expr.outcomes_attempts]
  exact tryEach_done _ registers

def scanned (registers : Registers) (reachedEnd : Bool) :
    Option (Nat × Outcome) → Answer
  | some (start, stop, slots) =>
      (true, (((registers.withEnd reachedEnd).withSlots slots).stopAt stop).succeed start)
  | none => (false, registers.withEnd reachedEnd)

/-- A scan finds the first position with an outcome. The induction is on the positions that are
left: a failed attempt leaves the slots as they were for the next position. -/
theorem run_scan (last : graph.node 0 = .last)
    (tries : graph.Tries text next 0 (expr.attempts text)) (index : Nat) (registers : Registers) :
    graph.run text (whole text) (.scan next) index .done registers =
      scanned registers
        (registers.reachedEnd || startsBeyond (expr.attemptsFrom text index registers.slots))
        (expr.firstOutcome? text index registers.slots) := by
  induction left : text.size + 1 - index generalizing index registers with
  | zero =>
    have beyond : ¬index ≤ text.size := by omega
    rw [run_scan_eq_value, expr.firstOutcome?_beyond (by omega), expr.attemptsFrom_beyond (by omega),
      startsBeyond, Bool.or_true]
    simp only [step, if_neg beyond, Step.value_answer]
    rfl
  | succ left ih =>
    have inside : index ≤ text.size := by omega
    have walked := walk_expr last tries registers inside
    change graph.answer text (whole text) ⟨.visit next, index, .done, registers⟩ = _ at walked
    rw [run_scan_eq_value, expr.firstOutcome?_inside inside, expr.attemptsFrom_inside inside]
    simp only [step, if_pos inside, Step.value, walked]
    cases head : (expr.outcomes text index registers.slots).head? with
    | some outcome =>
      rw [← expr.outcomes_attempts] at head
      rw [Attempt.startsBeyond_append_of_outcome head]
      rfl
    | none =>
      rw [← expr.outcomes_attempts] at head
      have later := ih (index + 1) (registers.withEnd (registers.reachedEnd ||
        startsBeyond (expr.attempts text index registers.slots))) (by omega)
      rw [Attempt.startsBeyond_append_of_barren head, ← Bool.or_assoc]
      change graph.run text (whole text) (.scan next) (index + 1) .done _ = _
      rw [later, Registers.slots_withEnd]
      cases expr.firstOutcome? text (index + 1) registers.slots <;> rfl

theorem run_ofExpr (expr : Expr) (text : Array Char) (start : Nat) (registers : Registers) :
    (ofExpr expr).run text (whole text) (.visit (ofExpr expr).root) start .done registers =
      scanned registers
        (registers.reachedEnd || startsBeyond (expr.attemptsFrom text start registers.slots))
        (expr.firstOutcome? text start registers.slots) := by
  have last := last_ofExpr expr
  have tries : (ofExpr expr).Tries text (expr.lower #[.last] 0).2 0 (expr.attempts text) :=
    expr.tries_of_carries last (carries_ofExpr expr)
  have begins : (ofExpr expr).walk text (ofExpr expr).root .done start registers =
      (ofExpr expr).run text (whole text) (.scan (expr.lower #[.last] 0).2) start .done
        registers := by
    rw [walk_eq_value]
    simp only [step, root_ofExpr, Step.value_tail]
    rfl
  calc (ofExpr expr).run text (whole text) (.visit (ofExpr expr).root) start .done registers
      = (ofExpr expr).walk text (ofExpr expr).root .done start registers := rfl
    _ = (ofExpr expr).run text (whole text) (.scan (expr.lower #[.last] 0).2) start .done
          registers := begins
    _ = _ := run_scan last tries start registers

end Graph

theorem Matcher.prepared_matcher (pattern : Pattern) (text : List Char) :
    (pattern.matcher text).prepared = .blank pattern.groups text.length := by
  simp [prepared, reset, Pattern.matcher, SearchState.blank, SearchState.reset,
    SearchState.clearSlots, Registers.cleared, Registers.rewind, Registers.blank, Slots.clear,
    Slots.blank]

def Pattern.searched (pattern : Pattern) (text : List Char) (reachedEnd : Bool) :
    Option (Nat × Outcome) → Bool × Matcher
  | some (start, stop, slots) =>
      let kept := (slots.setStart 0 start).setStop 0 stop
      (true, ⟨pattern, text.toArray, ⟨⟨0, text.length⟩, ⟨kept, start, stop, reachedEnd⟩⟩⟩)
  | none =>
      let kept := Slots.blank pattern.groups
      (false, ⟨pattern, text.toArray, ⟨⟨0, text.length⟩, ⟨kept, unset, 0, reachedEnd⟩⟩⟩)

/-- The graph of a tree, run on blank registers over a whole text. -/
theorem Graph.search_ofExpr (expr : Expr) (groups : Nat) (text : List Char) (start : Nat) :
    (ofExpr expr).search text.toArray start (.blank groups text.length) =
      let answer := scanned (.blank groups)
        (startsBeyond (expr.attemptsFrom text.toArray start (.blank groups)))
        (expr.firstOutcome? text.toArray start (.blank groups))
      (answer.1, ⟨⟨0, text.length⟩, answer.2⟩) := by
  have ran := run_ofExpr expr text.toArray start (.blank groups)
  change (ofExpr expr).run text.toArray ⟨0, text.length⟩ _ start .done _ = _ at ran
  unfold search
  simp only [SearchState.blank, ran]
  rfl

theorem searchFrom_eq_searched (pattern : Pattern) (text : List Char) (start : Nat) :
    (pattern.matcher text).searchFrom start =
      pattern.searched text
        (startsBeyond (pattern.expr.attemptsFrom text.toArray start (.blank pattern.groups)))
        (pattern.expr.firstOutcome? text.toArray start (.blank pattern.groups)) := by
  have ran := Graph.search_ofExpr pattern.expr pattern.groups text start
  rw [← pattern.lowered] at ran
  unfold Matcher.searchFrom
  rw [Matcher.prepared_matcher]
  simp only [Pattern.matcher, ran]
  cases pattern.expr.firstOutcome? text.toArray start (.blank pattern.groups) <;> rfl

theorem searchFrom_eq (pattern : Pattern) (text : List Char) (start : Nat) :
    ∃ reachedEnd, (pattern.matcher text).searchFrom start =
      pattern.searched text reachedEnd
        (pattern.expr.firstOutcome? text.toArray start (.blank pattern.groups)) :=
  ⟨_, searchFrom_eq_searched pattern text start⟩

end PatternSearch
