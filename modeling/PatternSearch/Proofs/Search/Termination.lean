import PatternSearch.Matcher
import PatternSearch.Parse.Repetition
import PatternSearch.Proofs.Search.Calls

/-! Every search ends, and its iteration counters stay small. A call leaves less text to the
calls that it asks, or as much text and less to do at the same position: the load of a call
adds up its goal and all that waits for it, where a loop counts its body once for every
iteration that is still forced and a loop that has not moved beyond its minimum weighs
nothing. A counter goes up without progress in the text only up to the minimum of its loop,
so it stays below the minimum and the length of the text. -/

namespace PatternSearch

namespace Call

def ahead (window : Window) (call : Call) : Nat := window.stop + 1 - call.index

/-- What the call can still do at its position: its goal and all that waits for it. -/
def load (graph : Graph) (call : Call) : Nat :=
  call.goal.weight graph + call.cont.weight graph call.index

def Lighter (graph : Graph) (window : Window) (next call : Call) : Prop :=
  Prod.Lex (· < ·) (· < ·) (next.ahead window, next.load graph)
    (call.ahead window, call.load graph)

theorem lighter_wellFounded (graph : Graph) (window : Window) :
    WellFounded (Lighter graph window) :=
  InvImage.wf (fun call : Call => (call.ahead window, call.load graph))
    (Prod.lex Nat.lt_wfRel Nat.lt_wfRel).wf

variable {graph : Graph} {window : Window} {next call : Call}

theorem Lighter.of_index (inside : call.index ≤ window.stop) (moved : call.index < next.index) :
    Lighter graph window next call :=
  .left _ _ (by unfold ahead; omega)

theorem Lighter.of_load (same : next.index = call.index)
    (less : next.load graph < call.load graph) : Lighter graph window next call := by
  unfold Lighter ahead
  rw [same]
  exact .right _ less

theorem Lighter.of_goal {goal other : Goal} {index : Nat} {cont : Continuation}
    {registers after : Registers} (less : goal.weight graph < other.weight graph) :
    Lighter graph window ⟨goal, index, cont, after⟩ ⟨other, index, cont, registers⟩ := by
  apply of_load
  · rfl
  · simp only [load]
    omega

end Call

namespace Graph

open Call

variable {graph : Graph} {text : Array Char} {window : Window} {index count : Nat}
  {cont : Continuation} {registers : Registers}

theorem step_last_lighter {id : Nat} (found : graph.node id = .last) :
    (graph.step text window ⟨.visit id, index, cont, registers⟩).All
      (Lighter graph window · ⟨.visit id, index, cont, registers⟩) := by
  simp only [step, found]
  cases cont with
  | done => trivial
  | resume next parent =>
    simp only [Step.all_tail]
    apply Lighter.of_load
    · rfl
    · simp only [load, Goal.weight, Continuation.weight]
      omega
  | loop repeated count start parent =>
    dsimp only
    split
    · trivial
    · next fresh =>
      rw [Step.all_tail]
      apply Lighter.of_load
      · rfl
      · simp only [load, Goal.weight, Continuation.weight, if_neg fresh]
        omega

theorem step_visit_lighter (id : Nat) :
    (graph.step text window ⟨.visit id, index, cont, registers⟩).All
      (Lighter graph window · ⟨.visit id, index, cont, registers⟩) := by
  cases found : graph.node id with
  | last => exact step_last_lighter found
  | start next =>
    simp only [step, found, Step.all_tail]
    apply Lighter.of_goal
    simp only [Goal.weight, weight_start found]
    omega
  | char test next =>
    simp only [step, found]
    split
    · next inside =>
      split
      · rw [Step.all_tail]
        exact Lighter.of_index (Nat.le_of_lt inside) (Nat.lt_succ_self _)
      · trivial
    · trivial
  | atStart next =>
    simp only [step, found]
    split
    · rw [Step.all_tail]
      apply Lighter.of_goal
      simp only [Goal.weight, weight_atStart found]
      omega
    · trivial
  | atEnd next =>
    simp only [step, found]
    split
    · rw [Step.all_tail]
      apply Lighter.of_goal
      simp only [Goal.weight, weight_atEnd found]
      omega
    · trivial
  | loop repeated =>
    simp only [step, found, Step.all_tail]
    apply Lighter.of_goal
    simp only [Goal.weight, weight_loop found]
    omega
  | groupHead group next =>
    simp only [step, found, Step.all_orElse, Step.all_answer, implies_true, and_true]
    apply Lighter.of_goal
    simp only [Goal.weight, weight_groupHead found]
    omega
  | groupTail group next =>
    simp only [step, found, Step.all_orElse, Step.all_answer, implies_true, and_true]
    apply Lighter.of_goal
    simp only [Goal.weight, weight_groupTail found]
    omega
  | branch alternatives next =>
    simp only [step, found, Step.all_tail]
    apply Lighter.of_load
    · rfl
    · simp only [load, Goal.weight, Continuation.weight, weight_branch found]
      omega
  | backreference group next =>
    simp only [step, found]
    split
    · trivial
    · next start stop _ =>
      split
      · trivial
      · next inside =>
        split
        · rw [Step.all_tail]
          rcases Nat.eq_zero_or_pos (stop - start) with still | moves
          · rw [still, Nat.add_zero]
            apply Lighter.of_goal
            simp only [Goal.weight, weight_backreference found]
            omega
          · apply Lighter.of_index
            · simp only
              omega
            · simp only
              omega
        · trivial

/-- One more iteration weighs less than the loop that starts it, whether it is forced or,
beyond the minimum, weighs nothing until it moves. -/
theorem again_lighter {repeated : Loop} {after : Registers} :
    Lighter graph window
      ⟨.visit repeated.body, index, .loop repeated (count + 1) index cont, after⟩
      ⟨.iterate repeated count, index, cont, registers⟩ := by
  apply Lighter.of_load
  · rfl
  · simp only [load, Goal.weight, Continuation.weight]
    by_cases forced : count < repeated.quantifier.min
    · have lighter := graph.loopWeight_forced forced
      rw [if_neg (by omega)]
      omega
    · have lighter := graph.weight_body_lt_loopWeight repeated count
      rw [if_pos ⟨by omega, trivial⟩]
      omega

theorem leave_lighter {repeated : Loop} {after : Registers} :
    Lighter graph window ⟨.visit repeated.next, index, cont, after⟩
      ⟨.iterate repeated count, index, cont, registers⟩ :=
  Lighter.of_goal (graph.weight_next_lt_loopWeight repeated count)

theorem step_iterate_lighter (repeated : Loop) :
    (graph.step text window ⟨.iterate repeated count, index, cont, registers⟩).All
      (Lighter graph window · ⟨.iterate repeated count, index, cont, registers⟩) := by
  simp only [step]
  split
  · rw [Step.all_tail]
    exact again_lighter
  · split
    · split
      · simp only [Step.all_orElse, Step.all_tail]
        exact ⟨again_lighter, fun after => leave_lighter⟩
      · rw [Step.all_tail]
        exact leave_lighter
    · rw [Step.all_orElse]
      refine ⟨leave_lighter, fun after => ?_⟩
      split
      · rw [Step.all_tail]
        exact again_lighter
      · trivial

theorem step_lighter (call : Call) :
    (graph.step text window call).All (Lighter graph window · call) := by
  obtain ⟨goal, index, cont, registers⟩ := call
  cases goal with
  | visit id => exact step_visit_lighter id
  | iterate repeated count => exact step_iterate_lighter repeated
  | choose ids =>
    cases ids with
    | nil => trivial
    | cons id ids =>
      simp only [step, Step.all_orElse, Step.all_tail]
      constructor
      · apply Lighter.of_goal
        simp only [Goal.weight, choiceWeight, List.foldr_cons]
        omega
      · intro after
        apply Lighter.of_goal
        simp only [Goal.weight, choiceWeight, List.foldr_cons]
        omega
  | scan next =>
    simp only [step]
    split
    · next inside =>
      constructor
      · exact Lighter.of_goal (Nat.lt_succ_self _)
      · rintro ⟨succeeded, after⟩
        cases succeeded with
        | true => trivial
        | false =>
          rw [Step.all_tail]
          exact Lighter.of_index inside (Nat.lt_succ_self _)
    · trivial

/-- What holds of a call as soon as it holds of the calls that it asks holds of every call. -/
theorem call_induction (graph : Graph) (text : Array Char) (window : Window)
    {motive : Call → Prop}
    (advance : ∀ call, (∀ next ∈ (graph.step text window call).asked (graph.answer text window),
      motive next) → motive call)
    (call : Call) : motive call := by
  induction call using (lighter_wellFounded graph window).induction with
  | _ call ih =>
    have lighter : (graph.step text window call).All (Lighter graph window · call) :=
      step_lighter call
    exact advance call fun next member => ih next (lighter.of_asked next member)

/-- The search with its calls nested at most `depth` deep. It has no answer where it would
have to go deeper. -/
def answerWithin (graph : Graph) (text : Array Char) (window : Window) :
    Nat → Call → Option Answer
  | 0, _ => none
  | depth + 1, call => (graph.step text window call).value? (graph.answerWithin text window depth)

def Settled (graph : Graph) (text : Array Char) (window : Window) (enough : Nat)
    (call : Call) : Prop :=
  ∀ depth, enough ≤ depth →
    graph.answerWithin text window depth call = some (graph.answer text window call)

theorem Settled.deeper {enough more : Nat} {call : Call}
    (settled : Settled graph text window enough call) (deeper : enough ≤ more) :
    Settled graph text window more call :=
  fun depth bound => settled depth (Nat.le_trans deeper bound)

theorem settled_all {calls : List Call}
    (each : ∀ call ∈ calls, ∃ enough, Settled graph text window enough call) :
    ∃ enough, ∀ call ∈ calls, Settled graph text window enough call := by
  induction calls with
  | nil => exact ⟨0, by simp⟩
  | cons call calls ih =>
    obtain ⟨first, atFirst⟩ := each call (List.mem_cons_self ..)
    obtain ⟨rest, atRest⟩ := ih fun later member => each later (List.mem_cons_of_mem _ member)
    refine ⟨max first rest, ?_⟩
    intro later member
    rcases List.mem_cons.mp member with rfl | member
    · exact atFirst.deeper (Nat.le_max_left ..)
    · exact (atRest later member).deeper (Nat.le_max_right ..)

theorem Settled.of_asked {enough : Nat} {call : Call}
    (asked : ∀ next ∈ (graph.step text window call).asked (graph.answer text window),
      Settled graph text window enough next) :
    Settled graph text window (enough + 1) call := by
  intro depth bound
  obtain ⟨rest, rfl⟩ : ∃ rest, depth = rest + 1 := ⟨depth - 1, by omega⟩
  rw [answerWithin, answer_eq_value]
  apply Step.value?_eq_value
  intro next member
  exact asked next member rest (by omega)

theorem settles (graph : Graph) (text : Array Char) (window : Window) (call : Call) :
    ∃ enough, Settled graph text window enough call := by
  induction call using call_induction graph text window with
  | advance call each =>
    obtain ⟨enough, asked⟩ := settled_all each
    exact ⟨enough + 1, .of_asked asked⟩

end Graph

/-- The loops that are under way when a walk stands at `index`: each counts at most its
minimum and one iteration for every position up to where its current iteration began. -/
def Continuation.Counted : Nat → Continuation → Prop
  | _, done => True
  | index, resume _ parent => parent.Counted index
  | index, loop repeated count start parent =>
      count ≤ repeated.quantifier.min + start + 1 ∧ start ≤ index ∧ parent.Counted start

theorem Continuation.Counted.later {cont : Continuation} {index later : Nat}
    (counted : cont.Counted index) (moved : index ≤ later) : cont.Counted later := by
  induction cont generalizing index with
  | done => trivial
  | resume next parent ih => exact ih counted moved
  | loop repeated count start parent ih =>
    exact ⟨counted.1, Nat.le_trans counted.2.1 moved, counted.2.2⟩

def Call.Counted (graph : Graph) (window : Window) (call : Call) : Prop :=
  call.cont.Counted call.index ∧
    match call.goal with
    | .visit id => id = graph.root ∨ call.index ≤ window.stop
    | .choose _ => call.index ≤ window.stop
    | .iterate repeated count =>
        call.index ≤ window.stop ∧ count ≤ repeated.quantifier.min + call.index
    | .scan _ => True

namespace Graph

variable {graph : Graph} {text : Array Char} {window : Window} {index count : Nat}
  {cont : Continuation} {registers : Registers}

theorem step_last_counted {id : Nat} (found : graph.node id = .last)
    (counted : cont.Counted index) (inside : index ≤ window.stop) :
    (graph.step text window ⟨.visit id, index, cont, registers⟩).All
      (Call.Counted graph window) := by
  simp only [step, found]
  cases cont with
  | done => trivial
  | resume next parent =>
    simp only [Step.all_tail]
    exact ⟨counted, .inr inside⟩
  | loop repeated count start parent =>
    obtain ⟨few, begun, outer⟩ := counted
    dsimp only
    split
    · trivial
    · next fresh =>
      rw [Step.all_tail]
      have bound : count ≤ repeated.quantifier.min + index := by omega
      exact ⟨outer.later begun, inside, bound⟩

theorem step_visit_counted (rooted : ∃ first, graph.node graph.root = .start first) {id : Nat}
    (counted : Call.Counted graph window ⟨.visit id, index, cont, registers⟩) :
    (graph.step text window ⟨.visit id, index, cont, registers⟩).All
      (Call.Counted graph window) := by
  obtain ⟨outer, entered⟩ := counted
  rcases entered with rfl | inside
  · obtain ⟨first, found⟩ := rooted
    simp only [step, found, Step.all_tail]
    exact ⟨outer, trivial⟩
  cases found : graph.node id with
  | last => exact step_last_counted found outer inside
  | start next =>
    simp only [step, found, Step.all_tail]
    exact ⟨outer, trivial⟩
  | char test next =>
    simp only [step, found]
    split
    · next before =>
      split
      · rw [Step.all_tail]
        exact ⟨outer.later (Nat.le_succ _), .inr before⟩
      · trivial
    · trivial
  | atStart next =>
    simp only [step, found]
    split
    · exact Step.all_tail.mpr ⟨outer, .inr inside⟩
    · trivial
  | atEnd next =>
    simp only [step, found]
    split
    · exact Step.all_tail.mpr ⟨outer, .inr inside⟩
    · trivial
  | loop repeated =>
    simp only [step, found, Step.all_tail]
    exact ⟨outer, inside, Nat.zero_le _⟩
  | groupHead group next =>
    simp only [step, found, Step.all_orElse, Step.all_answer, implies_true, and_true]
    exact ⟨outer, .inr inside⟩
  | groupTail group next =>
    simp only [step, found, Step.all_orElse, Step.all_answer, implies_true, and_true]
    exact ⟨outer, .inr inside⟩
  | branch alternatives next =>
    simp only [step, found, Step.all_tail]
    exact ⟨outer, inside⟩
  | backreference group next =>
    simp only [step, found]
    split
    · trivial
    · split
      · trivial
      · next fits =>
        split
        · rw [Step.all_tail]
          exact ⟨outer.later (Nat.le_add_right _ _), .inr (by simpa using fits)⟩
        · trivial

theorem again_counted {repeated : Loop} (outer : cont.Counted index)
    (inside : index ≤ window.stop) (few : count ≤ repeated.quantifier.min + index) :
    Call.Counted graph window
      ⟨.visit repeated.body, index, .loop repeated (count + 1) index cont, registers⟩ :=
  ⟨⟨by omega, Nat.le_refl _, outer⟩, .inr inside⟩

theorem step_iterate_counted {repeated : Loop}
    (counted : Call.Counted graph window ⟨.iterate repeated count, index, cont, registers⟩) :
    (graph.step text window ⟨.iterate repeated count, index, cont, registers⟩).All
      (Call.Counted graph window) := by
  obtain ⟨outer, inside, few⟩ := counted
  have left : ∀ after : Registers,
      Call.Counted graph window ⟨.visit repeated.next, index, cont, after⟩ :=
    fun after => ⟨outer, .inr inside⟩
  simp only [step]
  split
  · exact Step.all_tail.mpr (again_counted outer inside few)
  · split
    · split
      · simp only [Step.all_orElse, Step.all_tail]
        exact ⟨again_counted outer inside few, left⟩
      · exact Step.all_tail.mpr (left registers)
    · rw [Step.all_orElse]
      refine ⟨left registers, fun after => ?_⟩
      split
      · exact Step.all_tail.mpr (again_counted outer inside few)
      · trivial

/-- An iteration beyond the minimum has moved before the next one is counted. -/
theorem step_counted (rooted : ∃ first, graph.node graph.root = .start first) (call : Call)
    (counted : call.Counted graph window) :
    (graph.step text window call).All (Call.Counted graph window) := by
  obtain ⟨goal, index, cont, registers⟩ := call
  cases goal with
  | visit id => exact step_visit_counted rooted counted
  | iterate repeated count => exact step_iterate_counted counted
  | choose ids =>
    obtain ⟨outer, inside⟩ := counted
    cases ids with
    | nil => trivial
    | cons id ids =>
      simp only [step, Step.all_orElse, Step.all_tail]
      exact ⟨⟨outer, .inr inside⟩, fun after => ⟨outer, inside⟩⟩
  | scan next =>
    obtain ⟨outer, _⟩ := counted
    simp only [step]
    split
    · next inside =>
      refine ⟨⟨outer, .inr inside⟩, ?_⟩
      rintro ⟨succeeded, after⟩
      cases succeeded with
      | true => trivial
      | false => exact Step.all_tail.mpr ⟨outer.later (Nat.le_succ _), trivial⟩
    · trivial

end Graph

def Matcher.firstCall (matcher : Matcher) (start : Nat) : Call :=
  ⟨.visit matcher.pattern.graph.root, start, .done, matcher.prepared.registers⟩

theorem Graph.node_root_ofExpr (expr : Expr) :
    ∃ first, (Graph.ofExpr expr).node (Graph.ofExpr expr).root = .start first := by
  refine ⟨(expr.lower #[.last] 0).2, ?_⟩
  simp [Graph.node, Graph.ofExpr]

theorem Pattern.rooted (pattern : Pattern) :
    ∃ first, pattern.graph.node pattern.graph.root = .start first := by
  rw [pattern.lowered]
  exact Graph.node_root_ofExpr pattern.expr

theorem Matcher.counted_firstCall (matcher : Matcher) (window : Window) (start : Nat) :
    (matcher.firstCall start).Counted matcher.pattern.graph window :=
  ⟨trivial, .inl rfl⟩

theorem Matcher.searchFrom_eq_answer (matcher : Matcher) (start : Nat) :
    (matcher.searchFrom start).1 =
      (matcher.pattern.graph.answer matcher.text matcher.prepared.window
        (matcher.firstCall start)).1 := by
  unfold Matcher.searchFrom Graph.search Graph.answer Matcher.firstCall
  rcases matcher.pattern.graph.run _ _ _ _ _ _ with ⟨_ | _, registers⟩ <;> rfl

/-- For every text and start, the search ends with an answer that a bounded search gives as
soon as it is deep enough, as does every call that it makes. The counter of every iteration
that it enters is at most the minimum of the loop and the length of the text, and so the next
iteration can still be counted below the limit of the bounds. -/
theorem searchFrom_terminates (pattern : Pattern) (text : List Char) (start : Nat) :
    let matcher := pattern.matcher text
    let window := matcher.prepared.window
    let first := matcher.firstCall start
    (∃ enough, ∃ registers, ∀ depth, enough ≤ depth →
        pattern.graph.answerWithin matcher.text window depth first =
          some ((matcher.searchFrom start).1, registers)) ∧
      ∀ call, pattern.graph.Reached matcher.text window first call →
        (∃ enough result, ∀ depth, enough ≤ depth →
          pattern.graph.answerWithin matcher.text window depth call = some result) ∧
        ∀ repeated count, call.goal = .iterate repeated count →
          count ≤ repeated.quantifier.min + text.length ∧
            (repeated.quantifier.min + text.length + 1 < boundLimit → count + 1 < boundLimit) := by
  intro matcher window first
  constructor
  · obtain ⟨enough, settled⟩ := pattern.graph.settles matcher.text window first
    refine ⟨enough, (pattern.graph.answer matcher.text window first).2, ?_⟩
    intro depth bound
    rw [settled depth bound, matcher.searchFrom_eq_answer]
    rfl
  · intro call reached
    constructor
    · obtain ⟨enough, settled⟩ := pattern.graph.settles matcher.text window call
      exact ⟨enough, _, settled⟩
    · have rooted : ∃ next, pattern.graph.node pattern.graph.root = .start next := by
        rw [pattern.lowered]
        exact Graph.node_root_ofExpr pattern.expr
      have counted : call.Counted pattern.graph window :=
        reached.preserves (Graph.step_counted rooted) (matcher.counted_firstCall window start)
      intro repeated count iterates
      obtain ⟨_, entered⟩ := counted
      rw [iterates] at entered
      obtain ⟨inside, few⟩ := entered
      have stop : window.stop = text.length := by
        simp [window, matcher, Matcher.prepared, Matcher.reset, Pattern.matcher,
          SearchState.reset, SearchState.clearSlots]
      omega

end PatternSearch
