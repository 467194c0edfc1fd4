import PatternSearch.Proofs.Search.TryEach

/-! What a walk along single nodes of a graph tries. Between two nodes a walk tries attempts and
goes on behind them from each outcome; the lemmas say which attempts these are for every kind
of node, given what the subgraphs that the node names try. -/

namespace PatternSearch

namespace Graph

abbrev whole (text : Array Char) : Window := ⟨0, text.size⟩

def walk (graph : Graph) (text : Array Char) (id : Nat) (cont : Continuation) (index : Nat)
    (registers : Registers) : Answer :=
  graph.run text (whole text) (.visit id) index cont registers

/-- Between two nodes a walk tries attempts and goes on from each outcome behind them. -/
def Tries (graph : Graph) (text : Array Char) (entry next : Nat)
    (attempts : Nat → Slots → List Attempt) : Prop :=
  ∀ index cont registers, index ≤ text.size →
    graph.walk text entry cont index registers =
      tryEach (graph.walk text next cont) (attempts index registers.slots) registers

def Inside (text : Array Char) (attempts : Nat → Slots → List Attempt) : Prop :=
  ∀ index slots, index ≤ text.size → ∀ stop after, .outcome stop after ∈ attempts index slots →
    index ≤ stop ∧ stop ≤ text.size

variable {graph : Graph} {text : Array Char} {id entry middle next index group : Nat}
  {cont : Continuation} {registers : Registers}

theorem walk_clean : Answer.Clean registers (graph.walk text id cont index registers) :=
  answer_clean ⟨.visit id, index, cont, registers⟩

theorem walk_eq_value :
    graph.walk text id cont index registers =
      (graph.step text (whole text) ⟨.visit id, index, cont, registers⟩).value
        (graph.answer text (whole text)) :=
  answer_eq_value ⟨.visit id, index, cont, registers⟩

theorem slots_of_walk_failed {after : Registers}
    (failed : graph.walk text id cont index registers = (false, after)) :
    after.slots = registers.slots := by
  rcases run_failed failed with rfl | rfl <;> rfl

theorem run_iterate_eq_value {repeated : Loop} {count : Nat} :
    graph.run text (whole text) (.iterate repeated count) index cont registers =
      (graph.step text (whole text) ⟨.iterate repeated count, index, cont, registers⟩).value
        (graph.answer text (whole text)) :=
  answer_eq_value ⟨.iterate repeated count, index, cont, registers⟩

theorem tryEach_walk_here :
    tryEach (graph.walk text id cont) [.outcome index registers.slots] registers =
      graph.walk text id cont index registers :=
  tryEach_here walk_clean

theorem tries_char {test : Predicate} (found : graph.node id = .char test next) :
    graph.Tries text id next ((Expr.predicate test).attempts text) := by
  intro index cont registers inside
  rw [walk_eq_value]
  simp only [step, found, Expr.attempts]
  by_cases before : index < text.size
  · rw [if_pos before, if_pos before]
    by_cases accepted : text[index]?.any test.accepts
    · rw [if_pos accepted, if_pos accepted]
      exact tryEach_walk_here.symm
    · rw [if_neg accepted, if_neg accepted]
      rfl
  · rw [if_neg before, if_neg before]
    rfl

theorem tries_atStart (found : graph.node id = .atStart next) :
    graph.Tries text id next (Expr.atStart.attempts text) := by
  intro index cont registers inside
  rw [walk_eq_value]
  simp only [step, found, Expr.attempts]
  by_cases first : index = 0
  · rw [if_pos first, if_pos first]
    exact tryEach_walk_here.symm
  · rw [if_neg first, if_neg first]
    rfl

theorem tries_atEnd (found : graph.node id = .atEnd next) :
    graph.Tries text id next (Expr.atEnd.attempts text) := by
  intro index cont registers inside
  rw [walk_eq_value]
  simp only [step, found, Expr.attempts]
  by_cases last : index = text.size
  · rw [if_pos last, if_pos last]
    exact tryEach_walk_here.symm
  · rw [if_neg last, if_neg last]
    rfl

theorem tries_backreference (found : graph.node id = .backreference group next) :
    graph.Tries text id next ((Expr.backreference group).attempts text) := by
  intro index cont registers inside
  rw [walk_eq_value]
  simp only [step, found, Expr.attempts]
  cases registers.slots.span group with
  | none => rfl
  | some span =>
    dsimp only
    by_cases outside : text.size < index + (span.2 - span.1)
    · rw [if_pos outside, if_pos outside]
      rfl
    · rw [if_neg outside, if_neg outside]
      by_cases repeats :
          text.extract span.1 span.2 = text.extract index (index + (span.2 - span.1))
      · rw [if_pos repeats, if_pos repeats]
        exact tryEach_walk_here.symm
      · rw [if_neg repeats, if_neg repeats]
        rfl

theorem tries_empty : graph.Tries text next next (Expr.empty.attempts text) := by
  intro index cont registers inside
  rw [Expr.attempts, tryEach_walk_here]

theorem Tries.andThen {first second : Nat → Slots → List Attempt} (bounded : Inside text first)
    (head : graph.Tries text entry middle first) (tail : graph.Tries text middle next second) :
    graph.Tries text entry next fun index slots =>
      Attempt.andThen (first index slots) second := by
  intro index cont registers inside
  rw [head index cont registers inside, tryEach_andThen]
  apply tryEach_congr
  intro stop reached member
  exact tail stop cont reached (bounded index _ inside stop _ member).2

theorem tries_groupTail (found : graph.node id = .groupTail group next) :
    graph.Tries text id next fun stop after => [.outcome stop (after.setStop group stop)] := by
  intro index cont registers inside
  rw [walk_eq_value, tryEach_single walk_clean]
  simp only [step, found, Step.value_orElse, Step.value_answer]
  have clean : Answer.Clean (registers.setStop group index)
    (graph.walk text next cont index (registers.setStop group index)) := walk_clean
  have back : (registers.slots.setStop group index).setStop group
      (registers.slots.stop group) = registers.slots := Slots.setStop_setBack ..
  change (graph.walk text next cont index (registers.setStop group index)).orElse _ =
    (graph.walk text next cont index (registers.setStop group index)).orElse _
  apply Answer.orElse_congr
  intro after failed
  rw [failed] at clean
  rcases clean rfl with rfl | rfl
  · exact congrArg (fun slots => (false, registers.withSlots slots)) back
  · exact congrArg (fun slots => (false, registers.reachEnd.withSlots slots)) back

theorem tries_groupHead {attempts : Nat → Slots → List Attempt}
    (found : graph.node id = .groupHead group entry)
    (inner : graph.Tries text entry next attempts) :
    graph.Tries text id next fun index slots => attempts index (slots.setStart group index) := by
  intro index cont registers inside
  rw [walk_eq_value]
  simp only [step, found, Step.value_orElse, Step.value_answer]
  have body : graph.answer text (whole text)
      ⟨.visit entry, index, cont, registers.setStart group index⟩ =
        tryEach (graph.walk text next cont)
          (attempts index (registers.slots.setStart group index))
          (registers.withSlots (registers.slots.setStart group index)) :=
    inner index cont (registers.setStart group index) inside
  rw [body, tryEach_withSlots]
  cases tried : tryEach (graph.walk text next cont)
    (attempts index (registers.slots.setStart group index)) registers with
  | mk succeeded after =>
    cases succeeded with
    | true => rfl
    | false =>
      have back : (registers.slots.setStart group index).setStart group
          (registers.slots.start group) = registers.slots := Slots.setStart_setBack ..
      rw [tryEach_failed tried]
      exact congrArg (fun slots => (false, (registers.withSlots slots).withEnd after.reachedEnd))
        back

section Last

variable (last : graph.node 0 = .last)

include last

theorem walk_last_resume :
    graph.walk text 0 (.resume next cont) index registers =
      graph.walk text next cont index registers := by
  rw [walk_eq_value]
  simp only [step, last, Step.value_tail]
  rfl

theorem walk_last_loop {repeated : Loop} {count start : Nat} :
    graph.walk text 0 (.loop repeated count start cont) index registers =
      if repeated.quantifier.min < count ∧ index = start then (false, registers)
      else graph.run text (whole text) (.iterate repeated count) index cont registers := by
  rw [walk_eq_value]
  simp only [step, last, apply_ite (Step.value _), Step.value_answer, Step.value_tail]
  rfl

variable {repeated : Loop} {attempts : Nat → Slots → List Attempt}
  (bounded : Inside text attempts) (inner : graph.Tries text repeated.body 0 attempts)

include bounded inner

/-- One more forced iteration, when the loop goes on as its attempts from there. -/
theorem walk_forced {count : Nat} (few : count < repeated.quantifier.min)
    (inside : index ≤ text.size)
    (later : ∀ stop reached, stop ≤ text.size →
      graph.run text (whole text) (.iterate repeated (count + 1)) stop cont reached =
        tryEach (graph.walk text repeated.next cont)
          (repeated.quantifier.attempts text.size attempts (count + 1) stop reached.slots)
          reached) :
    graph.walk text repeated.body (.loop repeated (count + 1) index cont) index registers =
      tryEach (graph.walk text repeated.next cont)
        (repeated.quantifier.attempts text.size attempts count index registers.slots)
        registers := by
  rw [inner index _ registers inside, Quantifier.attempts_forced few, tryEach_andThen]
  apply tryEach_congr
  intro stop reached member
  rw [walk_last_loop last, if_neg (by omega)]
  exact later stop reached (bounded index _ inside stop _ member).2

/-- One more free iteration: it is refused if it does not move. -/
theorem walk_going {count : Nat} (enough : ¬count < repeated.quantifier.min)
    (more : repeated.quantifier.allowsMore count = true) (inside : index ≤ text.size)
    (later : ∀ stop reached, index < stop ∧ stop ≤ text.size →
      graph.run text (whole text) (.iterate repeated (count + 1)) stop cont reached =
        tryEach (graph.walk text repeated.next cont)
          (repeated.quantifier.attempts text.size attempts (count + 1) stop reached.slots)
          reached) :
    graph.walk text repeated.body (.loop repeated (count + 1) index cont) index registers =
      tryEach (graph.walk text repeated.next cont)
        (repeated.quantifier.goingAttempts text.size attempts count index registers.slots)
        registers := by
  rw [inner index _ registers inside, Quantifier.goingAttempts, if_pos more, tryEach_andThen]
  apply tryEach_congr
  intro stop reached member
  have between := bounded index _ inside stop _ member
  rw [walk_last_loop last]
  by_cases still : stop = index
  · -- The loop refuses at `last` what the attempts drop.
    rw [if_pos ⟨by omega, still⟩, if_neg (by omega)]
    rfl
  · have moves : index < stop ∧ stop ≤ text.size := by omega
    rw [if_neg (by omega), if_pos moves]
    exact later stop reached moves

theorem run_iterate (count index : Nat) (slots : Slots) :
    index ≤ text.size → ∀ cont registers, registers.slots = slots →
      graph.run text (whole text) (.iterate repeated count) index cont registers =
        tryEach (graph.walk text repeated.next cont)
          (repeated.quantifier.attempts text.size attempts count index slots) registers := by
  induction count, index, slots using repeated.quantifier.iteration_induction text.size with
  | forced count index slots few ih =>
    rintro inside cont registers rfl
    rw [run_iterate_eq_value]
    simp only [step, if_pos few, Step.value_tail]
    apply walk_forced last bounded inner few inside
    intro stop reached within
    exact ih stop reached.slots within cont reached rfl
  | free count index slots enough ih =>
    rintro inside cont registers rfl
    have later : ∀ stop reached, index < stop ∧ stop ≤ text.size → _ :=
      fun stop reached moves => ih stop reached.slots moves moves.2 cont reached rfl
    rw [run_iterate_eq_value, Quantifier.attempts_free enough]
    simp only [step, if_neg enough]
    by_cases greedy : repeated.quantifier.greedy = true
    · rw [if_pos greedy, if_pos greedy, tryEach_append]
      by_cases more : repeated.quantifier.allowsMore count = true
      · rw [if_pos more, Step.value_orElse,
          ← walk_going last bounded inner enough more inside later]
        change (graph.walk text repeated.body _ index registers).orElse
          (graph.walk text repeated.next cont index) = _
        apply Answer.orElse_congr
        intro after failed
        rw [← slots_of_walk_failed failed, tryEach_walk_here]
      · rw [if_neg more, Step.value_tail, Quantifier.goingAttempts, if_neg more]
        exact tryEach_walk_here.symm
    · rw [if_neg greedy, if_neg greedy, Step.value_orElse, ← List.singleton_append,
        tryEach_append, tryEach_walk_here]
      change (graph.walk text repeated.next cont index registers).orElse _ = _
      apply Answer.orElse_congr
      intro after failed
      have kept := slots_of_walk_failed failed
      by_cases more : repeated.quantifier.allowsMore count = true
      · rw [if_pos more, Step.value_tail, ← kept,
          ← walk_going last bounded inner enough more inside later]
        rfl
      · rw [if_neg more, Quantifier.goingAttempts, if_neg more]
        rfl

theorem tries_loop (found : graph.node id = .loop repeated) :
    graph.Tries text id repeated.next (repeated.quantifier.attempts text.size attempts 0) := by
  intro index cont registers inside
  rw [walk_eq_value]
  simp only [step, found, Step.value_tail]
  exact run_iterate last bounded inner 0 index registers.slots inside cont registers rfl

end Last

def Chooses (graph : Graph) (text : Array Char) (ids : List Nat)
    (attempts : Nat → Slots → List Attempt) : Prop :=
  ∀ next index cont registers, index ≤ text.size →
    graph.run text (whole text) (.choose ids) index (.resume next cont) registers =
      tryEach (graph.walk text next cont) (attempts index registers.slots) registers

theorem run_choose_eq_value {ids : List Nat} :
    graph.run text (whole text) (.choose ids) index cont registers =
      (graph.step text (whole text) ⟨.choose ids, index, cont, registers⟩).value
        (graph.answer text (whole text)) :=
  answer_eq_value ⟨.choose ids, index, cont, registers⟩

theorem chooses_nil : graph.Chooses text [] fun _ _ => [] := by
  intro next index cont registers inside
  rw [run_choose_eq_value]
  rfl

theorem chooses_cons (last : graph.node 0 = .last) {ids : List Nat}
    {attempts rest : Nat → Slots → List Attempt} (first : graph.Tries text id 0 attempts)
    (others : graph.Chooses text ids rest) :
    graph.Chooses text (id :: ids) fun index slots => attempts index slots ++ rest index slots := by
  intro next index cont registers inside
  have head : graph.walk text id (.resume next cont) index registers =
      tryEach (graph.walk text next cont) (attempts index registers.slots) registers := by
    rw [first index _ registers inside]
    apply tryEach_congr
    intro stop reached member
    exact walk_last_resume last
  rw [run_choose_eq_value, tryEach_append, ← head]
  simp only [step, Step.value_orElse, Step.value_tail]
  change (graph.walk text id (.resume next cont) index registers).orElse
    (graph.run text (whole text) (.choose ids) index (.resume next cont)) = _
  apply Answer.orElse_congr
  intro after failed
  rw [others next index cont after inside, slots_of_walk_failed failed]

theorem tries_branch {ids : List Nat} {attempts : Nat → Slots → List Attempt}
    (found : graph.node id = .branch ids next) (chooses : graph.Chooses text ids attempts) :
    graph.Tries text id next attempts := by
  intro index cont registers inside
  rw [walk_eq_value]
  simp only [step, found, Step.value_tail]
  exact chooses next index cont registers inside

end Graph

end PatternSearch
