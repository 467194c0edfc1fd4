import Mathlib
import PatternSearch.Proofs.Search.Trees

/-! Runs of characters. A repeated test in front of something else takes as many characters as the
rest of the pattern leaves to it if it is greedy, and as few as the rest asks for if it is lazy: its
outcomes are the runs between its bounds, the longest or the shortest first, and the search takes the
first from which the rest can go on. -/

namespace PatternSearch

structure RunOf (test : Predicate) (text : List Char) (index count : Nat) : Prop where
  inside : index + count ≤ text.length
  accepted : ∀ c ∈ (text.drop index).take count, test.accepts c = true

structure Quantifier.Admits (quantifier : Quantifier) (count : Nat) : Prop where
  enough : quantifier.min ≤ count
  allowed : ∀ max ∈ quantifier.max, count ≤ max

/-- The order in which a loop comes to the places where it can stop. -/
def Quantifier.TriesFirst (quantifier : Quantifier) (stop other : Nat) : Prop :=
  if quantifier.greedy then other < stop else stop < other

/-- If a list is ordered, then what goes on from it first goes on from the first element in this
order that leads anywhere. -/
theorem head?_flatMap_of_pairwise {α β : Type} {before : α → α → Prop} {list : List α}
    (sorted : list.Pairwise before) {next : α → List β} {b : β}
    (head : (list.flatMap next).head? = some b) :
    ∃ a ∈ list, (next a).head? = some b ∧
      ∀ other ∈ list, next other ≠ [] → other = a ∨ before a other := by
  induction sorted with
  | nil => cases head
  | @cons a list first _ ih =>
    rw [List.flatMap_cons, List.head?_append] at head
    cases here : (next a).head? with
    | some c =>
      rw [here, Option.some_or] at head
      refine ⟨a, List.mem_cons_self .., here.trans head, ?_⟩
      intro other member _
      rcases List.mem_cons.mp member with same | later
      · exact .inl same
      · exact .inr (first other later)
    | none =>
      rw [here, Option.none_or] at head
      obtain ⟨chosen, member, found, least⟩ := ih head
      refine ⟨chosen, List.mem_cons_of_mem a member, found, ?_⟩
      intro other listed leads
      rcases List.mem_cons.mp listed with rfl | later
      · exact absurd (List.head?_eq_none_iff.mp here) leads
      · exact least other later leads

section Outcomes

variable {test : Predicate} {text : List Char} {index count : Nat} {slots : Slots}

theorem runOf_zero : RunOf test text index 0 ↔ index ≤ text.length :=
  ⟨fun run => run.inside, fun inside => ⟨inside, by simp⟩⟩

theorem runOf_succ : RunOf test text index (count + 1) ↔
    text.toArray[index]?.any test.accepts = true ∧ RunOf test text (index + 1) count := by
  rw [List.getElem?_toArray]
  by_cases before : index < text.length
  · rw [List.getElem?_eq_getElem before, Option.any_some]
    constructor
    · intro ⟨inside, accepted⟩
      rw [List.drop_eq_getElem_cons before, List.take_succ_cons, List.forall_mem_cons] at accepted
      exact ⟨accepted.1, by omega, accepted.2⟩
    · intro ⟨here, inside, accepted⟩
      refine ⟨by omega, ?_⟩
      rw [List.drop_eq_getElem_cons before, List.take_succ_cons, List.forall_mem_cons]
      exact ⟨here, accepted⟩
  · rw [List.getElem?_eq_none (Nat.not_lt.mp before)]
    constructor
    · intro ⟨inside, _⟩
      omega
    · intro ⟨here, _⟩
      cases here

variable {quantifier : Quantifier}

theorem flatMap_predicate {next : Outcome → List Outcome} :
    ((Expr.predicate test).outcomes text.toArray index slots).flatMap next =
      if text.toArray[index]?.any test.accepts then next (index + 1, slots) else [] := by
  rw [Expr.outcomes]
  split
  · exact List.flatMap_singleton ..
  · rfl

theorem before_end (accepted : text.toArray[index]?.any test.accepts = true) :
    index < text.length := by
  obtain ⟨c, there, _⟩ := (Option.any_eq_true ..).mp accepted
  exact (Array.getElem?_eq_some_iff.mp there).1

theorem goingOutcomes_predicate :
    quantifier.goingOutcomes text.length ((Expr.predicate test).outcomes text.toArray) count index
        slots =
      if quantifier.allowsMore count ∧ text.toArray[index]?.any test.accepts then
        quantifier.outcomes text.length ((Expr.predicate test).outcomes text.toArray) (count + 1)
          (index + 1) slots
      else [] := by
  rw [Quantifier.goingOutcomes, flatMap_predicate, ite_and]
  congr 1
  split
  · next accepted => exact if_pos ⟨Nat.lt_succ_self index, before_end accepted⟩
  · rfl

def Quantifier.RunsTo (quantifier : Quantifier) (test : Predicate) (text : List Char)
    (count index : Nat) (slots : Slots) (outcome : Outcome) : Prop :=
  ∃ more, RunOf test text index more ∧ quantifier.Admits (count + more) ∧
    outcome = (index + more, slots)

theorem runsTo_iff {outcome : Outcome} :
    quantifier.RunsTo test text count index slots outcome ↔
      (index ≤ text.length ∧ quantifier.Admits count ∧ outcome = (index, slots)) ∨
        text.toArray[index]?.any test.accepts = true ∧
          quantifier.RunsTo test text (count + 1) (index + 1) slots outcome := by
  rw [Quantifier.RunsTo, ← Nat.or_exists_add_one]
  apply or_congr
  · rw [runOf_zero, Nat.add_zero, Nat.add_zero]
  · rw [Quantifier.RunsTo, ← exists_and_left]
    apply exists_congr
    intro more
    rw [runOf_succ, and_assoc, Nat.add_right_comm count, Nat.add_right_comm index]
    rfl

theorem Quantifier.RunsTo.allowed {outcome : Outcome}
    (runs : quantifier.RunsTo test text count index slots outcome) :
    ∀ max ∈ quantifier.max, count ≤ max := by
  obtain ⟨more, _, admitted, _⟩ := runs
  exact fun max bound => Nat.le_trans (Nat.le_add_right count more) (admitted.allowed max bound)

/-- The iterations that are left make up a run. The induction is along the iterations, whose number
stays below the upper bound, so that a loop with enough of them can stop. -/
theorem mem_outcomes_runsTo (ordered : ∀ max ∈ quantifier.max, quantifier.min ≤ max)
    {outcome : Outcome} (inside : index ≤ text.length)
    (allowed : ∀ max ∈ quantifier.max, count ≤ max) :
    outcome ∈ quantifier.outcomes text.length ((Expr.predicate test).outcomes text.toArray)
        count index slots ↔ quantifier.RunsTo test text count index slots outcome := by
  induction count, index, slots using quantifier.iteration_induction text.length with
  | forced count index slots few ih =>
    have wanting : ¬quantifier.Admits count := fun admitted => Nat.not_le.mpr few admitted.enough
    rw [Quantifier.outcomes_forced few, flatMap_predicate, runsTo_iff, List.mem_ite_nil_right]
    simp only [wanting, false_and, and_false, false_or]
    apply and_congr_right
    intro accepted
    exact ih _ _ (before_end accepted) fun max bound => Nat.le_trans few (ordered max bound)
  | free count index slots enough ih =>
    have content : quantifier.Admits count := ⟨Nat.not_lt.mp enough, allowed⟩
    rw [Quantifier.mem_outcomes_free enough, goingOutcomes_predicate, runsTo_iff,
      List.mem_ite_nil_right, and_assoc]
    simp only [inside, content, true_and]
    apply or_congr_right
    constructor
    · rintro ⟨more, accepted, member⟩
      have before := before_end accepted
      exact ⟨accepted, (ih _ _ ⟨Nat.lt_succ_self index, before⟩ before
        (Quantifier.allowsMore_iff.mp more)).mp member⟩
    · rintro ⟨accepted, runs⟩
      have before := before_end accepted
      have more := runs.allowed
      exact ⟨Quantifier.allowsMore_iff.mpr more, accepted,
        (ih _ _ ⟨Nat.lt_succ_self index, before⟩ before more).mpr runs⟩

theorem mem_outcomes_runs (ordered : ∀ max ∈ quantifier.max, quantifier.min ≤ max)
    (inside : index ≤ text.length) {outcome : Outcome} :
    outcome ∈ (Expr.repetition (.predicate test) quantifier).outcomes text.toArray index slots ↔
      ∃ count, RunOf test text index count ∧ quantifier.Admits count ∧
        outcome = (index + count, slots) := by
  rw [Expr.outcomes, List.size_toArray,
    mem_outcomes_runsTo ordered inside fun max _ => Nat.zero_le max, Quantifier.RunsTo]
  simp only [Nat.zero_add]

/-- What a loop does beyond this place comes before stopping here if the loop is greedy, and else
behind it. -/
theorem sorted_free {going : List Outcome} {here : Outcome}
    (sorted : going.Pairwise fun first second => quantifier.TriesFirst first.1 second.1)
    (beyond : ∀ outcome ∈ going, here.1 < outcome.1) :
    (if quantifier.greedy then going ++ [here] else here :: going).Pairwise
      fun first second => quantifier.TriesFirst first.1 second.1 := by
  unfold Quantifier.TriesFirst at *
  cases greed : quantifier.greedy with
  | true =>
    simp only [greed, if_true] at sorted ⊢
    refine List.pairwise_append.mpr ⟨sorted, List.pairwise_singleton .., ?_⟩
    intro outcome member last same
    rw [List.mem_singleton.mp same]
    exact beyond outcome member
  | false =>
    simp only [greed, Bool.false_eq_true, if_false] at sorted ⊢
    exact List.pairwise_cons.mpr ⟨beyond, sorted⟩

theorem sorted_iterations (inside : index ≤ text.length) :
    (quantifier.outcomes text.length ((Expr.predicate test).outcomes text.toArray)
        count index slots).Pairwise fun first second => quantifier.TriesFirst first.1 second.1 := by
  induction count, index, slots using quantifier.iteration_induction text.length with
  | forced count index slots few ih =>
    rw [Quantifier.outcomes_forced few, flatMap_predicate]
    split
    · next accepted => exact ih _ _ (before_end accepted)
    · exact .nil
  | free count index slots enough ih =>
    rw [Quantifier.outcomes_free enough, goingOutcomes_predicate]
    apply sorted_free
    · split
      · next further =>
        have before := before_end further.2
        exact ih _ _ ⟨Nat.lt_succ_self index, before⟩ before
      · exact .nil
    · intro outcome member
      obtain ⟨further, member⟩ := List.mem_ite_nil_right.mp member
      exact (quantifier.outcomes_follow (Expr.outcomes_follow _) _ _ slots (before_end further.2) _
        member).forward

theorem sorted_outcomes (inside : index ≤ text.length) :
    ((Expr.repetition (.predicate test) quantifier).outcomes text.toArray index slots).Pairwise
      fun first second => quantifier.TriesFirst first.1 second.1 := by
  rw [Expr.outcomes, List.size_toArray]
  exact sorted_iterations inside

end Outcomes

section Resting

variable {quantifier : Quantifier} {test : Predicate} {rest : Expr} {groups : Nat}
  {text : List Char} {index count : Nat}

/-- The repetition can take `count` characters from the position on, and behind them the rest matches
when it is tried there with no group set. -/
structure Quantifier.Takes (quantifier : Quantifier) (test : Predicate) (rest : Expr) (groups : Nat)
    (text : List Char) (index count : Nat) : Prop where
  run : RunOf test text index count
  admitted : quantifier.Admits count
  goesOn : (rest.tryAt groups text (index + count)).1 = true

theorem outcomes_pair {item : Expr} {array : Array Char} {slots : Slots} :
    (Expr.sequence [item, rest]).outcomes array index slots =
      (item.outcomes array index slots).flatMap fun (stop, after) =>
        rest.outcomes array stop after := by
  simp only [Expr.outcomes, Expr.itemOutcomes, List.flatMap_singleton']

theorem takes_iff : quantifier.Takes test rest groups text index count ↔
    RunOf test text index count ∧ quantifier.Admits count ∧
      rest.outcomes text.toArray (index + count) (.blank groups) ≠ [] := by
  constructor
  · intro ⟨run, admitted, goesOn⟩
    exact ⟨run, admitted, (rest.tryAt_iff groups text run.inside).mp goesOn⟩
  · intro ⟨run, admitted, leads⟩
    exact ⟨run, admitted, (rest.tryAt_iff groups text run.inside).mpr leads⟩

variable (ordered : ∀ max ∈ quantifier.max, quantifier.min ≤ max) (inside : index ≤ text.length)
include ordered inside

theorem outcomes_in_front :
    (Expr.sequence [.repetition (.predicate test) quantifier, rest]).outcomes text.toArray index
        (.blank groups) ≠ [] ↔
      ∃ count, quantifier.Takes test rest groups text index count := by
  rw [outcomes_pair, ne_eq, List.flatMap_eq_nil_iff]
  push Not
  constructor
  · rintro ⟨outcome, member, leads⟩
    obtain ⟨count, run, admitted, rfl⟩ := (mem_outcomes_runs ordered inside).mp member
    exact ⟨count, takes_iff.mpr ⟨run, admitted, leads⟩⟩
  · rintro ⟨count, takes⟩
    obtain ⟨run, admitted, leads⟩ := takes_iff.mp takes
    exact ⟨_, (mem_outcomes_runs ordered inside).mpr ⟨count, run, admitted, rfl⟩, leads⟩

/-- The first outcome is that of the rest behind the first run that it goes on from. -/
theorem first_in_front {stop : Nat} {after : Slots}
    (first : ((Expr.sequence [.repetition (.predicate test) quantifier, rest]).outcomes text.toArray
      index (.blank groups)).head? = some (stop, after)) :
    ∃ count, quantifier.Takes test rest groups text index count ∧
      (∀ other, quantifier.Takes test rest groups text index other →
        if quantifier.greedy then other ≤ count else count ≤ other) ∧
      (rest.tryAt groups text (index + count)).2.matchStop = stop ∧
      (rest.tryAt groups text (index + count)).2.slots = after := by
  rw [outcomes_pair] at first
  obtain ⟨chosen, member, head, earliest⟩ :=
    head?_flatMap_of_pairwise (sorted_outcomes inside) first
  obtain ⟨count, run, admitted, rfl⟩ := (mem_outcomes_runs ordered inside).mp member
  change (rest.outcomes text.toArray (index + count) (.blank groups)).head? = _ at head
  have leads : rest.outcomes text.toArray (index + count) (.blank groups) ≠ [] := by
    intro barren
    rw [barren] at head
    cases head
  refine ⟨count, takes_iff.mpr ⟨run, admitted, leads⟩, ?_, ?_⟩
  · intro other takes
    obtain ⟨otherRun, otherAdmitted, otherLeads⟩ := takes_iff.mp takes
    have listed : (index + other, Slots.blank groups) ∈
        (Expr.repetition (.predicate test) quantifier).outcomes text.toArray index (.blank groups) :=
      (mem_outcomes_runs ordered inside).mpr ⟨other, otherRun, otherAdmitted, rfl⟩
    rcases earliest _ listed otherLeads with same | before
    · have equal : other = count := by simpa using same
      split <;> omega
    · unfold Quantifier.TriesFirst at before
      dsimp only at before
      split_ifs at before ⊢ <;> omega
  · exact (rest.tryAt_eq groups text run.inside).2 stop after head

end Resting

/-- For every test of single characters that is repeated in front of a rest, whatever its bounds and
its greed and whatever the rest captures and repeats, every text and every start: a search succeeds
if from some position on the repetition can take a run that the rest goes on from. It finds the first
such position, and of the runs from there the longest that the rest goes on from if the repetition is
greedy, and the shortest if it is lazy. The match ends where the rest ends behind that run when it is
tried there alone, and every group has the span that the rest leaves it. -/
theorem search_repeated (test : Predicate) (quantifier : Quantifier)
    (ordered : ∀ max ∈ quantifier.max, quantifier.min ≤ max) (rest : Expr) (groups : Nat)
    (text : List Char) (start : Nat) :
    let expr := Expr.sequence [.repetition (.predicate test) quantifier, rest]
    let result := (Graph.ofExpr expr).search text.toArray start (.blank groups text.length)
    let Takes := quantifier.Takes test rest groups text
    (result.1 = true ↔ ∃ index count, start ≤ index ∧ Takes index count) ∧
      (result.1 = true → ∃ index count stop : Nat, start ≤ index ∧ Takes index count ∧
        (∀ earlier other, start ≤ earlier → Takes earlier other → index ≤ earlier) ∧
        (∀ other, Takes index other →
          if quantifier.greedy then other ≤ count else count ≤ other) ∧
        let alone := (rest.tryAt groups text (index + count)).2
        alone.matchStop = stop ∧ ∀ group, result.2.registers.slots.span group =
          if group = 0 then some (index, stop) else alone.slots.span group) := by
  intro expr result Takes
  obtain ⟨succeeded, spans⟩ := Graph.reports_ofExpr expr groups text start
  -- No position with such a run can be passed over: the expression has an outcome there.
  have stands : ∀ index count, Takes index count →
      index ≤ text.length ∧ expr.outcomes text.toArray index (.blank groups) ≠ [] := by
    intro index count takes
    have inside : index ≤ text.length := Nat.le_trans (Nat.le_add_right ..) takes.run.inside
    exact ⟨inside, (outcomes_in_front ordered inside).mpr ⟨count, takes⟩⟩
  cases found : expr.firstOutcome? text.toArray start (.blank groups) with
  | none =>
    rw [found] at succeeded
    have failed : result.1 = false := succeeded
    have nowhere : ¬∃ index count, start ≤ index ∧ Takes index count := by
      rintro ⟨index, count, after, takes⟩
      obtain ⟨inside, leads⟩ := stands index count takes
      exact leads (Expr.firstOutcome?_eq_none.mp found index after inside)
    simp only [failed, Bool.false_eq_true, false_iff, false_implies, and_true]
    exact nowhere
  | some first =>
    obtain ⟨index, stop, slots⟩ := first
    rw [found] at succeeded
    obtain ⟨after, inside, _, barren⟩ := Expr.firstOutcome?_spec found
    obtain ⟨count, takes, best, ends, leaves⟩ :=
      first_in_front ordered inside (Expr.firstOutcome?_head found)
    refine ⟨iff_of_true succeeded ⟨index, count, after, takes⟩, fun _ => ?_⟩
    refine ⟨index, count, stop, after, takes, ?_, best, ends, ?_⟩
    · intro earlier other behind taken
      obtain ⟨_, leads⟩ := stands earlier other taken
      exact Nat.not_lt.mp fun before => leads (barren earlier behind before)
    · intro group
      rw [spans group, found, leaves]
      rfl

/-- In `a{1,4}(a|b)\1` the greedy run gives up none of its four characters, although the rest could
also go on behind the first and behind the second. -/
theorem search_repeated_letter :
    let rest : Expr :=
      .sequence [.group 1 (.alternation [.literal 'a', .literal 'b']), .backreference 1]
    let expr : Expr := .sequence [.repetition (.literal 'a') ⟨1, some 4, true⟩, rest]
    let result := (Graph.ofExpr expr).search #['c', 'a', 'a', 'a', 'a', 'b', 'b'] 1 (.blank 1 7)
    result.1 = true ∧ result.2.registers.slots.span 0 = some (1, 7) ∧
      result.2.registers.slots.span 1 = some (5, 6) := by
  intro rest expr result
  have ordered : ∀ max ∈ some 4, 1 ≤ max := by simp
  obtain ⟨answers, located⟩ := search_repeated (.char 'a') ⟨1, some 4, true⟩ ordered rest 1
    ['c', 'a', 'a', 'a', 'a', 'b', 'b'] 1
  have whole : Quantifier.Takes ⟨1, some 4, true⟩ (.char 'a') rest 1
      ['c', 'a', 'a', 'a', 'a', 'b', 'b'] 1 4 :=
    ⟨⟨by decide, by simp [Predicate.accepts]⟩, ⟨by decide, by simp⟩, by cbv⟩
  have found := answers.mpr ⟨1, 4, Nat.le_refl 1, whole⟩
  obtain ⟨index, count, stop, after, takes, least, longest, ends, spans⟩ := located found
  have here : index = 1 := Nat.le_antisymm (least 1 4 (Nat.le_refl 1) whole) after
  subst here
  have all : count = 4 := Nat.le_antisymm (takes.admitted.allowed 4 rfl) (longest 4 whole)
  subst all
  have last : stop = 7 := Int.ofNat_inj.mp (ends.symm.trans (by cbv))
  subst last
  exact ⟨found, spans 0, (spans 1).trans (by cbv)⟩

end PatternSearch
