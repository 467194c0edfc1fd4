import Mathlib
import PatternSearch.Proofs.Search.Bounds
import PatternSearch.Proofs.Search.EndNotes

/-! Searches that more text cannot change. A step looks at the text before the end of its window
only, unless it notes that it reached the end or tests for the end itself. So a search for a
pattern that does not test for the end, and that noted no end, goes through the same calls when
the text continues, and answers the same. -/

namespace PatternSearch

theorem Step.value_congr {respond other : Call → Answer} (step : Step)
    (agreed : ∀ call ∈ step.asked respond, other call = respond call) :
    step.value other = step.value respond := by
  induction step with
  | answer result => rfl
  | ask call resume ih =>
    rw [value, value, agreed call (List.mem_cons_self ..)]
    exact ih _ fun later member => agreed later (List.mem_cons_of_mem _ member)

theorem extract_append_inside {text : Array Char} {start stop : Nat} (more : Array Char)
    (inside : stop ≤ text.size) : (text ++ more).extract start stop = text.extract start stop := by
  rw [Array.extract_append, Nat.sub_eq_zero_of_le inside, Array.extract_zero, Array.append_empty]

namespace Graph

variable {graph : Graph} {text : Array Char} {index groups : Nat} {cont : Continuation}
  {registers : Registers}

def Endless (graph : Graph) : Prop := ∀ id next, graph.node id ≠ .atEnd next

/-- The step of the call is the same when the text continues with `more`, unless it is to note
that the end was reached. -/
def StepExtends (graph : Graph) (text more : Array Char) (call : Call) : Prop :=
  graph.step (text ++ more) (whole (text ++ more)) call = graph.step text (whole text) call ∨
    graph.step text (whole text) call = .answer (false, call.registers.reachEnd)

theorem stepExtends_visit (endless : graph.Endless) (more : Array Char) (id : Nat)
    (within : registers.slots.Within groups index) :
    graph.StepExtends text more ⟨.visit id, index, cont, registers⟩ := by
  cases found : graph.node id with
  | char test next =>
    simp only [StepExtends, step, found]
    by_cases inside : index < text.size
    · have further : index < (text ++ more).size := by
        rw [Array.size_append]
        exact Nat.lt_add_right _ inside
      rw [if_pos inside, if_pos further, Array.getElem?_append_left inside]
      exact .inl rfl
    · rw [if_neg inside]
      exact .inr rfl
  | atEnd next => exact absurd found (endless id next)
  | backreference group next =>
    simp only [StepExtends, step, found]
    cases held : registers.slots.span group with
    | none => exact .inl rfl
    | some span =>
      obtain ⟨start, stop⟩ := span
      obtain ⟨_, before⟩ := within.span held
      dsimp only
      by_cases beyond : text.size < index + (stop - start)
      · rw [if_pos beyond]
        exact .inr rfl
      · have further : ¬(text ++ more).size < index + (stop - start) := by
          rw [Array.size_append]
          omega
        rw [if_neg beyond, if_neg further, extract_append_inside more (by omega),
          extract_append_inside more (by omega)]
        exact .inl rfl
  | _ => exact .inl (by simp only [step, found])

theorem stepExtends (endless : graph.Endless) (more : Array Char) {call : Call}
    (within : call.Within groups) : graph.StepExtends text more call := by
  obtain ⟨goal, index, cont, registers⟩ := call
  cases goal with
  | visit id => exact stepExtends_visit endless more id within
  | choose ids => cases ids <;> exact .inl rfl
  | iterate repeated count => exact .inl rfl
  | scan next =>
    simp only [StepExtends, step]
    by_cases inside : index ≤ text.size
    · have further : index ≤ (text ++ more).size := by
        rw [Array.size_append]
        exact Nat.le_add_right_of_le inside
      rw [if_pos inside, if_pos further]
      exact .inl rfl
    · rw [if_neg inside]
      exact .inr rfl

/-- A call that noted no end answers the same when the text continues. -/
theorem answer_append (endless : graph.Endless) (text more : Array Char) (call : Call) :
    call.Within groups → (graph.answer text (whole text) call).2.reachedEnd = false →
      graph.answer (text ++ more) (whole (text ++ more)) call =
        graph.answer text (whole text) call := by
  induction call using call_induction graph text (whole text) with
  | advance call ih =>
    intro within unnoted
    rcases stepExtends endless more within with same | ended
    · rw [answer_eq_value call, same, answer_eq_value call]
      apply Step.value_congr
      intro next asked
      exact ih next asked ((asks_of_asked asked).within within) (reachedEnd_of_asked asked unnoted)
    · rw [answer_eq_value, ended] at unnoted
      cases unnoted

theorem endless_ofExpr {expr : Expr} (endless : .atEnd ∉ expr.parts) : (ofExpr expr).Endless := by
  intro id next found
  rcases node_ofExpr expr id with last | ⟨_, start⟩ | ⟨part, member, stands⟩
  · rw [last] at found
    cases found
  · rw [start] at found
    cases found
  · rw [found] at stands
    cases stands
    exact endless member

end Graph

section Searches

variable {pattern : Pattern} {text : List Char} {start : Nat}

theorem answer_firstCall_append (endless : .atEnd ∉ pattern.expr.parts) (more : List Char)
    (unnoted : ((pattern.matcher text).searchFrom start).2.reachedEnd = false) :
    let matcher := pattern.matcher text
    let longer := pattern.matcher (text ++ more)
    pattern.graph.answer longer.text longer.prepared.window (longer.firstCall start) =
      pattern.graph.answer matcher.text matcher.prepared.window (matcher.firstCall start) := by
  intro matcher longer
  have unending : pattern.graph.Endless := pattern.lowered ▸ Graph.endless_ofExpr endless
  have same := Graph.answer_append unending text.toArray more.toArray (matcher.firstCall start)
    (Matcher.within_firstCall pattern text start)
  have first : longer.firstCall start = matcher.firstCall start := by
    rw [Matcher.firstCall_matcher, Matcher.firstCall_matcher]
  rw [Matcher.reachedEnd_searchFrom] at unnoted
  rw [first, Matcher.prepared_matcher, Matcher.prepared_matcher]
  rw [Matcher.prepared_matcher] at unnoted
  rw [List.append_toArray] at same
  exact same unnoted

theorem byteSpan_append {matcher longer : Matcher} {more : List Char} {group : Nat}
    (texts : longer.text.toList = matcher.text.toList ++ more)
    (registers : longer.state.registers = matcher.state.registers)
    (inside : ∀ first last, matcher.charSpan group = some (first, last) →
      first ≤ last ∧ last ≤ matcher.text.size) :
    longer.byteSpan group = matcher.byteSpan group := by
  have spans : longer.charSpan group = matcher.charSpan group := by
    rw [Matcher.charSpan, Matcher.charSpan, registers]
  rw [Matcher.byteSpan, Matcher.byteSpan, spans]
  cases held : matcher.charSpan group with
  | none => rfl
  | some span =>
    obtain ⟨first, last⟩ := span
    obtain ⟨ordered, fits⟩ := inside first last held
    simp only [Option.map_some, Matcher.byteOffset, texts]
    rw [List.take_append_of_le_length (Nat.le_trans ordered fits),
      List.take_append_of_le_length fits]

/-- For every pattern that does not test for the end of the text, every text and every start: if
the search finds a match and has not asked for text behind the end, then whatever follows the
text, the search finds the match again, reports the same bytes for every group and does not ask
for text behind the end. -/
theorem searchFrom_append (pattern : Pattern) (endless : .atEnd ∉ pattern.expr.parts)
    (text more : List Char) (start : Nat)
    (succeeded : ((pattern.matcher text).searchFrom start).1 = true)
    (unnoted : ((pattern.matcher text).searchFrom start).2.reachedEnd = false) :
    let result := (pattern.matcher text).searchFrom start
    let longer := (pattern.matcher (text ++ more)).searchFrom start
    longer.1 = true ∧ longer.2.reachedEnd = false ∧
      ∀ group, longer.2.byteSpan group = result.2.byteSpan group := by
  intro result longer
  have same := answer_firstCall_append endless more unnoted
  have found : longer.1 = true := by
    rw [Matcher.searchFrom_eq_answer] at succeeded ⊢
    exact (congrArg Prod.fst same).trans succeeded
  have registers : longer.2.state.registers = result.2.state.registers := by
    rw [Matcher.registers_searchFrom found, Matcher.registers_searchFrom succeeded]
    exact congrArg Prod.snd same
  refine ⟨found, (congrArg Registers.reachedEnd registers).trans unnoted, ?_⟩
  intro group
  have before : result.2.text = text.toArray := Matcher.text_searchFrom ..
  have behind : longer.2.text = (text ++ more).toArray := Matcher.text_searchFrom ..
  have texts : longer.2.text.toList = result.2.text.toList ++ more := by rw [before, behind]
  apply byteSpan_append texts registers
  intro first last held
  rw [before]
  exact charSpan_searchFrom_le held

end Searches

def doubled : Pattern :=
  let letter : Expr := .group 1 (.alternation [.literal 'é', .literal 'b'])
  let expr : Expr := .sequence [letter, .backreference 1]
  ⟨"(é|b)\\1", expr, 1, .ofExpr expr, by cbv, rfl⟩

/-- The first character is tried in vain, and what is behind the match does not matter. -/
theorem searchFrom_doubled :
    let longer := (doubled.matcher (['b', 'é', 'é', 'x'] ++ ['é', 'b'])).searchFrom 0
    longer.1 = true ∧ longer.2.reachedEnd = false ∧ longer.2.byteSpan 0 = some (1, 5) ∧
      longer.2.byteSpan 1 = some (1, 3) ∧ longer.2.byteSpan 2 = none := by
  have endless : .atEnd ∉ doubled.expr.parts := by
    simp [doubled, Expr.parts, Expr.allParts, Expr.literal]
  obtain ⟨found, unnoted, same⟩ := searchFrom_append doubled endless ['b', 'é', 'é', 'x'] ['é', 'b']
    0 (by cbv) (by cbv)
  refine ⟨found, unnoted, ?_⟩
  rw [same, same, same]
  exact ⟨by cbv, by cbv, by cbv⟩

end PatternSearch
