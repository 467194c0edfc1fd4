import PatternSearch.Proofs.Search.Termination

/-! A failed attempt leaves no trace: every register is set back, except that the search may
have noted that it reached the end of its window. One step sets back what it wrote itself, and
the calls that it asks have set back what they wrote by the time they fail. -/

namespace PatternSearch

/-- What a failed attempt leaves: at most a note that the end of the window was reached. -/
def Registers.Restored (before after : Registers) : Prop :=
  after = before ∨ after = before.reachEnd

namespace Registers

variable {before middle after : Registers} {group : Nat} {value : Int}

theorem Restored.refl (registers : Registers) : registers.Restored registers := .inl rfl

theorem restored_reachEnd (registers : Registers) : registers.Restored registers.reachEnd :=
  .inr rfl

theorem Restored.trans (first : before.Restored middle) (second : middle.Restored after) :
    before.Restored after := by
  rcases first with rfl | rfl
  · exact second
  · rcases second with rfl | rfl <;> exact .inr rfl

theorem Restored.setStart_back (restored : (before.setStart group value).Restored after) :
    before.Restored (after.setStart group (before.slots.start group)) := by
  have undone :
      (before.setStart group value).setStart group (before.slots.start group) = before := by
    simp only [Registers.setStart, Slots.setStart_setBack]
  rcases restored with rfl | rfl
  · exact .inl undone
  · exact .inr (congrArg reachEnd undone)

theorem Restored.setStop_back (restored : (before.setStop group value).Restored after) :
    before.Restored (after.setStop group (before.slots.stop group)) := by
  have undone :
      (before.setStop group value).setStop group (before.slots.stop group) = before := by
    simp only [Registers.setStop, Slots.setStop_setBack]
  rcases restored with rfl | rfl
  · exact .inl undone
  · exact .inr (congrArg reachEnd undone)

end Registers

def Answer.Clean (before : Registers) (answer : Answer) : Prop :=
  answer.1 = false → before.Restored answer.2

namespace Step

def Undoes (before : Registers) : Step → Prop
  | answer result => Answer.Clean before result
  | ask call resume =>
      ∀ result, Answer.Clean call.registers result → (resume result).Undoes before

variable {before : Registers} {call : Call} {otherwise : Registers → Step}

theorem undoes_succeed {after : Registers} : (answer (true, after)).Undoes before := by
  intro failed
  cases failed

theorem undoes_tail (restored : before.Restored call.registers) :
    (tail call).Undoes before :=
  fun _ clean failed => restored.trans (clean failed)

theorem undoes_orElse
    (rest : ∀ after, call.registers.Restored after → (otherwise after).Undoes before) :
    (orElse call otherwise).Undoes before := by
  rintro ⟨succeeded, after⟩ clean
  cases succeeded with
  | true => exact undoes_succeed
  | false => exact rest after (clean rfl)

theorem undoes_fail {after : Registers} (restored : before.Restored after) :
    (answer (false, after)).Undoes before :=
  fun _ => restored

theorem Undoes.clean {respond : Call → Answer} {step : Step} (undoes : step.Undoes before)
    (asked : ∀ next ∈ step.asked respond, Answer.Clean next.registers (respond next)) :
    Answer.Clean before (step.value respond) := by
  induction step with
  | answer result => exact undoes
  | ask call resume ih =>
    apply ih _ (undoes _ (asked call (List.mem_cons_self ..)))
    intro next member
    exact asked next (List.mem_cons_of_mem _ member)

end Step

namespace Graph

open Registers

variable {graph : Graph} {text : Array Char} {window : Window} {index : Nat}
  {cont : Continuation} {registers : Registers}

theorem step_visit_undoes (id : Nat) :
    (graph.step text window ⟨.visit id, index, cont, registers⟩).Undoes registers := by
  cases found : graph.node id with
  | last =>
    simp only [step, found]
    cases cont with
    | done => exact Step.undoes_succeed
    | resume next parent => exact Step.undoes_tail (.refl _)
    | loop repeated count start parent =>
      dsimp only
      split
      · exact Step.undoes_fail (.refl _)
      · exact Step.undoes_tail (.refl _)
  | start next =>
    simp only [step, found]
    exact Step.undoes_tail (.refl _)
  | char test next =>
    simp only [step, found]
    split
    · split
      · exact Step.undoes_tail (.refl _)
      · exact Step.undoes_fail (.refl _)
    · exact Step.undoes_fail (restored_reachEnd _)
  | atStart next =>
    simp only [step, found]
    split
    · exact Step.undoes_tail (.refl _)
    · exact Step.undoes_fail (.refl _)
  | atEnd next =>
    simp only [step, found]
    split
    · exact Step.undoes_tail (.refl _)
    · exact Step.undoes_fail (.refl _)
  | loop repeated =>
    simp only [step, found]
    exact Step.undoes_tail (.refl _)
  | groupHead group next =>
    simp only [step, found]
    exact Step.undoes_orElse fun after restored => Step.undoes_fail restored.setStart_back
  | groupTail group next =>
    simp only [step, found]
    exact Step.undoes_orElse fun after restored => Step.undoes_fail restored.setStop_back
  | branch alternatives next =>
    simp only [step, found]
    exact Step.undoes_tail (.refl _)
  | backreference group next =>
    simp only [step, found]
    split
    · exact Step.undoes_fail (.refl _)
    · split
      · exact Step.undoes_fail (restored_reachEnd _)
      · split
        · exact Step.undoes_tail (.refl _)
        · exact Step.undoes_fail (.refl _)

theorem step_iterate_undoes (repeated : Loop) (count : Nat) :
    (graph.step text window ⟨.iterate repeated count, index, cont, registers⟩).Undoes
      registers := by
  simp only [step]
  split
  · exact Step.undoes_tail (.refl _)
  · split
    · split
      · exact Step.undoes_orElse fun after restored => Step.undoes_tail restored
      · exact Step.undoes_tail (.refl _)
    · refine Step.undoes_orElse fun after restored => ?_
      split
      · exact Step.undoes_tail restored
      · exact Step.undoes_fail restored

theorem step_undoes (call : Call) : (graph.step text window call).Undoes call.registers := by
  obtain ⟨goal, index, cont, registers⟩ := call
  cases goal with
  | visit id => exact step_visit_undoes id
  | iterate repeated count => exact step_iterate_undoes repeated count
  | choose ids =>
    cases ids with
    | nil => exact Step.undoes_fail (.refl _)
    | cons id ids => exact Step.undoes_orElse fun after restored => Step.undoes_tail restored
  | scan next =>
    simp only [step]
    split
    · rintro ⟨succeeded, after⟩ clean
      cases succeeded with
      | true => exact Step.undoes_succeed
      | false => exact Step.undoes_tail (clean rfl)
    · exact Step.undoes_fail (restored_reachEnd _)

theorem answer_clean (call : Call) :
    Answer.Clean call.registers (graph.answer text window call) := by
  induction call using call_induction graph text window with
  | advance call asked =>
    rw [answer_eq_value]
    exact (step_undoes call).clean asked

theorem run_failed {goal : Goal} {after : Registers}
    (failed : graph.run text window goal index cont registers = (false, after)) :
    registers.Restored after := by
  have clean : Answer.Clean registers
      (graph.answer text window ⟨goal, index, cont, registers⟩) := answer_clean _
  simp only [answer, failed] at clean
  exact clean rfl

theorem search_failed {start : Nat} {state after : SearchState}
    (failed : graph.search text start state = (false, after)) :
    after.window = state.window ∧ state.registers.Restored after.registers := by
  cases ran : graph.run text state.window (.visit graph.root) start .done state.registers with
  | mk found registers =>
    simp only [search, ran, Prod.mk.injEq] at failed
    obtain ⟨rfl, rfl⟩ := failed
    exact ⟨rfl, run_failed ran⟩

end Graph

theorem Registers.Restored.slots_eq {before after : Registers} (restored : before.Restored after) :
    after.slots = before.slots := by
  rcases restored with rfl | rfl <;> rfl

theorem Matcher.slots_searchFrom_failed {matcher : Matcher} {start : Nat}
    (failed : (matcher.searchFrom start).1 = false) :
    (matcher.searchFrom start).2.state.registers.slots = matcher.state.registers.slots.clear := by
  unfold Matcher.searchFrom at failed ⊢
  cases searched : matcher.pattern.graph.search matcher.text start matcher.prepared with
  | mk found after =>
    cases found with
    | true =>
      rw [searched] at failed
      cases failed
    | false => exact (Graph.search_failed searched).2.slots_eq

/-- For every pattern and text, a call that fails leaves the registers as it found them, except
that it may have noted the end of the window, whatever its goal is and whatever waits behind it.
So does a search as a whole, which does not move its window either. After a failed search every
slot of every group is therefore unset, whatever the matcher held before. -/
theorem failed_call_restores (matcher : Matcher) :
    (∀ window goal index cont registers after,
        matcher.pattern.graph.run matcher.text window goal index cont registers = (false, after) →
          registers.Restored after) ∧
      (∀ start state after,
        matcher.pattern.graph.search matcher.text start state = (false, after) →
          after.window = state.window ∧ state.registers.Restored after.registers) ∧
      ∀ start, (matcher.searchFrom start).1 = false →
        let before := matcher.state.registers.slots
        let after := (matcher.searchFrom start).2.state.registers.slots
        after.starts = .replicate before.starts.size unset ∧
          after.stops = .replicate before.stops.size unset := by
  refine ⟨?_, ?_, ?_⟩
  · intro window goal index cont registers after failed
    exact Graph.run_failed failed
  · intro start state after failed
    exact Graph.search_failed failed
  · intro start failed before after
    have cleared : after = before.clear := matcher.slots_searchFrom_failed failed
    exact ⟨congrArg Slots.starts cleared, congrArg Slots.stops cleared⟩

end PatternSearch
