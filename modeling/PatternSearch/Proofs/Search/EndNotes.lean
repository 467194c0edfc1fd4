import PatternSearch.Proofs.Search.Termination

/-! Notes that the end of the window was reached. Whatever else a search takes back, it keeps such
a note: one step passes the note on to the calls that it asks and back to its own answer. A search
that noted no end has therefore asked no call that did. A scan that fails has come to the end. -/

namespace PatternSearch

def Registers.KeepsNote (before after : Registers) : Prop :=
  before.reachedEnd = true → after.reachedEnd = true

theorem Registers.KeepsNote.refl (registers : Registers) : registers.KeepsNote registers := id

theorem Registers.KeepsNote.trans {before middle after : Registers}
    (first : before.KeepsNote middle) (second : middle.KeepsNote after) :
    before.KeepsNote after := second ∘ first

theorem Registers.keepsNote_reachEnd (registers : Registers) :
    registers.KeepsNote registers.reachEnd := fun _ => rfl

namespace Step

def KeepsNote (before : Registers) : Step → Prop
  | answer result => before.KeepsNote result.2
  | ask call resume =>
      before.KeepsNote call.registers ∧
        ∀ result, call.registers.KeepsNote result.2 → (resume result).KeepsNote result.2

variable {before : Registers} {call : Call} {otherwise : Registers → Step} {respond : Call → Answer}

theorem keepsNote_tail (kept : before.KeepsNote call.registers) : (tail call).KeepsNote before :=
  ⟨kept, fun _ _ => .refl _⟩

theorem keepsNote_orElse (kept : before.KeepsNote call.registers)
    (rest : ∀ after, (otherwise after).KeepsNote after) :
    (orElse call otherwise).KeepsNote before := by
  refine ⟨kept, ?_⟩
  rintro ⟨succeeded, after⟩ _
  cases succeeded with
  | true => exact Registers.KeepsNote.refl after
  | false => exact rest after

theorem KeepsNote.value {step : Step} (keeps : step.KeepsNote before)
    (asked : ∀ next ∈ step.asked respond, next.registers.KeepsNote (respond next).2) :
    before.KeepsNote (step.value respond).2 ∧
      ∀ next ∈ step.asked respond, (respond next).2.KeepsNote (step.value respond).2 := by
  induction step generalizing before with
  | answer result => exact ⟨keeps, nofun⟩
  | ask call resume ih =>
    have own := asked call (List.mem_cons_self ..)
    obtain ⟨first, others⟩ := ih _ (keeps.2 _ own) fun next member =>
      asked next (List.mem_cons_of_mem _ member)
    refine ⟨(keeps.1.trans own).trans first, ?_⟩
    intro next member
    rcases List.mem_cons.mp member with rfl | later
    · exact first
    · exact others next later

end Step

namespace Graph

open Registers

variable {graph : Graph} {text : Array Char} {window : Window} {index : Nat}
  {cont : Continuation} {registers : Registers}

theorem step_visit_keepsNote (id : Nat) :
    (graph.step text window ⟨.visit id, index, cont, registers⟩).KeepsNote registers := by
  cases found : graph.node id with
  | last =>
    simp only [step, found]
    cases cont with
    | done => exact KeepsNote.refl registers
    | resume next parent => exact Step.keepsNote_tail (.refl _)
    | loop repeated count start parent =>
      dsimp only
      split
      · exact KeepsNote.refl registers
      · exact Step.keepsNote_tail (.refl _)
  | start next =>
    simp only [step, found]
    exact Step.keepsNote_tail (.refl _)
  | char test next =>
    simp only [step, found]
    split
    · split
      · exact Step.keepsNote_tail (.refl _)
      · exact KeepsNote.refl registers
    · exact keepsNote_reachEnd registers
  | atStart next =>
    simp only [step, found]
    split
    · exact Step.keepsNote_tail (.refl _)
    · exact KeepsNote.refl registers
  | atEnd next =>
    simp only [step, found]
    split
    · exact Step.keepsNote_tail (.refl _)
    · exact KeepsNote.refl registers
  | loop repeated =>
    simp only [step, found]
    exact Step.keepsNote_tail (.refl _)
  | groupHead group next =>
    simp only [step, found]
    exact Step.keepsNote_orElse (KeepsNote.refl registers) fun after => KeepsNote.refl after
  | groupTail group next =>
    simp only [step, found]
    exact Step.keepsNote_orElse (KeepsNote.refl registers) fun after => KeepsNote.refl after
  | branch alternatives next =>
    simp only [step, found]
    exact Step.keepsNote_tail (.refl _)
  | backreference group next =>
    simp only [step, found]
    split
    · exact KeepsNote.refl registers
    · split
      · exact keepsNote_reachEnd registers
      · split
        · exact Step.keepsNote_tail (.refl _)
        · exact KeepsNote.refl registers

theorem step_iterate_keepsNote (repeated : Loop) (count : Nat) :
    (graph.step text window ⟨.iterate repeated count, index, cont, registers⟩).KeepsNote
      registers := by
  simp only [step]
  split
  · exact Step.keepsNote_tail (.refl _)
  · split
    · split
      · exact Step.keepsNote_orElse (.refl _) fun after => Step.keepsNote_tail (.refl after)
      · exact Step.keepsNote_tail (.refl _)
    · refine Step.keepsNote_orElse (.refl _) fun after => ?_
      split
      · exact Step.keepsNote_tail (.refl after)
      · exact KeepsNote.refl after

theorem step_keepsNote (call : Call) :
    (graph.step text window call).KeepsNote call.registers := by
  obtain ⟨goal, index, cont, registers⟩ := call
  cases goal with
  | visit id => exact step_visit_keepsNote id
  | iterate repeated count => exact step_iterate_keepsNote repeated count
  | choose ids =>
    cases ids with
    | nil => exact KeepsNote.refl registers
    | cons id ids =>
      exact Step.keepsNote_orElse (.refl _) fun after => Step.keepsNote_tail (.refl after)
  | scan next =>
    simp only [step]
    split
    · refine ⟨.refl _, ?_⟩
      rintro ⟨succeeded, after⟩ _
      cases succeeded with
      | true => exact KeepsNote.refl after
      | false => exact Step.keepsNote_tail (.refl after)
    · exact keepsNote_reachEnd registers

theorem answer_keepsNote (call : Call) :
    call.registers.KeepsNote (graph.answer text window call).2 := by
  induction call using call_induction graph text window with
  | advance call asked =>
    rw [answer_eq_value]
    exact ((step_keepsNote call).value asked).1

/-- A call that noted no end has asked no call that did. -/
theorem reachedEnd_of_asked {call next : Call}
    (asked : next ∈ (graph.step text window call).asked (graph.answer text window))
    (unnoted : (graph.answer text window call).2.reachedEnd = false) :
    (graph.answer text window next).2.reachedEnd = false := by
  have kept : (graph.answer text window next).2.KeepsNote (graph.answer text window call).2 := by
    rw [answer_eq_value call]
    exact ((step_keepsNote call).value fun next _ => answer_keepsNote next).2 next asked
  rw [← Bool.not_eq_true] at unnoted ⊢
  exact fun noted => unnoted (kept noted)

theorem reachedEnd_of_scan_failed {next : Nat}
    (failed : (graph.answer text window ⟨.scan next, index, cont, registers⟩).1 = false) :
    (graph.answer text window ⟨.scan next, index, cont, registers⟩).2.reachedEnd = true := by
  induction left : window.stop + 1 - index generalizing index registers with
  | zero =>
    have beyond : ¬index ≤ window.stop := by omega
    rw [answer_eq_value]
    simp only [step, if_neg beyond, Step.value_answer]
    rfl
  | succ left ih =>
    have inside : index ≤ window.stop := by omega
    rw [answer_eq_value] at failed ⊢
    simp only [step, if_pos inside, Step.value] at failed ⊢
    cases tried : graph.answer text window ⟨.visit next, index, cont, registers⟩ with
    | mk succeeded after =>
      rw [tried] at failed
      cases succeeded with
      | true => cases failed
      | false => exact ih failed (by omega)

end Graph

namespace Matcher

variable {matcher : Matcher} {start : Nat}

theorem reachedEnd_searchFrom (matcher : Matcher) (start : Nat) :
    (matcher.searchFrom start).2.reachedEnd =
      (matcher.pattern.graph.answer matcher.text matcher.prepared.window
        (matcher.firstCall start)).2.reachedEnd := by
  unfold searchFrom Graph.search Graph.answer firstCall
  rcases matcher.pattern.graph.run _ _ _ _ _ _ with ⟨_ | _, registers⟩ <;> rfl

/-- A search fails only after it has looked for a match up to the end of the text. -/
theorem reachedEnd_searchFrom_failed (failed : (matcher.searchFrom start).1 = false) :
    (matcher.searchFrom start).2.reachedEnd = true := by
  obtain ⟨first, root⟩ := matcher.pattern.rooted
  have scans : matcher.pattern.graph.answer matcher.text matcher.prepared.window
      (matcher.firstCall start) = matcher.pattern.graph.answer matcher.text matcher.prepared.window
        ⟨.scan first, start, .done, matcher.prepared.registers⟩ := by
    rw [Graph.answer_eq_value]
    simp only [firstCall, Graph.step, root, Step.value_tail]
  rw [searchFrom_eq_answer, scans] at failed
  rw [reachedEnd_searchFrom, scans]
  exact Graph.reachedEnd_of_scan_failed failed

end Matcher

end PatternSearch
