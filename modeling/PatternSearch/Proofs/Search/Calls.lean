import PatternSearch.Search.Run

/-! The calls that a search makes of itself. `Graph.step` says what one call does: it answers,
or it asks another call and goes on with that call's answer. `Graph.run` is the fixed point of
this step, and so is every other reading of the search: the calls that are made at all, and
a search that may only nest its calls to a given depth. -/

namespace PatternSearch

structure Call where
  goal : Goal
  index : Nat
  cont : Continuation
  registers : Registers

abbrev Answer := Bool × Registers

def Answer.orElse (answer : Answer) (otherwise : Registers → Answer) : Answer :=
  match answer with
  | (true, after) => (true, after)
  | (false, after) => otherwise after

theorem Answer.orElse_congr {answer : Answer} {first second : Registers → Answer}
    (agree : ∀ after, answer = (false, after) → first after = second after) :
    answer.orElse first = answer.orElse second := by
  obtain ⟨succeeded, after⟩ := answer
  cases succeeded with
  | true => rfl
  | false => exact agree after rfl

inductive Step where
  | answer (result : Answer)
  | ask (call : Call) (resume : Answer → Step)

namespace Step

def tail (call : Call) : Step := ask call answer

/-- Tries `call`, and goes on with the registers that its failure leaves. -/
def orElse (call : Call) (otherwise : Registers → Step) : Step :=
  ask call fun
    | (true, after) => answer (true, after)
    | (false, after) => otherwise after

/-- The answer when every call that is asked is answered by `respond`. -/
def value (respond : Call → Answer) : Step → Answer
  | answer result => result
  | ask call resume => (resume (respond call)).value respond

def asked (respond : Call → Answer) : Step → List Call
  | answer _ => []
  | ask call resume => call :: (resume (respond call)).asked respond

def value? (respond : Call → Option Answer) : Step → Option Answer
  | answer result => some result
  | ask call resume => (respond call).bind fun result => (resume result).value? respond

def All (property : Call → Prop) : Step → Prop
  | answer _ => True
  | ask call resume => property call ∧ ∀ result, (resume result).All property

variable {respond : Call → Answer} {property : Call → Prop} {call : Call}
  {otherwise : Registers → Step}

@[simp] theorem value_answer (result : Answer) : (answer result).value respond = result := rfl

@[simp] theorem value_tail : (tail call).value respond = respond call := rfl

@[simp] theorem value_orElse :
    (orElse call otherwise).value respond =
      (respond call).orElse fun after => (otherwise after).value respond := by
  simp only [orElse, value, Answer.orElse]
  split <;> rfl

@[simp] theorem all_answer (result : Answer) : (answer result).All property := trivial

@[simp] theorem all_tail : (tail call).All property ↔ property call :=
  ⟨fun every => every.1, fun holds => ⟨holds, fun _ => trivial⟩⟩

@[simp] theorem all_orElse :
    (orElse call otherwise).All property ↔
      property call ∧ ∀ after, (otherwise after).All property := by
  constructor
  · intro every
    exact ⟨every.1, fun after => every.2 (false, after)⟩
  · rintro ⟨holds, rest⟩
    refine ⟨holds, ?_⟩
    rintro ⟨succeeded, after⟩
    cases succeeded with
    | true => trivial
    | false => exact rest after

theorem All.of_asked {step : Step} (every : step.All property) :
    ∀ next ∈ step.asked respond, property next := by
  induction step with
  | answer result => simp [asked]
  | ask call resume ih =>
    intro next member
    rcases List.mem_cons.mp member with rfl | later
    · exact every.1
    · exact ih _ (every.2 _) next later

theorem value?_eq_value {partialRespond : Call → Option Answer} (step : Step)
    (agreed : ∀ call ∈ step.asked respond, partialRespond call = some (respond call)) :
    step.value? partialRespond = some (step.value respond) := by
  induction step with
  | answer result => rfl
  | ask call resume ih =>
    have first := agreed call (List.mem_cons_self ..)
    simp only [value?, first, Option.bind_some, value]
    apply ih
    intro later member
    exact agreed later (List.mem_cons_of_mem _ member)

end Step

namespace Graph

def step (graph : Graph) (text : Array Char) (window : Window) : Call → Step
  | ⟨.visit id, index, cont, registers⟩ =>
      match graph.node id with
      | .last =>
          match cont with
          | .done => .answer (true, registers.stopAt index)
          | .resume next parent => .tail ⟨.visit next, index, parent, registers⟩
          | .loop repeated count start parent =>
              if repeated.quantifier.min < count ∧ index = start then .answer (false, registers)
              else .tail ⟨.iterate repeated count, index, parent, registers⟩
      | .start next => .tail ⟨.scan next, index, cont, registers⟩
      | .char test next =>
          if index < window.stop then
            if text[index]?.any test.accepts then
              .tail ⟨.visit next, index + 1, cont, registers⟩
            else .answer (false, registers)
          else .answer (false, registers.reachEnd)
      | .atStart next =>
          if index = window.start then .tail ⟨.visit next, index, cont, registers⟩
          else .answer (false, registers)
      | .atEnd next =>
          if index = window.stop then .tail ⟨.visit next, index, cont, registers⟩
          else .answer (false, registers)
      | .loop repeated => .tail ⟨.iterate repeated 0, index, cont, registers⟩
      | .groupHead group next =>
          .orElse ⟨.visit next, index, cont, registers.setStart group index⟩ fun after =>
            .answer (false, after.setStart group (registers.slots.start group))
      | .groupTail group next =>
          .orElse ⟨.visit next, index, cont, registers.setStop group index⟩ fun after =>
            .answer (false, after.setStop group (registers.slots.stop group))
      | .branch alternatives next =>
          .tail ⟨.choose alternatives, index, .resume next cont, registers⟩
      | .backreference group next =>
          match registers.slots.span group with
          | none => .answer (false, registers)
          | some (start, stop) =>
              let beyond := index + (stop - start)
              if window.stop < beyond then .answer (false, registers.reachEnd)
              else if text.extract start stop = text.extract index beyond then
                .tail ⟨.visit next, beyond, cont, registers⟩
              else .answer (false, registers)
  | ⟨.choose [], _, _, registers⟩ => .answer (false, registers)
  | ⟨.choose (id :: ids), index, cont, registers⟩ =>
      .orElse ⟨.visit id, index, cont, registers⟩ fun after =>
        .tail ⟨.choose ids, index, cont, after⟩
  | ⟨.iterate repeated count, index, cont, registers⟩ =>
      let again := Continuation.loop repeated (count + 1) index cont
      if count < repeated.quantifier.min then
        .tail ⟨.visit repeated.body, index, again, registers⟩
      else if repeated.quantifier.greedy then
        if repeated.quantifier.allowsMore count then
          .orElse ⟨.visit repeated.body, index, again, registers⟩ fun after =>
            .tail ⟨.visit repeated.next, index, cont, after⟩
        else .tail ⟨.visit repeated.next, index, cont, registers⟩
      else
        .orElse ⟨.visit repeated.next, index, cont, registers⟩ fun after =>
          if repeated.quantifier.allowsMore count then
            .tail ⟨.visit repeated.body, index, again, after⟩
          else .answer (false, after)
  | ⟨.scan next, index, cont, registers⟩ =>
      if index ≤ window.stop then
        .ask ⟨.visit next, index, cont, registers⟩ fun
          | (true, after) => .answer (true, after.succeed index)
          | (false, after) => .tail ⟨.scan next, index + 1, cont, after⟩
      else .answer (false, registers.reachEnd)

def answer (graph : Graph) (text : Array Char) (window : Window) (call : Call) : Answer :=
  graph.run text window call.goal call.index call.cont call.registers

variable {graph : Graph} {text : Array Char} {window : Window}

/-- A search is the fixed point of its step. -/
theorem answer_eq_value (call : Call) :
    graph.answer text window call =
      (graph.step text window call).value (graph.answer text window) := by
  obtain ⟨goal, index, cont, registers⟩ := call
  simp only [answer]
  rw [run.eq_def]
  cases goal with
  | visit id =>
    simp only [step]
    split
    · next found =>
      simp only [found]
      cases cont with
      | done => rfl
      | resume next parent => rfl
      | loop repeated count start parent =>
        dsimp only
        split <;> rfl
    · next found => simp only [found, Step.value_tail, answer]
    · next found =>
      simp only [found, apply_ite (Step.value _), Step.value_tail, Step.value_answer, answer]
    · next found =>
      simp only [found, apply_ite (Step.value _), Step.value_tail, Step.value_answer, answer]
    · next found =>
      simp only [found, apply_ite (Step.value _), Step.value_tail, Step.value_answer, answer]
    · next found => simp only [found, Step.value_tail, answer]
    · next found =>
      simp only [found, Step.value_orElse, answer]
      rfl
    · next found =>
      simp only [found, Step.value_orElse, answer]
      rfl
    · next found => simp only [found, Step.value_tail, answer]
    · next group next found =>
      simp only [found]
      cases registers.slots.span group with
      | none => rfl
      | some span =>
        simp only [apply_ite (Step.value _), Step.value_tail, Step.value_answer, answer]
  | choose ids =>
    cases ids with
    | nil => rfl
    | cons id ids =>
      simp only [step, Step.value_orElse, answer, Step.value_tail]
      rfl
  | iterate repeated count =>
    simp only [step]
    by_cases forced : count < repeated.quantifier.min
    · rw [if_pos forced, if_pos forced, Step.value_tail, answer]
    · rw [if_neg forced, if_neg forced]
      by_cases greedy : repeated.quantifier.greedy
      · rw [if_pos greedy, if_pos greedy]
        split
        · simp only [Step.value_orElse, answer, Step.value_tail]
          rfl
        · rw [Step.value_tail, answer]
      · rw [if_neg greedy, if_neg greedy, Step.value_orElse]
        simp only [answer, apply_ite (Step.value _), Step.value_tail, Step.value_answer]
        rfl
  | scan next =>
    simp only [step]
    by_cases inside : index ≤ window.stop
    · rw [if_pos inside, if_pos inside]
      simp only [Step.value, answer]
      split <;> simp_all [answer]
    · rw [if_neg inside, if_neg inside, Step.value_answer]

/-- The calls that a search makes after its `first` call. -/
inductive Reached (graph : Graph) (text : Array Char) (window : Window) (first : Call) :
    Call → Prop where
  | first : Reached graph text window first first
  | asked {call next : Call} (reached : Reached graph text window first call)
      (asked : next ∈ (graph.step text window call).asked (graph.answer text window)) :
      Reached graph text window first next

/-- What every step keeps holds of every call of a search. -/
theorem Reached.preserves {property : Call → Prop}
    (kept : ∀ call, property call → (graph.step text window call).All property)
    {first call : Call} (initial : property first)
    (reached : Reached graph text window first call) : property call := by
  induction reached with
  | first => exact initial
  | asked _ asked ih => exact (kept _ ih).of_asked _ asked

end Graph

end PatternSearch
