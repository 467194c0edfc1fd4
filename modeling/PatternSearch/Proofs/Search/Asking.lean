import PatternSearch.Proofs.Search.Rollback

/-! Which calls a call asks. `Call.Asks` lists them once for every kind of goal and node, with
what was tested before: a call that follows a failure finds the registers as the failure leaves
them, which is as they were but for a note on the end. What a search keeps is shown from this list.
A call that succeeds, other than the last one and a scan, answers what a call that it asked
answers. -/

namespace PatternSearch

/-- The calls that a visit asks, by the node that it visits. -/
inductive Node.Asks (text : Array Char) (window : Window) :
    Node → Nat → Continuation → Registers → Call → Prop where
  | resume {index next : Nat} {parent : Continuation} {registers : Registers} :
      Asks text window .last index (.resume next parent) registers
        ⟨.visit next, index, parent, registers⟩
  | again {index count start : Nat} {repeated : Loop} {parent : Continuation}
      {registers : Registers} (fresh : ¬(repeated.quantifier.min < count ∧ index = start)) :
      Asks text window .last index (.loop repeated count start parent) registers
        ⟨.iterate repeated count, index, parent, registers⟩
  | start {index next : Nat} {cont : Continuation} {registers : Registers} :
      Asks text window (.start next) index cont registers ⟨.scan next, index, cont, registers⟩
  | char {index next : Nat} {test : Predicate} {cont : Continuation} {registers : Registers}
      (before : index < window.stop) (accepted : text[index]?.any test.accepts = true) :
      Asks text window (.char test next) index cont registers
        ⟨.visit next, index + 1, cont, registers⟩
  | atStart {index next : Nat} {cont : Continuation} {registers : Registers}
      (here : index = window.start) :
      Asks text window (.atStart next) index cont registers ⟨.visit next, index, cont, registers⟩
  | atEnd {index next : Nat} {cont : Continuation} {registers : Registers}
      (here : index = window.stop) :
      Asks text window (.atEnd next) index cont registers ⟨.visit next, index, cont, registers⟩
  | loop {index : Nat} {repeated : Loop} {cont : Continuation} {registers : Registers} :
      Asks text window (.loop repeated) index cont registers
        ⟨.iterate repeated 0, index, cont, registers⟩
  | groupHead {index group next : Nat} {cont : Continuation} {registers : Registers} :
      Asks text window (.groupHead group next) index cont registers
        ⟨.visit next, index, cont, registers.setStart group index⟩
  | groupTail {index group next : Nat} {cont : Continuation} {registers : Registers} :
      Asks text window (.groupTail group next) index cont registers
        ⟨.visit next, index, cont, registers.setStop group index⟩
  | branch {index next : Nat} {alternatives : List Nat} {cont : Continuation}
      {registers : Registers} :
      Asks text window (.branch alternatives next) index cont registers
        ⟨.choose alternatives, index, .resume next cont, registers⟩
  | backreference {index group next start stop : Nat} {cont : Continuation}
      {registers : Registers} (held : registers.slots.span group = some (start, stop))
      (fits : index + (stop - start) ≤ window.stop)
      (repeats : text.extract start stop = text.extract index (index + (stop - start))) :
      Asks text window (.backreference group next) index cont registers
        ⟨.visit next, index + (stop - start), cont, registers⟩

inductive Call.Asks (graph : Graph) (text : Array Char) (window : Window) : Call → Call → Prop where
  | visit {id index : Nat} {cont : Continuation} {registers : Registers} {next : Call}
      (asks : (graph.node id).Asks text window index cont registers next) :
      Asks graph text window ⟨.visit id, index, cont, registers⟩ next
  | choose {id index : Nat} {ids : List Nat} {cont : Continuation} {registers : Registers} :
      Asks graph text window ⟨.choose (id :: ids), index, cont, registers⟩
        ⟨.visit id, index, cont, registers⟩
  | others {id index : Nat} {ids : List Nat} {cont : Continuation} {registers after : Registers}
      (restored : registers.Restored after) :
      Asks graph text window ⟨.choose (id :: ids), index, cont, registers⟩
        ⟨.choose ids, index, cont, after⟩
  | forced {repeated : Loop} {count index : Nat} {cont : Continuation} {registers : Registers}
      (few : count < repeated.quantifier.min) :
      Asks graph text window ⟨.iterate repeated count, index, cont, registers⟩
        ⟨.visit repeated.body, index, .loop repeated (count + 1) index cont, registers⟩
  | more {repeated : Loop} {count index : Nat} {cont : Continuation} {registers after : Registers}
      (enough : ¬count < repeated.quantifier.min)
      (allowed : repeated.quantifier.allowsMore count = true)
      (restored : registers.Restored after) :
      Asks graph text window ⟨.iterate repeated count, index, cont, registers⟩
        ⟨.visit repeated.body, index, .loop repeated (count + 1) index cont, after⟩
  | leave {repeated : Loop} {count index : Nat} {cont : Continuation}
      {registers after : Registers} (enough : ¬count < repeated.quantifier.min)
      (restored : registers.Restored after) :
      Asks graph text window ⟨.iterate repeated count, index, cont, registers⟩
        ⟨.visit repeated.next, index, cont, after⟩
  | attempt {next index : Nat} {cont : Continuation} {registers : Registers}
      (inside : index ≤ window.stop) :
      Asks graph text window ⟨.scan next, index, cont, registers⟩
        ⟨.visit next, index, cont, registers⟩
  | onward {next index : Nat} {cont : Continuation} {registers after : Registers}
      (inside : index ≤ window.stop) (restored : registers.Restored after) :
      Asks graph text window ⟨.scan next, index, cont, registers⟩
        ⟨.scan next, index + 1, cont, after⟩

namespace Step

/-- Whether every call that can be asked has a property, as long as failures are clean. -/
def Allows (property : Call → Prop) : Step → Prop
  | answer _ => True
  | ask call resume =>
      property call ∧ ∀ result, Answer.Clean call.registers result → (resume result).Allows property

def HandsOn : Step → Prop
  | answer result => result.1 = false
  | ask _ resume =>
      ∀ result, (result.1 = true → resume result = answer result) ∧
        (result.1 = false → (resume result).HandsOn)

variable {respond : Call → Answer} {property : Call → Prop} {call : Call}
  {otherwise : Registers → Step}

theorem allows_tail (holds : property call) : (tail call).Allows property :=
  ⟨holds, fun _ _ => trivial⟩

theorem allows_orElse (holds : property call)
    (rest : ∀ after, call.registers.Restored after → (otherwise after).Allows property) :
    (orElse call otherwise).Allows property := by
  refine ⟨holds, ?_⟩
  rintro ⟨succeeded, after⟩ clean
  cases succeeded with
  | true => trivial
  | false => exact rest after (clean rfl)

theorem Allows.of_asked {step : Step} (allows : step.Allows property)
    (clean : ∀ next, Answer.Clean next.registers (respond next)) :
    ∀ next ∈ step.asked respond, property next := by
  induction step with
  | answer result => nofun
  | ask call resume ih =>
    intro next member
    rcases List.mem_cons.mp member with rfl | later
    · exact allows.1
    · exact ih _ (allows.2 _ (clean call)) next later

theorem handsOn_tail : (tail call).HandsOn :=
  fun _ => ⟨fun _ => rfl, fun failed => failed⟩

theorem handsOn_orElse (rest : ∀ after, (otherwise after).HandsOn) :
    (orElse call otherwise).HandsOn := by
  rintro ⟨succeeded, after⟩
  cases succeeded with
  | true => exact ⟨fun _ => rfl, nofun⟩
  | false => exact ⟨nofun, fun _ => rest after⟩

theorem handsOn_fail {after : Registers} : (answer (false, after)).HandsOn := rfl

theorem HandsOn.exists_asked {step : Step} (hands : step.HandsOn)
    (succeeded : (step.value respond).1 = true) :
    ∃ next ∈ step.asked respond, respond next = step.value respond := by
  induction step with
  | answer result =>
    have failed : result.1 = false := hands
    rw [value, failed] at succeeded
    cases succeeded
  | ask call resume ih =>
    cases outcome : (respond call).1 with
    | true =>
      refine ⟨call, List.mem_cons_self .., ?_⟩
      rw [value, (hands (respond call)).1 outcome]
      rfl
    | false =>
      obtain ⟨next, member, same⟩ := ih _ ((hands (respond call)).2 outcome) succeeded
      exact ⟨next, List.mem_cons_of_mem _ member, same⟩

end Step

namespace Graph

variable {graph : Graph} {text : Array Char} {window : Window} {index : Nat}
  {cont : Continuation} {registers : Registers}

theorem step_visit_allows (id : Nat) :
    (graph.step text window ⟨.visit id, index, cont, registers⟩).Allows
      (Call.Asks graph text window ⟨.visit id, index, cont, registers⟩) := by
  have visit : ∀ {next}, (graph.node id).Asks text window index cont registers next →
      Call.Asks graph text window ⟨.visit id, index, cont, registers⟩ next := .visit
  simp only [step]
  cases found : graph.node id with
  | last =>
    rw [found] at visit
    cases cont with
    | done => trivial
    | resume next parent => exact Step.allows_tail (visit .resume)
    | loop repeated count start parent =>
      dsimp only
      split
      · trivial
      · next fresh => exact Step.allows_tail (visit (.again fresh))
  | start next =>
    rw [found] at visit
    exact Step.allows_tail (visit .start)
  | char test next =>
    rw [found] at visit
    dsimp only
    split
    · next before =>
      split
      · next accepted => exact Step.allows_tail (visit (.char before accepted))
      · trivial
    · trivial
  | atStart next =>
    rw [found] at visit
    dsimp only
    split
    · next here => exact Step.allows_tail (visit (.atStart here))
    · trivial
  | atEnd next =>
    rw [found] at visit
    dsimp only
    split
    · next here => exact Step.allows_tail (visit (.atEnd here))
    · trivial
  | loop repeated =>
    rw [found] at visit
    exact Step.allows_tail (visit .loop)
  | groupHead group next =>
    rw [found] at visit
    exact Step.allows_orElse (visit .groupHead) fun _ _ => trivial
  | groupTail group next =>
    rw [found] at visit
    exact Step.allows_orElse (visit .groupTail) fun _ _ => trivial
  | branch alternatives next =>
    rw [found] at visit
    exact Step.allows_tail (visit .branch)
  | backreference group next =>
    rw [found] at visit
    dsimp only
    split
    · trivial
    · next held =>
      split
      · trivial
      · next fits =>
        split
        · next repeats =>
          exact Step.allows_tail (visit (.backreference held (Nat.not_lt.mp fits) repeats))
        · trivial

theorem step_iterate_allows (repeated : Loop) (count : Nat) :
    (graph.step text window ⟨.iterate repeated count, index, cont, registers⟩).Allows
      (Call.Asks graph text window ⟨.iterate repeated count, index, cont, registers⟩) := by
  simp only [step]
  split
  · next few => exact Step.allows_tail (.forced few)
  · next enough =>
    split
    · split
      · next allowed =>
        exact Step.allows_orElse (.more enough allowed (.refl _)) fun after restored =>
          Step.allows_tail (.leave enough restored)
      · exact Step.allows_tail (.leave enough (.refl _))
    · refine Step.allows_orElse (.leave enough (.refl _)) fun after restored => ?_
      split
      · next allowed => exact Step.allows_tail (.more enough allowed restored)
      · trivial

theorem step_allows (call : Call) :
    (graph.step text window call).Allows (call.Asks graph text window) := by
  obtain ⟨goal, index, cont, registers⟩ := call
  cases goal with
  | visit id => exact step_visit_allows id
  | iterate repeated count => exact step_iterate_allows repeated count
  | choose ids =>
    cases ids with
    | nil => trivial
    | cons id ids =>
      exact Step.allows_orElse .choose fun after restored => Step.allows_tail (.others restored)
  | scan next =>
    simp only [step]
    split
    · next inside =>
      refine ⟨.attempt inside, ?_⟩
      rintro ⟨succeeded, after⟩ clean
      cases succeeded with
      | true => trivial
      | false => exact Step.allows_tail (.onward inside (clean rfl))
    · trivial

theorem asks_of_asked {call next : Call}
    (asked : next ∈ (graph.step text window call).asked (graph.answer text window)) :
    call.Asks graph text window next :=
  (step_allows call).of_asked answer_clean next asked

theorem Reached.keeps {property : Call → Prop}
    (kept : ∀ call next, call.Asks graph text window next → property call → property next)
    {first call : Call} (initial : property first)
    (reached : Reached graph text window first call) : property call := by
  induction reached with
  | first => exact initial
  | asked _ asked ih => exact kept _ _ (asks_of_asked asked) ih

theorem step_visit_handsOn {id : Nat} (unfinished : graph.node id = .last → cont ≠ .done) :
    (graph.step text window ⟨.visit id, index, cont, registers⟩).HandsOn := by
  simp only [step]
  cases found : graph.node id with
  | last =>
    cases cont with
    | done => exact absurd rfl (unfinished found)
    | resume next parent => exact Step.handsOn_tail
    | loop repeated count start parent =>
      dsimp only
      split
      · exact Step.handsOn_fail
      · exact Step.handsOn_tail
  | start next => exact Step.handsOn_tail
  | char test next =>
    dsimp only
    split
    · split
      · exact Step.handsOn_tail
      · exact Step.handsOn_fail
    · exact Step.handsOn_fail
  | atStart next =>
    dsimp only
    split
    · exact Step.handsOn_tail
    · exact Step.handsOn_fail
  | atEnd next =>
    dsimp only
    split
    · exact Step.handsOn_tail
    · exact Step.handsOn_fail
  | loop repeated => exact Step.handsOn_tail
  | groupHead group next => exact Step.handsOn_orElse fun _ => Step.handsOn_fail
  | groupTail group next => exact Step.handsOn_orElse fun _ => Step.handsOn_fail
  | branch alternatives next => exact Step.handsOn_tail
  | backreference group next =>
    dsimp only
    split
    · exact Step.handsOn_fail
    · split
      · exact Step.handsOn_fail
      · split
        · exact Step.handsOn_tail
        · exact Step.handsOn_fail

theorem step_iterate_handsOn (repeated : Loop) (count : Nat) :
    (graph.step text window ⟨.iterate repeated count, index, cont, registers⟩).HandsOn := by
  simp only [step]
  split
  · exact Step.handsOn_tail
  · split
    · split
      · exact Step.handsOn_orElse fun _ => Step.handsOn_tail
      · exact Step.handsOn_tail
    · refine Step.handsOn_orElse fun _ => ?_
      split
      · exact Step.handsOn_tail
      · exact Step.handsOn_fail

theorem step_choose_handsOn (ids : List Nat) :
    (graph.step text window ⟨.choose ids, index, cont, registers⟩).HandsOn := by
  cases ids with
  | nil => exact Step.handsOn_fail
  | cons id ids => exact Step.handsOn_orElse fun _ => Step.handsOn_tail

def Succeeds (graph : Graph) (text : Array Char) (window : Window) (call : Call) : Prop :=
  (graph.answer text window call).1 = true

theorem Succeeds.of_answer {call next : Call} (succeeds : graph.Succeeds text window call)
    (same : graph.answer text window next = graph.answer text window call) :
    graph.Succeeds text window next := by
  unfold Succeeds
  rw [same]
  exact succeeds

/-- A success is handed on from a call that was asked. -/
theorem Succeeds.exists_asked {call : Call} (succeeds : graph.Succeeds text window call)
    (hands : (graph.step text window call).HandsOn) :
    ∃ next ∈ (graph.step text window call).asked (graph.answer text window),
      graph.answer text window next = graph.answer text window call := by
  unfold Succeeds at succeeds
  rw [answer_eq_value] at succeeds ⊢
  exact hands.exists_asked succeeds

theorem answer_finished {id : Nat} (found : graph.node id = .last) :
    graph.answer text window ⟨.visit id, index, .done, registers⟩ =
      (true, registers.stopAt index) := by
  rw [answer_eq_value]
  simp only [step, found, Step.value_answer]

theorem Succeeds.scan {next : Nat}
    (succeeds : graph.Succeeds text window ⟨.scan next, index, cont, registers⟩) :
    index ≤ window.stop ∧
      (⟨.visit next, index, cont, registers⟩ ∈
          (graph.step text window ⟨.scan next, index, cont, registers⟩).asked
            (graph.answer text window) ∧
        graph.Succeeds text window ⟨.visit next, index, cont, registers⟩ ∧
        graph.answer text window ⟨.scan next, index, cont, registers⟩ =
          (true, (graph.answer text window
            ⟨.visit next, index, cont, registers⟩).2.succeed index) ∨
      ∃ after, registers.Restored after ∧
        ⟨.scan next, index + 1, cont, after⟩ ∈
          (graph.step text window ⟨.scan next, index, cont, registers⟩).asked
            (graph.answer text window) ∧
        graph.answer text window ⟨.scan next, index + 1, cont, after⟩ =
          graph.answer text window ⟨.scan next, index, cont, registers⟩) := by
  have clean : Answer.Clean registers
      (graph.answer text window ⟨.visit next, index, cont, registers⟩) := answer_clean _
  have answered : graph.answer text window ⟨.scan next, index, cont, registers⟩ = _ :=
    answer_eq_value _
  by_cases inside : index ≤ window.stop
  · refine ⟨inside, ?_⟩
    simp only [step, if_pos inside, Step.value] at answered
    simp only [step, if_pos inside, Step.asked, Succeeds]
    cases tried : graph.answer text window ⟨.visit next, index, cont, registers⟩ with
    | mk found after =>
      rw [tried] at answered clean
      cases found with
      | true => exact .inl ⟨List.mem_cons_self .., rfl, answered⟩
      | false =>
        have onward : ⟨.scan next, index + 1, cont, after⟩ ∈
            (Step.tail ⟨.scan next, index + 1, cont, after⟩).asked (graph.answer text window) :=
          List.mem_singleton_self _
        exact .inr ⟨after, clean rfl, List.mem_cons_of_mem _ onward, answered.symm⟩
  · simp only [step, if_neg inside, Step.value_answer] at answered
    rw [Succeeds, answered] at succeeds
    cases succeeds

/-- How a call can succeed: it ends the pattern, it answers what a call that it asked answers, or
it reports where the walk that it asked for began. -/
theorem Succeeds.elim {call : Call} {conclusion : Prop}
    (succeeds : graph.Succeeds text window call)
    (finished : ∀ id index registers, call = ⟨.visit id, index, .done, registers⟩ →
      graph.node id = .last → conclusion)
    (handed : ∀ next ∈ (graph.step text window call).asked (graph.answer text window),
      graph.Succeeds text window next →
        graph.answer text window next = graph.answer text window call → conclusion)
    (reported : ∀ next index cont registers, call = ⟨.scan next, index, cont, registers⟩ →
      index ≤ window.stop →
      ⟨.visit next, index, cont, registers⟩ ∈
        (graph.step text window call).asked (graph.answer text window) →
      graph.Succeeds text window ⟨.visit next, index, cont, registers⟩ →
      graph.answer text window call = (true,
        (graph.answer text window ⟨.visit next, index, cont, registers⟩).2.succeed index) →
        conclusion) : conclusion := by
  have asking : (graph.step text window call).HandsOn → conclusion := by
    intro hands
    obtain ⟨next, asked, same⟩ := succeeds.exists_asked hands
    exact handed next asked (succeeds.of_answer same) same
  obtain ⟨goal, index, cont, registers⟩ := call
  cases goal with
  | visit id =>
    by_cases final : graph.node id = .last ∧ cont = .done
    · obtain ⟨last, rfl⟩ := final
      exact finished id index registers rfl last
    · exact asking (step_visit_handsOn fun last done => final ⟨last, done⟩)
  | choose ids => exact asking (step_choose_handsOn ids)
  | iterate repeated count => exact asking (step_iterate_handsOn repeated count)
  | scan next =>
    obtain ⟨inside, ⟨asked, further, report⟩ | ⟨after, _, asked, same⟩⟩ := succeeds.scan
    · exact reported next index cont registers rfl inside asked further report
    · exact handed _ asked (succeeds.of_answer same) same

end Graph

end PatternSearch
