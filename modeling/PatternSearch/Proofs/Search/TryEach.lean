import PatternSearch.Proofs.Search.Rollback
import PatternSearch.Proofs.Semantics.Attempts

/-! Trying a list of attempts in turn. `tryEach` goes on from every outcome until one leads to
a match; a failure sets the slots back, and a note that the end was reached stays. -/

namespace PatternSearch

namespace Registers

def withSlots (registers : Registers) (slots : Slots) : Registers := { registers with slots }

def withEnd (registers : Registers) (reachedEnd : Bool) : Registers :=
  { registers with reachedEnd }

@[simp] theorem slots_withSlots (registers : Registers) (slots : Slots) :
    (registers.withSlots slots).slots = slots := rfl

@[simp] theorem slots_withEnd (registers : Registers) (reachedEnd : Bool) :
    (registers.withEnd reachedEnd).slots = registers.slots := rfl

theorem Restored.eq_withEnd {before after : Registers} (restored : before.Restored after) :
    after = before.withEnd after.reachedEnd := by
  rcases restored with rfl | rfl <;> rfl

end Registers

def tryEach (goOn : Nat → Registers → Answer) : List Attempt → Registers → Answer
  | [], registers => (false, registers)
  | .beyond :: attempts, registers => tryEach goOn attempts registers.reachEnd
  | .outcome stop slots :: attempts, registers =>
      (goOn stop (registers.withSlots slots)).orElse fun after =>
        tryEach goOn attempts (registers.withEnd after.reachedEnd)

section TryEach

variable {goOn : Nat → Registers → Answer} {registers after : Registers}

theorem tryEach_failed {attempts : List Attempt}
    (failed : tryEach goOn attempts registers = (false, after)) :
    after = registers.withEnd after.reachedEnd := by
  induction attempts generalizing registers with
  | nil =>
    cases failed
    rfl
  | cons attempt attempts ih =>
    cases attempt with
    | beyond =>
      have kept := ih failed
      exact kept
    | outcome stop slots =>
      rw [tryEach] at failed
      cases tried : goOn stop (registers.withSlots slots) with
      | mk succeeded between =>
        rw [tried] at failed
        cases succeeded with
        | true => cases failed
        | false =>
          have kept := ih failed
          exact kept

theorem tryEach_append (first rest : List Attempt) (registers : Registers) :
    tryEach goOn (first ++ rest) registers =
      (tryEach goOn first registers).orElse (tryEach goOn rest) := by
  induction first generalizing registers with
  | nil => rfl
  | cons attempt first ih =>
    cases attempt with
    | beyond => exact ih _
    | outcome stop slots =>
      simp only [List.cons_append, tryEach]
      cases goOn stop (registers.withSlots slots) with
      | mk succeeded after =>
        cases succeeded with
        | true => rfl
        | false => exact ih _

/-- Where the slots stand matters only to a failure, which leaves them there. -/
theorem tryEach_withSlots (attempts : List Attempt) (registers : Registers) (slots : Slots) :
    tryEach goOn attempts (registers.withSlots slots) =
      (tryEach goOn attempts registers).orElse fun after => (false, after.withSlots slots) := by
  induction attempts generalizing registers with
  | nil => rfl
  | cons attempt attempts ih =>
    cases attempt with
    | beyond => exact ih registers.reachEnd
    | outcome stop reached =>
      change (goOn stop (registers.withSlots reached)).orElse (fun after =>
        tryEach goOn attempts ((registers.withEnd after.reachedEnd).withSlots slots)) = _
      rw [tryEach]
      cases goOn stop (registers.withSlots reached) with
      | mk succeeded after =>
        cases succeeded with
        | true => rfl
        | false => exact ih (registers.withEnd after.reachedEnd)

theorem tryEach_andThen (attempts : List Attempt) (next : Nat → Slots → List Attempt)
    (registers : Registers) :
    tryEach goOn (Attempt.andThen attempts next) registers =
      tryEach (fun stop reached => tryEach goOn (next stop reached.slots) reached) attempts
        registers := by
  induction attempts generalizing registers with
  | nil => rfl
  | cons attempt attempts ih =>
    cases attempt with
    | beyond => exact ih registers.reachEnd
    | outcome stop slots =>
      rw [Attempt.andThen_outcome, tryEach_append, tryEach, Registers.slots_withSlots,
        tryEach_withSlots]
      cases tried : tryEach goOn (next stop slots) registers with
      | mk succeeded after =>
        cases succeeded with
        | true => rfl
        | false =>
          change tryEach goOn (Attempt.andThen attempts next) after = _
          rw [ih, tryEach_failed tried]
          rfl

theorem tryEach_congr {other : Nat → Registers → Answer} {attempts : List Attempt}
    (agree : ∀ stop reached, .outcome stop reached.slots ∈ attempts →
      goOn stop reached = other stop reached)
    (registers : Registers) :
    tryEach goOn attempts registers = tryEach other attempts registers := by
  induction attempts generalizing registers with
  | nil => rfl
  | cons attempt attempts ih =>
    have rest : ∀ registers, tryEach goOn attempts registers = tryEach other attempts registers :=
      ih fun stop reached member => agree stop reached (List.mem_cons_of_mem _ member)
    cases attempt with
    | beyond => exact rest registers.reachEnd
    | outcome stop slots =>
      rw [tryEach, tryEach, agree stop (registers.withSlots slots) (List.mem_cons_self ..)]
      apply Answer.orElse_congr
      intro after failed
      exact rest _

theorem tryEach_single {stop : Nat} {slots : Slots}
    (clean : Answer.Clean (registers.withSlots slots) (goOn stop (registers.withSlots slots))) :
    tryEach goOn [.outcome stop slots] registers =
      (goOn stop (registers.withSlots slots)).orElse fun after =>
        (false, after.withSlots registers.slots) := by
  rw [tryEach]
  apply Answer.orElse_congr
  intro after failed
  rw [failed] at clean
  have kept : after = (registers.withSlots slots).withEnd after.reachedEnd :=
    (clean rfl).eq_withEnd
  rw [tryEach, kept]
  rfl

theorem tryEach_here {stop : Nat} (clean : Answer.Clean registers (goOn stop registers)) :
    tryEach goOn [.outcome stop registers.slots] registers = goOn stop registers := by
  rw [tryEach_single clean]
  change (goOn stop registers).orElse (fun after => (false, after.withSlots registers.slots)) = _
  cases answered : goOn stop registers with
  | mk succeeded after =>
    cases succeeded with
    | true => rfl
    | false =>
      rw [answered] at clean
      rcases clean rfl with rfl | rfl <;> rfl

end TryEach

end PatternSearch
