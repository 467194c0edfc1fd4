import PatternSearch.Proofs.Semantics.Outcomes

/-! The outcomes of an expression together with the moments at which matching it asks for text
behind the end, in the order in which backtracking meets them. Without those moments attempts
are the outcomes, and every outcome ends between where it began and the end of the text. The
attempts from all positions, one after the other, are those of a search. -/

namespace PatternSearch

inductive Attempt where
  | beyond
  | outcome (stop : Nat) (slots : Slots)

namespace Attempt

def outcome? : Attempt → Option Outcome
  | beyond => none
  | outcome stop slots => some (stop, slots)

def andThen (attempts : List Attempt) (next : Nat → Slots → List Attempt) : List Attempt :=
  attempts.flatMap fun
    | beyond => [beyond]
    | outcome stop slots => next stop slots

variable {attempts rest : List Attempt} {next : Nat → Slots → List Attempt} {stop : Nat}
  {slots : Slots}

def startsBeyond : List Attempt → Bool
  | beyond :: _ => true
  | _ => false

theorem startsBeyond_append_of_outcome {first : Outcome}
    (head : (attempts.filterMap outcome?).head? = some first) :
    startsBeyond (attempts ++ rest) = startsBeyond attempts := by
  cases attempts with
  | nil => cases head
  | cons attempt attempts => cases attempt <;> rfl

theorem startsBeyond_append_of_barren (barren : (attempts.filterMap outcome?).head? = none) :
    startsBeyond (attempts ++ rest) = (startsBeyond attempts || startsBeyond rest) := by
  cases attempts with
  | nil => rfl
  | cons attempt attempts =>
    cases attempt with
    | beyond => rfl
    | outcome stop slots => cases barren

@[simp] theorem andThen_nil : andThen [] next = [] := rfl

@[simp] theorem andThen_beyond :
    andThen (beyond :: attempts) next = beyond :: andThen attempts next := rfl

@[simp] theorem andThen_outcome :
    andThen (outcome stop slots :: attempts) next = next stop slots ++ andThen attempts next :=
  rfl

theorem andThen_outcomes (attempts : List Attempt) :
    andThen attempts (fun stop slots => [outcome stop slots]) = attempts := by
  induction attempts with
  | nil => rfl
  | cons attempt attempts ih => cases attempt <;> simp [ih]

theorem outcomes_andThen (attempts : List Attempt) (next : Nat → Slots → List Attempt) :
    (andThen attempts next).filterMap outcome? =
      (attempts.filterMap outcome?).flatMap fun (stop, slots) =>
        (next stop slots).filterMap outcome? := by
  induction attempts with
  | nil => rfl
  | cons attempt attempts ih =>
    cases attempt with
    | beyond =>
      rw [andThen_beyond, List.filterMap_cons_none rfl, List.filterMap_cons_none rfl]
      exact ih
    | outcome stop slots => simp [outcome?, ih]

end Attempt

open Attempt

def Quantifier.attempts (quantifier : Quantifier) (limit : Nat)
    (body : Nat → Slots → List Attempt) (count index : Nat) (slots : Slots) : List Attempt :=
  if count < quantifier.min then
    andThen (body index slots) fun stop after =>
      quantifier.attempts limit body (count + 1) stop after
  else
    let stopping := [.outcome index slots]
    let going :=
      if quantifier.allowsMore count then
        andThen (body index slots) fun stop after =>
          if index < stop ∧ stop ≤ limit then
            quantifier.attempts limit body (count + 1) stop after
          else []
      else []
    if quantifier.greedy then going ++ stopping else stopping ++ going
termination_by (quantifier.min - count, limit - index)
decreasing_by
  · exact .left _ _ (by omega)
  · have settled : quantifier.min - (count + 1) = quantifier.min - count := by omega
    rw [settled]
    exact .right _ (by omega)

namespace Expr

mutual

/-- As `Expr.outcomes`, over attempts: a character behind the end and a repeated text that
does not fit before it are noted. -/
def attempts (text : Array Char) : Expr → Nat → Slots → List Attempt
  | empty, index, slots => [.outcome index slots]
  | predicate test, index, slots =>
      if index < text.size then
        if text[index]?.any test.accepts then [.outcome (index + 1) slots] else []
      else [.beyond]
  | atStart, index, slots => if index = 0 then [.outcome index slots] else []
  | atEnd, index, slots => if index = text.size then [.outcome index slots] else []
  | sequence items, index, slots => itemAttempts text items index slots
  | alternation branches, index, slots => branchAttempts text branches index slots
  | group number body, index, slots =>
      andThen (body.attempts text index (slots.setStart number index)) fun stop after =>
        [.outcome stop (after.setStop number stop)]
  | repetition body quantifier, index, slots =>
      quantifier.attempts text.size (body.attempts text) 0 index slots
  | backreference number, index, slots =>
      match slots.span number with
      | none => []
      | some (start, stop) =>
          let beyond := index + (stop - start)
          if text.size < beyond then [.beyond]
          else if text.extract start stop = text.extract index beyond then
            [.outcome beyond slots]
          else []

def itemAttempts (text : Array Char) : List Expr → Nat → Slots → List Attempt
  | [], index, slots => [.outcome index slots]
  | item :: items, index, slots =>
      andThen (item.attempts text index slots) fun stop after =>
        itemAttempts text items stop after

def branchAttempts (text : Array Char) : List Expr → Nat → Slots → List Attempt
  | [], _, _ => []
  | branch :: branches, index, slots =>
      branch.attempts text index slots ++ branchAttempts text branches index slots

end

/-- The attempts of a search: those at every position from `start` to the end, behind which a
search that has found nothing asks for more text. -/
def attemptsFrom (expr : Expr) (text : Array Char) (start : Nat) (slots : Slots) : List Attempt :=
  (List.range' start (text.size + 1 - start)).flatMap (fun index => expr.attempts text index slots)
    ++ [.beyond]

theorem attemptsFrom_beyond {text : Array Char} {start : Nat} {slots : Slots} (expr : Expr)
    (beyond : text.size < start) : expr.attemptsFrom text start slots = [.beyond] := by
  unfold attemptsFrom
  rw [show text.size + 1 - start = 0 by omega]
  rfl

theorem attemptsFrom_inside {text : Array Char} {start : Nat} {slots : Slots} (expr : Expr)
    (inside : start ≤ text.size) :
    expr.attemptsFrom text start slots =
      expr.attempts text start slots ++ expr.attemptsFrom text (start + 1) slots := by
  unfold attemptsFrom
  rw [show text.size + 1 - start = text.size + 1 - (start + 1) + 1 by omega,
    List.range'_succ, List.flatMap_cons, List.append_assoc]

end Expr

namespace Quantifier

variable {quantifier : Quantifier} {limit count index : Nat} {slots : Slots}
  {tried : Nat → Slots → List Attempt} {body : Nat → Slots → List Outcome}

theorem attempts_forced (few : count < quantifier.min) :
    quantifier.attempts limit tried count index slots =
      andThen (tried index slots) fun stop after =>
        quantifier.attempts limit tried (count + 1) stop after := by
  rw [attempts, if_pos few]

def goingAttempts (quantifier : Quantifier) (limit : Nat) (tried : Nat → Slots → List Attempt)
    (count index : Nat) (slots : Slots) : List Attempt :=
  if quantifier.allowsMore count then
    andThen (tried index slots) fun stop after =>
      if index < stop ∧ stop ≤ limit then
        quantifier.attempts limit tried (count + 1) stop after
      else []
  else []

theorem attempts_free (enough : ¬count < quantifier.min) :
    quantifier.attempts limit tried count index slots =
      if quantifier.greedy then
        quantifier.goingAttempts limit tried count index slots ++ [.outcome index slots]
      else .outcome index slots :: quantifier.goingAttempts limit tried count index slots := by
  rw [attempts, if_neg enough]
  rfl

theorem outcomes_attempts
    (agree : ∀ index slots, (tried index slots).filterMap outcome? = body index slots)
    (count index : Nat) (slots : Slots) :
    (quantifier.attempts limit tried count index slots).filterMap outcome? =
      quantifier.outcomes limit body count index slots := by
  induction count, index, slots using quantifier.iteration_induction limit with
  | forced count index slots few ih =>
    rw [attempts_forced few, outcomes_forced few, outcomes_andThen, agree]
    congr 1
    funext reached
    exact ih reached.1 reached.2
  | free count index slots enough ih =>
    have going : (quantifier.goingAttempts limit tried count index slots).filterMap outcome? =
        quantifier.goingOutcomes limit body count index slots := by
      unfold goingAttempts goingOutcomes
      split
      · rw [outcomes_andThen, agree]
        congr 1
        funext reached
        dsimp only
        split
        · next moved => exact ih _ _ moved
        · rfl
      · rfl
    rw [attempts_free enough, outcomes_free enough]
    split
    · rw [List.filterMap_append, going]
      rfl
    · simp only [List.filterMap_cons, outcome?, going]

end Quantifier

namespace Expr

variable {text : Array Char}

mutual

theorem outcomes_attempts : (expr : Expr) → (index : Nat) → (slots : Slots) →
    (expr.attempts text index slots).filterMap outcome? = expr.outcomes text index slots
  | empty, index, slots => by simp [attempts, outcomes, outcome?]
  | predicate test, index, slots => by
    simp only [attempts, outcomes]
    by_cases before : index < text.size
    · rw [if_pos before]
      split <;> simp [outcome?]
    · rw [if_neg before, Array.getElem?_eq_none (by omega)]
      simp [outcome?]
  | atStart, index, slots => by
    simp only [attempts, outcomes]
    split <;> simp [outcome?]
  | atEnd, index, slots => by
    simp only [attempts, outcomes]
    split <;> simp [outcome?]
  | sequence items, index, slots => by
    rw [attempts, outcomes]
    exact itemOutcomes_attempts items index slots
  | alternation branches, index, slots => by
    rw [attempts, outcomes]
    exact branchOutcomes_attempts branches index slots
  | group number body, index, slots => by
    rw [attempts, outcomes, outcomes_andThen, outcomes_attempts body, List.map_eq_flatMap]
    congr 1
  | repetition body quantifier, index, slots => by
    rw [attempts, outcomes]
    exact quantifier.outcomes_attempts (outcomes_attempts body) 0 index slots
  | backreference number, index, slots => by
    simp only [attempts, outcomes]
    cases slots.span number with
    | none => rfl
    | some span =>
      dsimp only
      by_cases fits : text.size < index + (span.2 - span.1)
      · rw [if_pos fits, if_neg (by omega)]
        simp [outcome?]
      · rw [if_neg fits]
        have inside : index + (span.2 - span.1) ≤ text.size := by omega
        simp only [inside, true_and]
        split <;> simp [outcome?]

theorem itemOutcomes_attempts : (items : List Expr) → (index : Nat) → (slots : Slots) →
    (itemAttempts text items index slots).filterMap outcome? =
      itemOutcomes text items index slots
  | [], index, slots => by simp [itemAttempts, itemOutcomes, outcome?]
  | item :: items, index, slots => by
    rw [itemAttempts, itemOutcomes, outcomes_andThen, outcomes_attempts item]
    congr 1
    funext reached
    exact itemOutcomes_attempts items reached.1 reached.2

theorem branchOutcomes_attempts : (branches : List Expr) → (index : Nat) → (slots : Slots) →
    (branchAttempts text branches index slots).filterMap outcome? =
      branchOutcomes text branches index slots
  | [], index, slots => rfl
  | branch :: branches, index, slots => by
    rw [branchAttempts, branchOutcomes, List.filterMap_append, outcomes_attempts branch,
      branchOutcomes_attempts branches]

end

theorem follows_of_attempt {expr : Expr} {index stop : Nat} {slots after : Slots}
    (inside : index ≤ text.size) (tried : .outcome stop after ∈ expr.attempts text index slots) :
    Outcome.Follows text.size index slots (stop, after) := by
  apply outcomes_follow expr index slots inside
  rw [← outcomes_attempts expr, List.mem_filterMap]
  exact ⟨_, tried, rfl⟩

end Expr

end PatternSearch
