import Mathlib.Data.List.Basic
import PatternSearch.Semantics.Outcomes

/-! Where outcomes lie. An outcome ends between where it began and the end of the text, and it
keeps the number of capture slots. So an iteration of a loop that is tried behind the minimum
is dropped only if it does not move. Literals lead on exactly where their characters stand. -/

namespace PatternSearch

namespace Quantifier

/-- Induction along the iterations of a repetition: a forced iteration may stay where it is, a
free one moves on within `limit`. -/
theorem iteration_induction (quantifier : Quantifier) (limit : Nat)
    {motive : Nat → Nat → Slots → Prop}
    (forced : ∀ count index slots, count < quantifier.min →
      (∀ stop after, motive (count + 1) stop after) → motive count index slots)
    (free : ∀ count index slots, ¬count < quantifier.min →
      (∀ stop after, index < stop ∧ stop ≤ limit → motive (count + 1) stop after) →
        motive count index slots)
    (count index : Nat) (slots : Slots) : motive count index slots := by
  induction count, index, slots using
    Quantifier.outcomes.induct quantifier limit (fun _ _ => []) with
  | case1 count index slots few ih => exact forced count index slots few ih
  | case2 count index slots enough _ ih => exact free count index slots enough ih
  | case3 count index slots enough _ ih => exact free count index slots enough ih

def goingOutcomes (quantifier : Quantifier) (limit : Nat) (body : Nat → Slots → List Outcome)
    (count index : Nat) (slots : Slots) : List Outcome :=
  if quantifier.allowsMore count then
    (body index slots).flatMap fun (stop, after) =>
      if index < stop ∧ stop ≤ limit then
        quantifier.outcomes limit body (count + 1) stop after
      else []
  else []

variable {quantifier : Quantifier} {limit count index : Nat} {slots : Slots}
  {body : Nat → Slots → List Outcome} {outcome : Outcome}

theorem allowsMore_iff :
    quantifier.allowsMore count = true ↔ ∀ max ∈ quantifier.max, count + 1 ≤ max := by
  simp only [allowsMore, Option.all_eq_true, decide_eq_true_eq, Option.mem_def, Nat.succ_le_iff]

theorem outcomes_forced (few : count < quantifier.min) :
    quantifier.outcomes limit body count index slots =
      (body index slots).flatMap fun (stop, after) =>
        quantifier.outcomes limit body (count + 1) stop after := by
  rw [outcomes, if_pos few]

theorem outcomes_free (enough : ¬count < quantifier.min) :
    quantifier.outcomes limit body count index slots =
      if quantifier.greedy then
        quantifier.goingOutcomes limit body count index slots ++ [(index, slots)]
      else (index, slots) :: quantifier.goingOutcomes limit body count index slots := by
  rw [outcomes, if_neg enough]
  rfl

theorem mem_outcomes_free (enough : ¬count < quantifier.min) :
    outcome ∈ quantifier.outcomes limit body count index slots ↔
      outcome = (index, slots) ∨
        outcome ∈ quantifier.goingOutcomes limit body count index slots := by
  rw [outcomes_free enough]
  split
  · rw [List.mem_append, List.mem_singleton]
    exact or_comm
  · exact List.mem_cons

theorem mem_goingOutcomes :
    outcome ∈ quantifier.goingOutcomes limit body count index slots ↔
      quantifier.allowsMore count ∧ ∃ stop after, (stop, after) ∈ body index slots ∧
        (index < stop ∧ stop ≤ limit) ∧
          outcome ∈ quantifier.outcomes limit body (count + 1) stop after := by
  unfold goingOutcomes
  split
  · next more =>
    simp only [more, true_and, List.mem_flatMap, Prod.exists]
    refine exists_congr fun stop => exists_congr fun after => and_congr_right fun _ => ?_
    by_cases moves : index < stop ∧ stop ≤ limit
    · rw [if_pos moves, and_iff_right moves]
    · simp [moves]
  · next stuck => simp [stuck]

end Quantifier

structure Outcome.Follows (limit index : Nat) (slots : Slots) (outcome : Outcome) : Prop where
  forward : index ≤ outcome.1
  inside : outcome.1 ≤ limit
  starts : outcome.2.starts.size = slots.starts.size
  stops : outcome.2.stops.size = slots.stops.size

namespace Outcome.Follows

variable {limit index stop : Nat} {slots after : Slots} {outcome : Outcome}

theorem here (inside : index ≤ limit) : Follows limit index slots (index, slots) :=
  ⟨Nat.le_refl _, inside, rfl, rfl⟩

theorem moved (forward : index ≤ stop) (inside : stop ≤ limit) :
    Follows limit index slots (stop, slots) :=
  ⟨forward, inside, rfl, rfl⟩

theorem trans (first : Follows limit index slots (stop, after))
    (second : Follows limit stop after outcome) : Follows limit index slots outcome where
  forward := Nat.le_trans first.forward second.forward
  inside := second.inside
  starts := second.starts.trans first.starts
  stops := second.stops.trans first.stops

end Outcome.Follows

open Outcome (Follows)

theorem Quantifier.outcomes_follow {quantifier : Quantifier} {limit : Nat}
    {body : Nat → Slots → List Outcome}
    (bodies : ∀ index slots, index ≤ limit →
      ∀ outcome ∈ body index slots, Follows limit index slots outcome)
    (count index : Nat) (slots : Slots) (inside : index ≤ limit) :
    ∀ outcome ∈ quantifier.outcomes limit body count index slots,
      Follows limit index slots outcome := by
  induction count, index, slots using quantifier.iteration_induction limit with
  | forced count index slots few ih =>
    intro outcome member
    rw [outcomes_forced few, List.mem_flatMap] at member
    obtain ⟨⟨stop, after⟩, iterated, member⟩ := member
    have first := bodies index slots inside _ iterated
    exact first.trans (ih stop after first.inside outcome member)
  | free count index slots enough ih =>
    intro outcome member
    rcases (mem_outcomes_free enough).mp member with rfl | member
    · exact .here inside
    · obtain ⟨_, stop, after, iterated, moves, member⟩ := mem_goingOutcomes.mp member
      have first := bodies index slots inside _ iterated
      exact first.trans (ih stop after moves first.inside outcome member)

namespace Expr

variable {text : Array Char}

mutual

theorem outcomes_follow : (expr : Expr) → (index : Nat) → (slots : Slots) →
    index ≤ text.size → ∀ outcome ∈ expr.outcomes text index slots,
      Follows text.size index slots outcome
  | empty, index, slots, inside, outcome, member => by
    simp only [outcomes, List.mem_singleton] at member
    exact member ▸ .here inside
  | predicate test, index, slots, inside, outcome, member => by
    simp only [outcomes] at member
    split at member
    · next accepted =>
      rw [List.mem_singleton] at member
      obtain ⟨c, there, _⟩ := (Option.any_eq_true ..).mp accepted
      have before := (Array.getElem?_eq_some_iff.mp there).1
      exact member ▸ .moved (Nat.le_succ _) before
    · simp at member
  | atStart, index, slots, inside, outcome, member => by
    simp only [outcomes] at member
    split at member
    · rw [List.mem_singleton] at member
      exact member ▸ .here inside
    · simp at member
  | atEnd, index, slots, inside, outcome, member => by
    simp only [outcomes] at member
    split at member
    · rw [List.mem_singleton] at member
      exact member ▸ .here inside
    · simp at member
  | sequence items, index, slots, inside, outcome, member => by
    rw [outcomes] at member
    exact itemOutcomes_follow items index slots inside outcome member
  | alternation branches, index, slots, inside, outcome, member => by
    rw [outcomes] at member
    exact branchOutcomes_follow branches index slots inside outcome member
  | group number body, index, slots, inside, outcome, member => by
    rw [outcomes, List.mem_map] at member
    obtain ⟨⟨stop, after⟩, matched, rfl⟩ := member
    have inner := outcomes_follow body index _ inside _ matched
    refine ⟨inner.forward, inner.inside, ?_, ?_⟩
    · simpa [Slots.setStart, Slots.setStop] using inner.starts
    · simpa [Slots.setStart, Slots.setStop] using inner.stops
  | repetition body quantifier, index, slots, inside, outcome, member => by
    rw [outcomes] at member
    exact quantifier.outcomes_follow (outcomes_follow body) 0 index slots inside outcome member
  | backreference number, index, slots, inside, outcome, member => by
    simp only [outcomes] at member
    split at member
    · simp at member
    · split at member
      · next fits =>
        rw [List.mem_singleton] at member
        exact member ▸ .moved (Nat.le_add_right _ _) fits.1
      · simp at member

theorem itemOutcomes_follow : (items : List Expr) → (index : Nat) → (slots : Slots) →
    index ≤ text.size → ∀ outcome ∈ itemOutcomes text items index slots,
      Follows text.size index slots outcome
  | [], index, slots, inside, outcome, member => by
    simp only [itemOutcomes, List.mem_singleton] at member
    exact member ▸ .here inside
  | item :: items, index, slots, inside, outcome, member => by
    rw [itemOutcomes, List.mem_flatMap] at member
    obtain ⟨⟨stop, after⟩, first, rest⟩ := member
    have head := outcomes_follow item index slots inside _ first
    exact head.trans (itemOutcomes_follow items stop after head.inside outcome rest)

theorem branchOutcomes_follow : (branches : List Expr) → (index : Nat) → (slots : Slots) →
    index ≤ text.size → ∀ outcome ∈ branchOutcomes text branches index slots,
      Follows text.size index slots outcome
  | [], index, slots, inside, outcome, member => by simp [branchOutcomes] at member
  | branch :: branches, index, slots, inside, outcome, member => by
    rw [branchOutcomes, List.mem_append] at member
    rcases member with first | later
    · exact outcomes_follow branch index slots inside outcome first
    · exact branchOutcomes_follow branches index slots inside outcome later

end

/-- The limit of an iteration never bites: an iteration beyond the minimum is dropped exactly
if it does not move. -/
theorem goingOutcomes_eq (body : Expr) {quantifier : Quantifier} {count index : Nat}
    {slots : Slots} (inside : index ≤ text.size) :
    quantifier.goingOutcomes text.size (body.outcomes text) count index slots =
      if quantifier.allowsMore count then
        (body.outcomes text index slots).flatMap fun (stop, after) =>
          if stop = index then []
          else quantifier.outcomes text.size (body.outcomes text) (count + 1) stop after
      else [] := by
  unfold Quantifier.goingOutcomes
  congr 1
  apply List.flatMap_congr
  rintro ⟨stop, after⟩ member
  have follows := outcomes_follow body index slots inside _ member
  have forward : index ≤ stop := follows.forward
  dsimp only
  by_cases still : stop = index
  · rw [if_neg (by omega), if_pos still]
  · rw [if_pos ⟨by omega, follows.inside⟩, if_neg still]

theorem cons_prefix_drop_iff {c : Char} {word text : List Char} {index : Nat} :
    c :: word <+: text.drop index ↔
      text.toArray[index]? = some c ∧ word <+: text.drop (index + 1) := by
  rw [List.getElem?_toArray]
  by_cases inside : index < text.length
  · rw [List.drop_eq_getElem_cons inside, List.cons_prefix_cons, List.getElem?_eq_getElem inside,
      Option.some_inj, eq_comm]
  · rw [List.drop_eq_nil_of_le (Nat.not_lt.mp inside),
      List.getElem?_eq_none (Nat.not_lt.mp inside)]
    simp

theorem mem_itemOutcomes_literals {word text : List Char} {items : List Expr} {index : Nat}
    {slots : Slots} {outcome : Outcome} :
    outcome ∈ itemOutcomes text.toArray (word.map literal ++ items) index slots ↔
      word <+: text.drop index ∧
        outcome ∈ itemOutcomes text.toArray items (index + word.length) slots := by
  induction word generalizing index with
  | nil => simp
  | cons c word ih =>
    have further : index + 1 + word.length = index + (word.length + 1) := by omega
    have accepted : (text.toArray[index]?.any (Predicate.char c).accepts = true) ↔
        text.toArray[index]? = some c := by
      simp [Option.any_eq_true, Predicate.accepts]
    rw [List.map_cons, List.cons_append, itemOutcomes, literal, outcomes, cons_prefix_drop_iff,
      ← accepted]
    split
    · next there =>
      rw [List.flatMap_singleton, ih, further, List.length_cons, and_iff_right there]
    · next elsewhere =>
      rw [List.flatMap_nil]
      exact iff_of_false List.not_mem_nil fun reached => elsewhere reached.1.1

end Expr

end PatternSearch
