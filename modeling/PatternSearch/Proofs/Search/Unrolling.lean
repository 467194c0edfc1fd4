import Mathlib
import PatternSearch.Proofs.Search.Trees
import PatternSearch.Proofs.Semantics.Loops

/-! Repetitions written out. A repetition of an atom and its copies in a row, the required ones first
and the optional ones behind them, visit the same ends in the same order, except that the copies come
back to ends that they have visited. So they offer the same choice, and a search finds the same match
whichever of them stands in the pattern. -/

namespace PatternSearch

open PatternSearch.Expr (itemOutcomes)

section Bounded

variable {limit : Nat} {body : Nat → Slots → List Outcome}

theorem atMost_grows (greedy : Bool) (most : Nat) {index : Nat} {slots : Slots} {outcome : Outcome}
    (member : outcome ∈ atMost greedy limit body most index slots) :
    outcome ∈ atMost greedy limit body (most + 1) index slots := by
  induction most generalizing index slots with
  | zero =>
    rw [atMost_zero, List.mem_singleton] at member
    rw [atMost_succ, mem_arrange]
    exact .inl member
  | succ most ih =>
    rw [atMost_succ, mem_arrange] at member
    rw [atMost_succ, mem_arrange]
    rcases member with here | further
    · exact .inl here
    · obtain ⟨reached, moved, behind⟩ := List.mem_flatMap.mp further
      exact .inr (List.mem_flatMap.mpr ⟨reached, moved, ih behind⟩)

/-- A greedy loop reaches what fewer iterations reach before it stops where it is. -/
theorem greedy_optional (most index : Nat) (slots : Slots) :
    SameChoice
      ((moving limit body index slots).flatMap (fun reached =>
          atMost true limit body most reached.1 reached.2) ++
        atMost true limit body most index slots)
      (atMost true limit body (most + 1) index slots) := by
  rw [atMost_succ]
  cases most with
  | zero =>
    rw [atMost_zero]
    exact .refl _
  | succ most =>
    rw [atMost_succ most]
    apply SameChoice.absorb
    intro outcome member
    obtain ⟨reached, moved, behind⟩ := List.mem_flatMap.mp member
    exact List.mem_flatMap.mpr ⟨reached, moved, atMost_grows true most behind⟩

variable (single : ∀ index slots, (body index slots).length ≤ 1)
include single

theorem moving_single (index : Nat) (slots : Slots) :
    moving limit body index slots = [] ∨ ∃ reached, moving limit body index slots = [reached] := by
  have few : (moving limit body index slots).length ≤ 1 :=
    Nat.le_trans (List.length_filter_le ..) (single index slots)
  match moving limit body index slots, few with
  | [], _ => exact .inl rfl
  | [reached], _ => exact .inr ⟨reached, rfl⟩

/-- A lazy loop comes to what fewer iterations reach before it comes to anything else. -/
theorem lazy_grows (most index : Nat) (slots : Slots) :
    SameChoice
      (atMost false limit body most index slots ++ atMost false limit body (most + 1) index slots)
      (atMost false limit body (most + 1) index slots) := by
  induction most generalizing index slots with
  | zero =>
    rw [atMost_zero, atMost_succ]
    exact .stutter _ _
  | succ most ih =>
    rw [atMost_succ most, atMost_succ (most + 1)]
    rcases moving_single single index slots with stuck | ⟨reached, moved⟩
    · rw [stuck]
      exact .stutter _ _
    -- Both loops stop here first and then go on from the same place.
    · rw [moved, List.flatMap_singleton, List.flatMap_singleton]
      have once : SameChoice
          ((index, slots) :: atMost false limit body most reached.1 reached.2 ++
            (index, slots) :: atMost false limit body (most + 1) reached.1 reached.2)
          ((index, slots) :: atMost false limit body most reached.1 reached.2 ++
            atMost false limit body (most + 1) reached.1 reached.2) :=
        .absorb_one _ (List.mem_cons_self ..)
      exact once.trans ((ih reached.1 reached.2).cons _)

theorem lazy_optional (most index : Nat) (slots : Slots) :
    SameChoice
      (atMost false limit body most index slots ++
        (moving limit body index slots).flatMap fun reached =>
          atMost false limit body most reached.1 reached.2)
      (atMost false limit body (most + 1) index slots) := by
  rw [atMost_succ]
  cases most with
  | zero =>
    rw [atMost_zero]
    exact .refl _
  | succ most =>
    rw [atMost_succ most]
    rcases moving_single single index slots with stuck | ⟨reached, moved⟩
    · rw [stuck]
      exact .refl _
    · rw [moved, List.flatMap_singleton, List.flatMap_singleton]
      exact (lazy_grows single most reached.1 reached.2).cons _

end Bounded

section Trees

variable {text : Array Char} {item : Expr} {quantifier : Quantifier}

theorem atMost_one {greedy : Bool} {limit index : Nat} {body : Nat → Slots → List Outcome}
    {slots : Slots} :
    atMost greedy limit body 1 index slots =
      arrange greedy (moving limit body index slots) (index, slots) := by
  simp only [atMost_succ, atMost_zero, List.flatMap_singleton']

/-- Optional items in a row. The induction is on their number: one that goes first adds nothing to
those behind it but one more iteration. -/
theorem sameChoice_optionals
    (single : ∀ index slots, (item.outcomes text index slots).length ≤ 1) (greedy : Bool)
    (most index : Nat) (slots : Slots) :
    SameChoice
      (itemOutcomes text (.replicate most (.repetition item ⟨0, some 1, greedy⟩)) index slots)
      (atMost greedy text.size (item.outcomes text) most index slots) := by
  induction most generalizing index slots with
  | zero =>
    rw [atMost_zero]
    exact .refl _
  | succ most ih =>
    rw [List.replicate_succ, itemOutcomes, Expr.outcomes]
    change SameChoice
      ((atMost greedy text.size (item.outcomes text) 1 index slots).flatMap fun reached =>
        itemOutcomes text _ reached.1 reached.2) _
    refine (SameChoice.flatMap_congr _ fun reached _ => ih reached.1 reached.2).trans ?_
    rw [atMost_one, flatMap_arrange]
    cases greedy with
    | true => exact greedy_optional most index slots
    | false => exact lazy_optional single most index slots

theorem outcomes_required (left count : Nat) (counted : count + left = quantifier.min) (index : Nat)
    (slots : Slots) :
    quantifier.outcomes text.size (item.outcomes text) count index slots =
      (itemOutcomes text (.replicate left item) index slots).flatMap fun reached =>
        quantifier.outcomes text.size (item.outcomes text) quantifier.min reached.1 reached.2 := by
  induction left generalizing count index slots with
  | zero =>
    rw [List.replicate_zero, itemOutcomes, List.flatMap_singleton, ← counted, Nat.add_zero]
  | succ left ih =>
    rw [Quantifier.outcomes_forced (by omega), List.replicate_succ, itemOutcomes, List.flatMap_assoc]
    exact List.flatMap_congr fun reached _ => ih (count + 1) (by omega) reached.1 reached.2

theorem single_of_isAtom (atom : item.isAtom = true) (index : Nat) (slots : Slots) :
    (item.outcomes text index slots).length ≤ 1 := by
  cases item with
  | predicate test =>
    rw [Expr.outcomes]
    split <;> simp
  | backreference number =>
    rw [Expr.outcomes]
    split
    · simp
    · dsimp only
      split <;> simp
  | _ => cases atom

theorem sameChoice_unrolled (atom : item.isAtom = true) (index : Nat) (slots : Slots) :
    SameChoice ((Expr.repetition item quantifier).outcomes text index slots)
      ((item.unrolled quantifier).outcomes text index slots) := by
  obtain ⟨min, max, greedy⟩ := quantifier
  rw [Expr.outcomes, Expr.unrolled, Expr.outcomes, outcomes_required min 0 (Nat.zero_add min),
    Expr.itemOutcomes_append]
  refine .flatMap_congr _ fun reached _ => ?_
  cases max with
  | some max =>
    have settled : Quantifier.outcomes ⟨min, some max, greedy⟩ text.size (item.outcomes text) min
        reached.1 reached.2 =
        atMost greedy text.size (item.outcomes text) (max - min) reached.1 reached.2 := by
      apply Quantifier.outcomes_shift
      · rfl
      · exact Nat.le_refl _
      · exact Nat.le_refl _
      · intro more
        simp only [Quantifier.allowsMore, Option.all_some, decide_eq_decide]
        omega
    rw [settled]
    exact (sameChoice_optionals (single_of_isAtom atom) greedy (max - min) _ _).symm
  | none =>
    have settled : Quantifier.outcomes ⟨min, none, greedy⟩ text.size (item.outcomes text) min
        reached.1 reached.2 =
        (Expr.repetition item ⟨0, none, greedy⟩).outcomes text reached.1 reached.2 := by
      rw [Expr.outcomes]
      apply Quantifier.outcomes_shift
      · rfl
      · exact Nat.le_refl _
      · exact Nat.le_refl _
      · exact fun _ => rfl
    rw [settled, ← Expr.itemOutcomes_singleton]
    exact .refl _

end Trees

/-- For every pattern, every repetition of a predicate or of a backreference anywhere in its tree,
whatever its bounds and its greed, every text and every start: a search for the pattern and a search
for the tree with that repetition written out give the same answer, and the match and every group
have the same spans. -/
theorem searchFrom_unrolled (pattern : Pattern) (context : Expr.Context) (item : Expr)
    (atom : item.isAtom = true) (quantifier : Quantifier)
    (tree : pattern.expr = context.fill (.repetition item quantifier)) (text : List Char)
    (start : Nat) :
    let result := (pattern.matcher text).searchFrom start
    let unrolled := (Graph.ofExpr (context.fill (item.unrolled quantifier))).search text.toArray start
      (.blank pattern.groups text.length)
    result.1 = unrolled.1 ∧
      ∀ group, result.2.charSpan group = unrolled.2.registers.slots.span group := by
  intro result unrolled
  have same : pattern.expr.firstOutcome? text.toArray start (.blank pattern.groups) =
      (context.fill (item.unrolled quantifier)).firstOutcome? text.toArray start
        (.blank pattern.groups) := by
    rw [tree]
    apply Expr.firstOutcome?_congr
    exact fun index => Expr.sameChoice_fill (sameChoice_unrolled atom) context index _
  obtain ⟨found, spans⟩ :=
    Graph.reports_ofExpr (context.fill (item.unrolled quantifier)) pattern.groups text start
  constructor
  · rw [succeeded_searchFrom, same]
    exact found.symm
  · intro group
    rw [charSpan_searchFrom, same]
    exact (spans group).symm

def echoes : Pattern :=
  let echo : Expr := .repetition (.backreference 1) ⟨1, some 3, false⟩
  let expr : Expr :=
    .sequence [.group 1 (.alternation [.literal 'b', .empty]),
      .repetition (.group 2 (.sequence [echo, .literal 'c'])) ⟨0, none, true⟩]
  ⟨"(b|)(\\1{1,3}?c)*", expr, 2, .ofExpr expr, by cbv, rfl⟩

/-- The lazy echo is made once in the first turn of the star and three times in the second. -/
theorem searchFrom_echoes :
    let echo : Expr :=
      .sequence [.backreference 1, .repetition (.backreference 1) ⟨0, some 1, false⟩,
        .repetition (.backreference 1) ⟨0, some 1, false⟩]
    let unrolled := (Graph.ofExpr (.sequence [.group 1 (.alternation [.literal 'b', .empty]),
      .repetition (.group 2 (.sequence [echo, .literal 'c'])) ⟨0, none, true⟩])).search
        #['b', 'b', 'c', 'b', 'b', 'b', 'c'] 0 (.blank 2 7)
    unrolled.1 = true ∧ unrolled.2.registers.slots.span 0 = some (0, 7) ∧
      unrolled.2.registers.slots.span 1 = some (0, 1) ∧
      unrolled.2.registers.slots.span 2 = some (3, 7) := by
  let context : Expr.Context :=
    .sequence [.group 1 (.alternation [.literal 'b', .empty])]
      (.repetition (.group 2 (.sequence [] .hole [.literal 'c'])) ⟨0, none, true⟩) []
  obtain ⟨found, spans⟩ := searchFrom_unrolled echoes context (.backreference 1) rfl
    ⟨1, some 3, false⟩ rfl ['b', 'b', 'c', 'b', 'b', 'b', 'c'] 0
  exact ⟨found.symm.trans (by cbv), (spans 0).symm.trans (by cbv), (spans 1).symm.trans (by cbv),
    (spans 2).symm.trans (by cbv)⟩

end PatternSearch
