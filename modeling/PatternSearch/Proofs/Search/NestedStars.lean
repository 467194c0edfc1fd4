import Mathlib
import PatternSearch.Proofs.Search.Mirrors
import PatternSearch.Proofs.Search.Trees
import PatternSearch.Proofs.Semantics.Loops

/-! Stars in stars. A star whose turns are those of an inner star comes to the ends that the inner
star comes to, in the same order, and back to some of them. So the inner star can stand for both.
Where patterns write stars in stars there are parentheses between them; without backreferences these
can be left out, as no search can tell whether groups are there. -/

namespace PatternSearch

section Stars

variable {greedy : Bool} {limit index : Nat} {slots : Slots} {body : Nat → Slots → List Outcome}
  {outcome : Outcome}

theorem anyNumber_inside (inside : index ≤ limit)
    (member : outcome ∈ anyNumber greedy limit body index slots) :
    index ≤ outcome.1 ∧ outcome.1 ≤ limit := by
  induction index, slots using moving_induction limit with
  | step index slots ih =>
    rw [anyNumber_eq, mem_arrange] at member
    rcases member with rfl | further
    · exact ⟨Nat.le_refl _, inside⟩
    · obtain ⟨reached, moved, behind⟩ := List.mem_flatMap.mp further
      have moves := (mem_moving.mp moved).2
      obtain ⟨forward, within⟩ := ih reached.1 reached.2 moves moves.2 behind
      exact ⟨by omega, within⟩

theorem moving_anyNumber :
    moving limit (anyNumber greedy limit body) index slots =
      (moving limit body index slots).flatMap fun reached =>
        anyNumber greedy limit body reached.1 reached.2 := by
  have further : ∀ outcome ∈ (moving limit body index slots).flatMap fun reached =>
      anyNumber greedy limit body reached.1 reached.2,
      index < outcome.1 ∧ outcome.1 ≤ limit := by
    intro outcome member
    obtain ⟨reached, moved, behind⟩ := List.mem_flatMap.mp member
    have moves := (mem_moving.mp moved).2
    have lies := anyNumber_inside moves.2 behind
    omega
  rw [moving, anyNumber_eq, arrange]
  split
  · rw [List.filter_append, List.filter_cons_of_neg (by simp), List.filter_nil,
      List.append_nil]
    exact List.filter_eq_self.mpr fun outcome member => decide_eq_true (further outcome member)
  · rw [List.filter_cons_of_neg (by simp)]
    exact List.filter_eq_self.mpr fun outcome member => decide_eq_true (further outcome member)

theorem SameChoice.arrange_again {going : List Outcome} {here : Outcome}
    {next : Outcome → List Outcome} (turns : SameChoice (going.flatMap next) going)
    (onward : next here = arrange greedy going here) :
    SameChoice ((arrange greedy going here).flatMap next)
      (arrange greedy going here) := by
  rw [flatMap_arrange, onward]
  cases greedy with
  | true =>
    have twice : SameChoice (going ++ (going ++ [here])) (going ++ [here]) :=
      absorb [here] fun outcome member => member
    exact (turns.append (refl _)).trans twice
  | false =>
    have twice : SameChoice (here :: going ++ going) (here :: going) :=
      absorb_last fun outcome member => List.mem_cons_of_mem here member
    exact ((refl (here :: going)).append turns).trans twice

theorem sameChoice_twice (index : Nat) (slots : Slots) :
    SameChoice
      ((anyNumber greedy limit body index slots).flatMap fun reached =>
        anyNumber greedy limit body reached.1 reached.2)
      (anyNumber greedy limit body index slots) := by
  induction index, slots using moving_induction limit with
  | step index slots ih =>
    have turns : SameChoice
        (((moving limit body index slots).flatMap fun reached =>
          anyNumber greedy limit body reached.1 reached.2).flatMap fun reached =>
            anyNumber greedy limit body reached.1 reached.2)
        ((moving limit body index slots).flatMap fun reached =>
          anyNumber greedy limit body reached.1 reached.2) := by
      rw [List.flatMap_assoc]
      exact .flatMap_congr _ fun reached moved => ih reached.1 reached.2 (mem_moving.mp moved).2
    rw [anyNumber_eq]
    exact turns.arrange_again anyNumber_eq

/-- A star of a star offers the choice of the inner star. The induction is on what is left of the
text: a turn of the outer star is one of the inner star that moves, and behind it both are the
same. -/
theorem sameChoice_star (index : Nat) (slots : Slots) :
    SameChoice (anyNumber greedy limit (anyNumber greedy limit body) index slots)
      (anyNumber greedy limit body index slots) := by
  induction index, slots using moving_induction limit with
  | step index slots ih =>
    have behind : SameChoice
        ((moving limit (anyNumber greedy limit body) index slots).flatMap fun reached =>
          anyNumber greedy limit (anyNumber greedy limit body) reached.1 reached.2)
        ((moving limit body index slots).flatMap fun reached =>
          anyNumber greedy limit body reached.1 reached.2) := by
      refine (SameChoice.flatMap_congr _ fun reached moved =>
        ih reached.1 reached.2 (mem_moving.mp moved).2).trans ?_
      rw [moving_anyNumber, List.flatMap_assoc]
      exact .flatMap_congr _ fun reached _ => sameChoice_twice reached.1 reached.2
    rw [anyNumber_eq, anyNumber_eq]
    exact behind.arranged

end Stars

section Trees

variable {text : Array Char} {expr : Expr}

theorem sameChoice_collapsed (body : Expr) (greedy : Bool) (index : Nat) (slots : Slots) :
    SameChoice (((body.star greedy).star greedy).outcomes text index slots)
      ((body.star greedy).outcomes text index slots) := by
  have inner : (body.star greedy).outcomes text =
      anyNumber greedy text.size (body.outcomes text) := by
    funext index slots
    rw [Expr.star, Expr.outcomes, anyNumber]
  rw [Expr.star, Expr.outcomes, inner]
  exact sameChoice_star index slots

theorem mirrors_bare (plain : expr.references = []) :
    Mirrors 0 (fun _ _ => True) (expr.attempts text) (expr.bare.attempts text) := by
  have sized : text.size = 0 + text.size := (Nat.zero_add _).symm
  induction expr using Expr.induction with
  | empty => exact mirrors_empty
  | predicate test => exact mirrors_predicate test
  | atStart => exact mirrors_atStart
  | atEnd => exact mirrors_atEnd
  | sequence items ih =>
    rw [Expr.references_sequence, List.flatMap_eq_nil_iff] at plain
    rw [Expr.bare, Expr.bareAll_eq_map]
    apply mirrors_itemAttempts
    rw [List.forall₂_map_right_iff, List.forall₂_same]
    exact fun item member => ih item member (plain item member)
  | alternation branches ih =>
    rw [Expr.references_alternation, List.flatMap_eq_nil_iff] at plain
    rw [Expr.bare, Expr.bareAll_eq_map]
    apply mirrors_branchAttempts
    rw [List.forall₂_map_right_iff, List.forall₂_same]
    exact fun branch member => ih branch member (plain branch member)
  | group index body ih =>
    have hides : Hides index fun _ _ => True := ⟨fun _ _ => trivial, fun _ _ => trivial⟩
    exact hides.mirrors_group (ih plain)
  | repetition body quantifier ih => exact mirrors_repetition sized (ih plain) quantifier
  | backreference index => cases plain

def Expr.firstMatch? (expr : Expr) (text : Array Char) (start : Nat) (slots : Slots) :
    Option (Nat × Nat) :=
  (expr.firstOutcome? text start slots).map fun (index, first) => (index, first.1)

theorem FirstAlike.ends_eq {same : Slots → Slots → Prop} {first second : Option (Nat × Outcome)}
    (alike : FirstAlike 0 same first second) :
    first.map (fun (index, outcome) => (index, outcome.1)) =
      second.map fun (index, outcome) => (index, outcome.1) := by
  cases alike with
  | none => rfl
  | some _ => simp only [Nat.zero_add, Option.map_some]

theorem firstMatch?_bare (plain : expr.references = []) (start : Nat) (slots : Slots) :
    expr.bare.firstMatch? text start slots = expr.firstMatch? text start slots := by
  have alike : FirstAlike 0 (fun _ _ => True) (expr.firstOutcome? text (0 + start) slots)
      (expr.bare.firstOutcome? text start slots) :=
    firstAlike_firstOutcome? (Nat.zero_add _).symm (mirrors_bare plain) start trivial
  rw [Nat.zero_add] at alike
  exact alike.ends_eq.symm

variable (text : List Char) (start : Nat)

theorem Graph.match_ofExpr (expr : Expr) (groups : Nat) :
    let found := expr.firstMatch? text.toArray start (.blank groups)
    let result := (ofExpr expr).search text.toArray start (.blank groups text.length)
    result.1 = found.isSome ∧ result.2.registers.slots.span 0 = found := by
  obtain ⟨succeeded, spans⟩ := reports_ofExpr expr groups text start
  dsimp only
  rw [succeeded, spans 0, Expr.firstMatch?]
  cases expr.firstOutcome? text.toArray start (.blank groups) <;> exact ⟨rfl, rfl⟩

theorem match_searchFrom (pattern : Pattern) :
    let found := pattern.expr.firstMatch? text.toArray start (.blank pattern.groups)
    let result := (pattern.matcher text).searchFrom start
    result.1 = found.isSome ∧ result.2.charSpan 0 = found := by
  dsimp only
  rw [succeeded_searchFrom, charSpan_searchFrom, Expr.firstMatch?]
  cases pattern.expr.firstOutcome? text.toArray start (.blank pattern.groups) <;> exact ⟨rfl, rfl⟩

end Trees

/-- For every pattern without backreferences in whose tree, when groups are replaced by their bodies,
a star stands directly in a star of the same greed: whatever the body of the inner star is, a search
for the tree with the inner star in the place of both gives the same answer and the same match, and
so do searches for the tree with all groups replaced by their bodies and for every tree that is the
collapsed one but for its groups. -/
theorem searchFrom_collapsed (pattern : Pattern) (plain : pattern.expr.references = [])
    (context : Expr.Context) (body : Expr) (greedy : Bool)
    (tree : pattern.expr.bare = context.fill ((body.star greedy).star greedy)) (text : List Char)
    (start : Nat) :
    let result := (pattern.matcher text).searchFrom start
    let Agrees := fun expr : Expr =>
      let other := (Graph.ofExpr expr).search text.toArray start (.blank pattern.groups text.length)
      result.1 = other.1 ∧ result.2.charSpan 0 = other.2.registers.slots.span 0
    Agrees pattern.expr.bare ∧ Agrees (context.fill (body.star greedy)) ∧
      ∀ expr : Expr, expr.references = [] → expr.bare = context.fill (body.star greedy) →
        Agrees expr := by
  intro result Agrees
  let first := fun expr : Expr => expr.firstMatch? text.toArray start (.blank pattern.groups)
  obtain ⟨succeeded, matched⟩ := match_searchFrom text start pattern
  have agrees : ∀ expr, first pattern.expr = first expr → Agrees expr := by
    intro expr same
    obtain ⟨found, span⟩ := Graph.match_ofExpr text start expr pattern.groups
    exact ⟨(succeeded.trans (congrArg Option.isSome same)).trans found.symm,
      (matched.trans same).trans span.symm⟩
  -- The groups come off first: only then does one star stand directly in the other.
  have bare : first pattern.expr = first pattern.expr.bare := (firstMatch?_bare plain start _).symm
  have collapsed : first pattern.expr = first (context.fill (body.star greedy)) := by
    rw [bare, tree]
    apply congrArg (Option.map _)
    apply Expr.firstOutcome?_congr
    exact fun index => Expr.sameChoice_fill (sameChoice_collapsed body greedy) context index _
  refine ⟨agrees _ bare, agrees _ collapsed, ?_⟩
  intro expr without form
  apply agrees
  rw [collapsed, ← form]
  exact firstMatch?_bare without start _

def emptyTurns : Pattern :=
  let body : Expr :=
    .sequence [.repetition (.group 3 (.literal 'a')) ⟨0, some 1, true⟩,
      .repetition (.literal 'b') ⟨0, some 1, true⟩]
  let expr : Expr := .sequence [.star (.group 1 (.star (.group 2 body) true)) true, .literal 'c']
  ⟨"(((a)?b?)*)*c", expr, 3, .ofExpr expr, by cbv, rfl⟩

/-- The turns are `ab`, `b` and `a`, and with one star or two there is an empty one behind them that
is not made. -/
theorem searchFrom_emptyTurns :
    let body : Expr :=
      .sequence [.repetition (.literal 'a') ⟨0, some 1, true⟩,
        .repetition (.literal 'b') ⟨0, some 1, true⟩]
    let grouped : Expr := .sequence [.star (.group 1 body) true, .literal 'c']
    let found := fun expr : Expr =>
      let other := (Graph.ofExpr expr).search #['x', 'a', 'b', 'b', 'a', 'c'] 0 (.blank 3 6)
      other.1 = true ∧ other.2.registers.slots.span 0 = some (1, 6)
    found (.sequence [.star body true, .literal 'c']) ∧ found grouped := by
  intro body grouped found
  obtain ⟨_, collapsed, beyond⟩ := searchFrom_collapsed emptyTurns rfl
    (.sequence [] .hole [.literal 'c']) body true rfl ['x', 'a', 'b', 'b', 'a', 'c'] 0
  have same := beyond grouped rfl rfl
  exact ⟨⟨collapsed.1.symm.trans (by cbv), collapsed.2.symm.trans (by cbv)⟩,
    same.1.symm.trans (by cbv), same.2.symm.trans (by cbv)⟩

end PatternSearch
