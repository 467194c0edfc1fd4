import Mathlib
import PatternSearch.Expr.Composition
import PatternSearch.Proofs.Search.Mirrors
import PatternSearch.Proofs.Search.Report

/-! Searches without a group. If no backreference names a group, nothing that a search decides
depends on what the group holds. So a tree and the same tree with the body of the group in its place
mirror each other: they make the same attempts, with slots that agree except for the group's own,
and their graphs, which differ, find the same match. -/

namespace PatternSearch

structure SameExcept (number : Nat) (values others : Array Int) : Prop where
  sizes : values.size = others.size
  agree : ∀ other, other ≠ number → values[other]? = others[other]?

namespace SameExcept

variable {number : Nat} {values others : Array Int}

theorem refl (number : Nat) (values : Array Int) : SameExcept number values values :=
  ⟨rfl, fun _ _ => rfl⟩

theorem write (same : SameExcept number values others) (written : Nat) (value : Int) :
    SameExcept number (values.setIfInBounds written value) (others.setIfInBounds written value) where
  sizes := by rw [Array.size_setIfInBounds, Array.size_setIfInBounds, same.sizes]
  agree other apart := by
    rw [Array.getElem?_setIfInBounds, Array.getElem?_setIfInBounds, same.sizes,
      same.agree other apart]

theorem hide (same : SameExcept number values others) (value : Int) :
    SameExcept number (values.setIfInBounds number value) others where
  sizes := by rw [Array.size_setIfInBounds, same.sizes]
  agree other apart := by
    rw [Array.getElem?_setIfInBounds_ne apart.symm, same.agree other apart]

/-- Once the slot is written on both sides, nothing is left to tell them apart. -/
theorem settle (same : SameExcept number values others) (value : Int) :
    values.setIfInBounds number value = others.setIfInBounds number value := by
  apply Array.ext_getElem?
  intro other
  by_cases own : other = number
  · rw [own, Array.getElem?_setIfInBounds_self, Array.getElem?_setIfInBounds_self, same.sizes]
  · exact (same.write number value).agree other own

end SameExcept

structure Slots.AgreeExcept (number : Nat) (left right : Slots) : Prop where
  starts : SameExcept number left.starts right.starts
  stops : SameExcept number left.stops right.stops

namespace Slots.AgreeExcept

variable {number : Nat} {left right : Slots}

theorem refl (number : Nat) (slots : Slots) : slots.AgreeExcept number slots :=
  ⟨.refl number _, .refl number _⟩

theorem span (agree : left.AgreeExcept number right) {other : Nat} (apart : other ≠ number) :
    left.span other = right.span other := by
  unfold Slots.span Slots.start Slots.stop
  rw [agree.starts.agree other apart, agree.stops.agree other apart]

theorem setStart (agree : left.AgreeExcept number right) (group : Nat) (value : Int) :
    (left.setStart group value).AgreeExcept number (right.setStart group value) :=
  ⟨agree.starts.write group value, agree.stops⟩

theorem setStop (agree : left.AgreeExcept number right) (group : Nat) (value : Int) :
    (left.setStop group value).AgreeExcept number (right.setStop group value) :=
  ⟨agree.starts, agree.stops.write group value⟩

theorem hideStart (agree : left.AgreeExcept number right) (value : Int) :
    (left.setStart number value).AgreeExcept number right :=
  ⟨agree.starts.hide value, agree.stops⟩

theorem hideStop (agree : left.AgreeExcept number right) (value : Int) :
    (left.setStop number value).AgreeExcept number right :=
  ⟨agree.starts, agree.stops.hide value⟩

theorem corresponds (number : Nat) : Corresponds 0 (AgreeExcept number) where
  setStart group index agree := by
    rw [Nat.zero_add]
    exact agree.setStart group index
  setStop group index agree := by
    rw [Nat.zero_add]
    exact agree.setStop group index

theorem hides (number : Nat) : Hides number (AgreeExcept number) :=
  ⟨fun value agree => agree.hideStart value, fun value agree => agree.hideStop value⟩

theorem span_reported (agree : left.AgreeExcept number right) (start stop : Int) {other : Nat}
    (reported : other = 0 ∨ other ≠ number) :
    ((left.setStart 0 start).setStop 0 stop).span other =
      ((right.setStart 0 start).setStop 0 stop).span other := by
  by_cases whole : number = 0
  · subst whole
    unfold Slots.setStart Slots.setStop
    rw [agree.starts.settle, agree.stops.settle]
  · exact ((agree.setStart 0 start).setStop 0 stop).span (by omega)

end Slots.AgreeExcept

open Slots (AgreeExcept)

variable {text : Array Char} {number : Nat}

/-- Without backreferences to a group, a tree mirrors itself without the group. -/
theorem mirrors_ungroup {expr : Expr} (unnamed : expr.Throughout (· ≠ .backreference number)) :
    Mirrors 0 (AgreeExcept number) (expr.attempts text) ((expr.ungroup number).attempts text) := by
  have sized : text.size = 0 + text.size := (Nat.zero_add _).symm
  induction expr using Expr.induction with
  | empty => exact mirrors_empty
  | predicate test => exact mirrors_predicate test
  | atStart => exact mirrors_atStart
  | atEnd => exact mirrors_atEnd
  | sequence items ih =>
    have all := (Expr.Throughout.sequence_iff.mp unnamed).2
    rw [Expr.ungroup, Expr.ungroupAll_eq_map]
    apply mirrors_itemAttempts
    rw [List.forall₂_map_right_iff, List.forall₂_same]
    exact fun item member => ih item member (all item member)
  | alternation branches ih =>
    have all := (Expr.Throughout.alternation_iff.mp unnamed).2
    rw [Expr.ungroup, Expr.ungroupAll_eq_map]
    apply mirrors_branchAttempts
    rw [List.forall₂_map_right_iff, List.forall₂_same]
    exact fun branch member => ih branch member (all branch member)
  | group index body ih =>
    have inner := ih (Expr.Throughout.group_iff.mp unnamed).2
    rw [Expr.ungroup]
    split
    · next own =>
      subst own
      exact (AgreeExcept.hides index).mirrors_group inner
    · exact (AgreeExcept.corresponds number).mirrors_group index inner
  | repetition body quantifier ih =>
    have inner := ih (Expr.Throughout.repetition_iff.mp unnamed).2
    rw [Expr.ungroup]
    exact mirrors_repetition sized inner quantifier
  | backreference index =>
    have apart : index ≠ number := fun same => unnamed.here (same ▸ rfl)
    intro place left right agree
    simp only [Expr.ungroup, Expr.attempts, Nat.zero_add, agree.span apart]
    cases right.span index with
    | none => exact .nil
    | some span =>
      dsimp only
      split
      · exact .cons .beyond .nil
      · split
        · exact alike_at _ agree
        · exact .nil

theorem FirstAlike.scanned {first second : Option (Nat × Outcome)}
    (alike : FirstAlike 0 (AgreeExcept number) first second) (registers : Registers)
    (reachedEnd : Bool) :
    let result := Graph.scanned registers reachedEnd first
    let plain := Graph.scanned registers reachedEnd second
    result.1 = plain.1 ∧ result.2.reachedEnd = plain.2.reachedEnd ∧
      result.2.matchStart = plain.2.matchStart ∧
      ∀ group, group = 0 ∨ group ≠ number →
        result.2.slots.span group = plain.2.slots.span group := by
  cases alike with
  | none => exact ⟨rfl, rfl, rfl, fun _ _ => rfl⟩
  | some agree =>
    simp only [Nat.zero_add]
    exact ⟨rfl, rfl, rfl, fun group reported => agree.span_reported _ _ reported⟩

/-- For every pattern, every group that no backreference of the pattern names, every text and every
start: searching the graph of the pattern and searching the graph of its tree without the group give
the same answer and the same match, both ask for text behind the end or neither does, and the match
and all other groups have the same spans. -/
theorem search_ungroup (pattern : Pattern) (number : Nat)
    (unnamed : number ∉ pattern.expr.references) (text : List Char) (start : Nat) :
    let state := SearchState.blank pattern.groups text.length
    let result := pattern.graph.search text.toArray start state
    let plain := (Graph.ofExpr (pattern.expr.ungroup number)).search text.toArray start state
    result.1 = plain.1 ∧ result.2.registers.reachedEnd = plain.2.registers.reachedEnd ∧
      result.2.registers.matchStart = plain.2.registers.matchStart ∧
      ∀ group, group = 0 ∨ group ≠ number →
        result.2.registers.slots.span group = plain.2.registers.slots.span group := by
  intro state result plain
  have without : pattern.expr.Throughout (· ≠ .backreference number) :=
    fun part member same => unnamed (List.mem_filterMap.mpr ⟨part, member, same ▸ rfl⟩)
  have sized : text.toArray.size = 0 + text.toArray.size := (Nat.zero_add _).symm
  have blank := AgreeExcept.refl number (.blank pattern.groups)
  have first := firstAlike_firstOutcome? sized (mirrors_ungroup without) start blank
  have noted := startsBeyond_eq (mirrors_attemptsFrom sized (mirrors_ungroup without) start blank)
  rw [Nat.zero_add] at first noted
  have searched : result = _ := pattern.lowered ▸ Graph.search_ofExpr pattern.expr _ text start
  have plainly : plain = _ := Graph.search_ofExpr (pattern.expr.ungroup number) _ text start
  rw [searched, plainly, noted]
  exact first.scanned (.blank pattern.groups) _

def nestedLetter : Pattern :=
  let letter : Expr := .group 1 (.alternation [.group 2 (.literal 'a'), .literal 'b'])
  let expr : Expr :=
    .sequence [.repetition letter ⟨1, none, true⟩, .backreference 1, .literal 'c']
  ⟨"((a)|b)+\\1c", expr, 2, .ofExpr expr, by cbv, rfl⟩

theorem search_nestedLetter :
    let state := SearchState.blank 2 5
    let plain := (Graph.ofExpr (nestedLetter.expr.ungroup 2)).search #['c', 'a', 'b', 'b', 'c'] 0
      state
    plain.1 = true ∧ plain.2.registers.reachedEnd = false ∧
      plain.2.registers.slots.span 0 = some (1, 5) ∧
      plain.2.registers.slots.span 1 = some (2, 3) := by
  obtain ⟨found, noted, _, spans⟩ :=
    search_ungroup nestedLetter 2 (by decide) ['c', 'a', 'b', 'b', 'c'] 0
  exact ⟨found.symm.trans (by cbv), noted.symm.trans (by cbv),
    (spans 0 (.inl rfl)).symm.trans (by cbv), (spans 1 (.inr (by decide))).symm.trans (by cbv)⟩

end PatternSearch
