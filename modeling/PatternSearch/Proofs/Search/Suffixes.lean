import Mathlib
import PatternSearch.Proofs.Search.Mirrors
import PatternSearch.Proofs.Search.Report
import PatternSearch.Proofs.Text.Offsets

/-! Searches in what is left of a text. Only the test for the start of the text looks at positions
as such. So for a pattern without it, a search from some position on and a search of the text behind
that position mirror each other: they make the same attempts, with every position and every slot
moved on by what was left out. -/

namespace PatternSearch

def moveSlot (offset : Nat) (value : Int) : Int := if 0 ≤ value then offset + value else value

theorem moveSlot_natCast (offset position : Nat) :
    moveSlot offset position = (offset + position : Nat) :=
  if_pos (Int.natCast_nonneg position)

namespace Slots

variable {offset : Nat} {slots : Slots}

def move (offset : Nat) (slots : Slots) : Slots :=
  ⟨slots.starts.map (moveSlot offset), slots.stops.map (moveSlot offset)⟩

theorem move_blank (offset groups : Nat) : (blank groups).move offset = blank groups := by
  unfold move blank
  rw [Array.map_replicate]
  rfl

theorem start_move (group : Nat) : (slots.move offset).start group =
    moveSlot offset (slots.start group) := by
  unfold move start
  rw [Array.getElem?_map]
  cases slots.starts[group]? <;> rfl

theorem stop_move (group : Nat) : (slots.move offset).stop group =
    moveSlot offset (slots.stop group) := by
  unfold move stop
  rw [Array.getElem?_map]
  cases slots.stops[group]? <;> rfl

theorem span_move (group : Nat) : (slots.move offset).span group =
    (slots.span group).map fun (start, stop) => (offset + start, offset + stop) := by
  simp only [span, start_move, stop_move, moveSlot]
  generalize slots.start group = start
  generalize slots.stop group = stop
  by_cases ordered : 0 ≤ start ∧ start ≤ stop
  · rw [if_pos ordered, if_pos (show (0 : Int) ≤ start by omega),
      if_pos (show (0 : Int) ≤ stop by omega), if_pos (by omega), Option.map_some]
    congr 2 <;> omega
  · rw [if_neg ordered, if_neg (by split <;> split <;> omega), Option.map_none]

def Moved (offset : Nat) (left right : Slots) : Prop := left = right.move offset

theorem corresponds_moved (offset : Nat) : Corresponds offset (Moved offset) where
  setStart group index moved := by
    subst moved
    unfold Moved setStart move
    rw [Array.map_setIfInBounds, moveSlot_natCast]
  setStop group index moved := by
    subst moved
    unfold Moved setStop move
    rw [Array.map_setIfInBounds, moveSlot_natCast]

end Slots

theorem Outcome.span_move {offset start stop : Nat} (slots : Slots) (group : Nat) :
    Outcome.span (offset + start) (offset + stop, slots.move offset) group =
      (Outcome.span start (stop, slots) group).map
        fun (first, last) => (offset + first, offset + last) := by
  unfold span
  split
  · rfl
  · exact slots.span_move group

theorem FirstAlike.span_moved {offset : Nat} {first rest : Option (Nat × Outcome)}
    (alike : FirstAlike offset (Slots.Moved offset) first rest) (group : Nat) :
    first.bind (fun (index, outcome) => outcome.span index group) =
      (rest.bind fun (index, outcome) => outcome.span index group).map
        fun (first, last) => (offset + first, offset + last) := by
  cases alike with
  | none => rfl
  | some moved =>
    obtain rfl := moved
    exact Outcome.span_move _ group

section Texts

variable (before behind : Array Char)

theorem getElem?_append_size (index : Nat) :
    (before ++ behind)[before.size + index]? = behind[index]? := by
  rw [Array.getElem?_append_right (Nat.le_add_right ..), Nat.add_sub_cancel_left]

theorem extract_append_size (start stop : Nat) :
    (before ++ behind).extract (before.size + start) (before.size + stop) =
      behind.extract start stop := by
  rw [Array.extract_append, Nat.add_sub_cancel_left, Nat.add_sub_cancel_left,
    Array.extract_empty_of_size_le_start (Nat.le_add_right ..), Array.empty_append]

/-- Without a test for the start, a tree on a text mirrors itself on what stands behind. -/
theorem mirrors_append {expr : Expr} (unanchored : expr.Throughout (· ≠ .atStart)) :
    Mirrors before.size (Slots.Moved before.size) (expr.attempts (before ++ behind))
      (expr.attempts behind) := by
  have sized : (before ++ behind).size = before.size + behind.size := Array.size_append
  induction expr using Expr.induction with
  | empty =>
    intro index left right slots
    exact alike_here index slots
  | predicate test =>
    intro index left right slots
    simp only [Expr.attempts, sized, Nat.add_lt_add_iff_left, getElem?_append_size]
    split
    · split
      · exact alike_here (index + 1) slots
      · exact .nil
    · exact .cons .beyond .nil
  | atStart => exact absurd rfl unanchored.here
  | atEnd =>
    intro index left right slots
    simp only [Expr.attempts, sized, Nat.add_left_cancel_iff]
    split
    · exact alike_here index slots
    · exact .nil
  | sequence items ih =>
    have all := (Expr.Throughout.sequence_iff.mp unanchored).2
    exact mirrors_itemAttempts (List.forall₂_same.mpr fun item member => ih item member
      (all item member))
  | alternation branches ih =>
    have all := (Expr.Throughout.alternation_iff.mp unanchored).2
    exact mirrors_branchAttempts (List.forall₂_same.mpr fun branch member => ih branch member
      (all branch member))
  | group index body ih =>
    have inner := (Expr.Throughout.group_iff.mp unanchored).2
    exact (Slots.corresponds_moved before.size).mirrors_group index (ih inner)
  | repetition body quantifier ih =>
    have inner := (Expr.Throughout.repetition_iff.mp unanchored).2
    exact mirrors_repetition sized (ih inner) quantifier
  | backreference number =>
    rintro index _ right rfl
    simp only [Expr.attempts, Slots.span_move]
    cases right.span number with
    | none => exact .nil
    | some span =>
      have further : before.size + index + (before.size + span.2 - (before.size + span.1)) =
          before.size + (index + (span.2 - span.1)) := by omega
      simp only [Option.map_some, further, sized, Nat.add_lt_add_iff_left, extract_append_size]
      split
      · exact .cons .beyond .nil
      · split
        · exact alike_here _ rfl
        · exact .nil

theorem firstAlike_append {expr : Expr} (unanchored : expr.Throughout (· ≠ .atStart))
    (groups : Nat) :
    FirstAlike before.size (Slots.Moved before.size)
      (expr.firstOutcome? (before ++ behind) before.size (.blank groups))
      (expr.firstOutcome? behind 0 (.blank groups)) :=
  firstAlike_firstOutcome? Array.size_append (mirrors_append before behind unanchored) 0
    (Slots.move_blank before.size groups).symm

theorem startsBeyond_append {expr : Expr} (unanchored : expr.Throughout (· ≠ .atStart))
    (groups : Nat) :
    Attempt.startsBeyond (expr.attemptsFrom (before ++ behind) before.size (.blank groups)) =
      Attempt.startsBeyond (expr.attemptsFrom behind 0 (.blank groups)) :=
  startsBeyond_eq (mirrors_attemptsFrom Array.size_append (mirrors_append before behind unanchored) 0
    (Slots.move_blank before.size groups).symm)

end Texts

theorem byteLength_take_add (text : List Char) (start position : Nat) :
    byteLength (text.take (start + position)) =
      byteLength (text.take start) + byteLength ((text.drop start).take position) := by
  rw [List.take_add, byteLength_append]

/-- For every pattern that does not test for the start of the text, every text and every position
in it: a search from the position and a search of the text behind it give the same answer, and both
ask for text behind the end or neither does. What the first reports for a group is what the second
does, moved on by the bytes before the position. -/
theorem searchFrom_drop (pattern : Pattern) (unanchored : .atStart ∉ pattern.expr.parts)
    (text : List Char) (start : Nat) (inside : start ≤ text.length) :
    let result := (pattern.matcher text).searchFrom start
    let rest := (pattern.matcher (text.drop start)).search
    result.1 = rest.1 ∧ result.2.reachedEnd = rest.2.reachedEnd ∧
      ∀ group, result.2.byteSpan group = (rest.2.byteSpan group).map fun (first, last) =>
        (byteLength (text.take start) + first, byteLength (text.take start) + last) := by
  intro result rest
  have without : pattern.expr.Throughout (· ≠ .atStart) :=
    fun part member same => unanchored (same ▸ member)
  have whole : text.toArray = (text.take start).toArray ++ (text.drop start).toArray := by
    rw [List.append_toArray, List.take_append_drop]
  have skipped : (text.take start).toArray.size = start := by
    rw [List.size_toArray, List.length_take, Nat.min_eq_left inside]
  have first := firstAlike_append (text.take start).toArray (text.drop start).toArray without
    pattern.groups
  have noted := startsBeyond_append (text.take start).toArray (text.drop start).toArray without
    pattern.groups
  rw [← whole, skipped] at first noted
  refine ⟨?_, ?_, ?_⟩
  · change ((pattern.matcher text).searchFrom start).1 =
      ((pattern.matcher (text.drop start)).searchFrom 0).1
    rw [succeeded_searchFrom, succeeded_searchFrom]
    exact first.isSome_eq
  · change ((pattern.matcher text).searchFrom start).2.reachedEnd =
      ((pattern.matcher (text.drop start)).searchFrom 0).2.reachedEnd
    rw [noted_searchFrom, noted_searchFrom]
    exact noted
  · intro group
    change ((pattern.matcher text).searchFrom start).2.byteSpan group =
      (((pattern.matcher (text.drop start)).searchFrom 0).2.byteSpan group).map _
    rw [byteSpan_searchFrom, byteSpan_searchFrom, charSpan_searchFrom, charSpan_searchFrom,
      first.span_moved, Option.map_map, Option.map_map]
    congr 1
    funext span
    exact Prod.ext (byteLength_take_add text start span.1) (byteLength_take_add text start span.2)

def echoed : Pattern :=
  let letter : Expr := .group 1 (.alternation [.literal 'é', .literal 'b'])
  let expr : Expr :=
    .sequence [.repetition letter ⟨1, none, true⟩, .backreference 1, .atEnd]
  ⟨"(é|b)+\\1$", expr, 1, .ofExpr expr, by cbv, rfl⟩

/-- Three bytes are left out with two characters. -/
theorem searchFrom_echoed :
    let result := (echoed.matcher ['é', 'x', 'é', 'é', 'b', 'b']).searchFrom 2
    result.1 = true ∧ result.2.reachedEnd = true ∧ result.2.byteSpan 0 = some (3, 9) ∧
      result.2.byteSpan 1 = some (7, 8) ∧ result.2.byteSpan 2 = none := by
  have unanchored : .atStart ∉ echoed.expr.parts := by
    simp [echoed, Expr.parts, Expr.allParts, Expr.literal]
  obtain ⟨found, noted, spans⟩ :=
    searchFrom_drop echoed unanchored ['é', 'x', 'é', 'é', 'b', 'b'] 2 (by decide)
  refine ⟨found.trans (by cbv), noted.trans (by cbv), ?_⟩
  rw [spans, spans, spans]
  exact ⟨by cbv, by cbv, by cbv⟩

end PatternSearch
