import Mathlib.Data.List.Forall2
import PatternSearch.Proofs.Search.Refinement

/-! Attempts that mirror each other. Two trees, on two texts, mirror each other if from positions
that lie a fixed offset apart and from slots that correspond they make the same attempts in the
same order, and if these lead to positions that lie as far apart and to slots that correspond. Trees
that are put together from mirrored parts are mirrored, whatever the correspondence of the slots
is, and they are first matched at positions that lie as far apart. -/

namespace PatternSearch

open Attempt

/-- Either both ask for text behind the end, or both are outcomes at positions `offset` apart with
slots that correspond. -/
inductive Attempt.Alike (offset : Nat) (same : Slots → Slots → Prop) : Attempt → Attempt → Prop where
  | beyond : Alike offset same .beyond .beyond
  | outcome {stop : Nat} {left right : Slots} (slots : same left right) :
      Alike offset same (.outcome (offset + stop) left) (.outcome stop right)

/-- What both make of positions `offset` apart and of slots that correspond is alike. -/
def Mirrors (offset : Nat) (same : Slots → Slots → Prop)
    (first second : Nat → Slots → List Attempt) : Prop :=
  ∀ index left right, same left right →
    List.Forall₂ (Alike offset same) (first (offset + index) left) (second index right)

variable {offset : Nat} {same : Slots → Slots → Prop}

section Attempts

variable {attempts others : List Attempt} {first second next further : Nat → Slots → List Attempt}

theorem alike_here {left right : Slots} (index : Nat) (slots : same left right) :
    List.Forall₂ (Alike offset same) [.outcome (offset + index) left] [.outcome index right] :=
  .cons (.outcome slots) .nil

theorem alike_at {left right : Slots} (index : Nat) (slots : same left right) :
    List.Forall₂ (Alike 0 same) [.outcome index left] [.outcome index right] := by
  have here : List.Forall₂ (Alike 0 same) [.outcome (0 + index) left] [.outcome index right] :=
    alike_here index slots
  rwa [Nat.zero_add] at here

theorem alike_andThen (alike : List.Forall₂ (Alike offset same) attempts others)
    (onward : Mirrors offset same next further) :
    List.Forall₂ (Alike offset same) (andThen attempts next) (andThen others further) := by
  induction alike with
  | nil => exact .nil
  | cons head _ ih =>
    cases head with
    | beyond => exact .cons .beyond ih
    | outcome slots => exact List.rel_append (onward _ _ _ slots) ih

theorem Mirrors.andThen (mirrors : Mirrors offset same first second)
    (onward : Mirrors offset same next further) :
    Mirrors offset same (fun index slots => Attempt.andThen (first index slots) next)
      fun index slots => Attempt.andThen (second index slots) further :=
  fun index left right slots => alike_andThen (mirrors index left right slots) onward

theorem startsBeyond_eq (alike : List.Forall₂ (Alike offset same) attempts others) :
    startsBeyond attempts = startsBeyond others := by
  cases alike with
  | nil => rfl
  | cons head _ => cases head <;> rfl

variable {limit : Nat}

theorem Mirrors.moving {index : Nat} {tried : Nat → Slots → List Attempt}
    (onward : ∀ stop after, index < stop ∧ stop ≤ limit → ∀ left, same left after →
      List.Forall₂ (Alike offset same) (tried (offset + stop) left) (next stop after)) :
    Mirrors offset same
      (fun stop after =>
        if offset + index < stop ∧ stop ≤ offset + limit then tried stop after else [])
      fun stop after => if index < stop ∧ stop ≤ limit then next stop after else [] := by
  intro stop left right slots
  dsimp only
  by_cases moves : index < stop ∧ stop ≤ limit
  · rw [if_pos moves, if_pos (by omega)]
    exact onward stop right moves left slots
  · rw [if_neg moves, if_neg (by omega)]
    exact .nil

/-- Loops over mirrored bodies. The induction is that of the iterations on the second side. -/
theorem Mirrors.repetition (body : Mirrors offset same first second) (quantifier : Quantifier)
    (limit count : Nat) :
    Mirrors offset same (quantifier.attempts (offset + limit) first count)
      (quantifier.attempts limit second count) := by
  intro index left right slots
  induction count, index, right using quantifier.iteration_induction limit generalizing left with
  | forced count index right few ih =>
    rw [Quantifier.attempts_forced few, Quantifier.attempts_forced few]
    apply alike_andThen (body index left right slots)
    intro stop between after reached
    exact ih stop after between reached
  | free count index right enough ih =>
    have going : List.Forall₂ (Alike offset same)
        (quantifier.goingAttempts (offset + limit) first count (offset + index) left)
        (quantifier.goingAttempts limit second count index right) := by
      unfold Quantifier.goingAttempts
      by_cases more : quantifier.allowsMore count = true
      · rw [if_pos more, if_pos more]
        apply alike_andThen (body index left right slots)
        apply Mirrors.moving
        intro stop after moves between reached
        exact ih stop after moves between reached
      · rw [if_neg more, if_neg more]
        exact .nil
    rw [Quantifier.attempts_free enough, Quantifier.attempts_free enough]
    split
    · exact List.rel_append going (alike_here index slots)
    · exact List.rel_append (alike_here index slots) going

end Attempts

inductive FirstAlike (offset : Nat) (same : Slots → Slots → Prop) :
    Option (Nat × Outcome) → Option (Nat × Outcome) → Prop where
  | none : FirstAlike offset same none none
  | some {start stop : Nat} {left right : Slots} (slots : same left right) :
      FirstAlike offset same (some (offset + start, offset + stop, left))
        (some (start, stop, right))

theorem FirstAlike.or {first second next further : Option (Nat × Outcome)}
    (here : FirstAlike offset same first second) (later : FirstAlike offset same next further) :
    FirstAlike offset same (first.or next) (second.or further) := by
  cases here with
  | none => exact later
  | some slots => exact .some slots

theorem FirstAlike.isSome_eq {first second : Option (Nat × Outcome)}
    (alike : FirstAlike offset same first second) : first.isSome = second.isSome := by
  cases alike <;> rfl

theorem firstAlike_head {attempts others : List Attempt} (start : Nat)
    (alike : List.Forall₂ (Alike offset same) attempts others) :
    FirstAlike offset same ((attempts.filterMap outcome?).head?.map (offset + start, ·))
      ((others.filterMap outcome?).head?.map (start, ·)) := by
  induction alike with
  | nil => exact .none
  | cons head _ ih =>
    cases head with
    | beyond => exact ih
    | outcome slots => exact .some slots

section Trees

variable {text other : Array Char} {items others : List Expr} {expr image : Expr}

theorem mirrors_itemAttempts
    (each : List.Forall₂ (fun item image =>
      Mirrors offset same (item.attempts text) (image.attempts other)) items others) :
    Mirrors offset same (Expr.itemAttempts text items) (Expr.itemAttempts other others) := by
  induction each with
  | nil => exact fun index left right slots => alike_here index slots
  | cons head _ ih => exact head.andThen ih

theorem mirrors_branchAttempts
    (each : List.Forall₂ (fun branch image =>
      Mirrors offset same (branch.attempts text) (image.attempts other)) items others) :
    Mirrors offset same (Expr.branchAttempts text items) (Expr.branchAttempts other others) := by
  induction each with
  | nil => exact fun _ _ _ _ => .nil
  | cons head _ ih =>
    intro index left right slots
    exact List.rel_append (head index left right slots) (ih index left right slots)

structure Corresponds (offset : Nat) (same : Slots → Slots → Prop) : Prop where
  setStart : ∀ {left right : Slots} (group index : Nat), same left right →
    same (left.setStart group (offset + index : Nat)) (right.setStart group index)
  setStop : ∀ {left right : Slots} (group index : Nat), same left right →
    same (left.setStop group (offset + index : Nat)) (right.setStop group index)

theorem Corresponds.mirrors_group (corresponds : Corresponds offset same) (number : Nat)
    (mirrors : Mirrors offset same (expr.attempts text) (image.attempts other)) :
    Mirrors offset same ((Expr.group number expr).attempts text)
      ((Expr.group number image).attempts other) := by
  intro index left right slots
  rw [Expr.attempts, Expr.attempts]
  apply alike_andThen (mirrors index _ _ (corresponds.setStart number index slots))
  intro stop between after reached
  exact alike_here stop (corresponds.setStop number stop reached)

/-- Writing to the slots of the group on one side only keeps the correspondence. -/
structure Hides (number : Nat) (same : Slots → Slots → Prop) : Prop where
  setStart : ∀ {left right : Slots} (value : Int), same left right →
    same (left.setStart number value) right
  setStop : ∀ {left right : Slots} (value : Int), same left right →
    same (left.setStop number value) right

/-- A group whose slots need not correspond mirrors what its body mirrors. -/
theorem Hides.mirrors_group {number : Nat} (hides : Hides number same)
    (mirrors : Mirrors 0 same (expr.attempts text) (image.attempts text)) :
    Mirrors 0 same ((Expr.group number expr).attempts text) (image.attempts text) := by
  intro index left right slots
  have inner := mirrors index _ right (hides.setStart (0 + index : Nat) slots)
  rw [Expr.attempts, ← Attempt.andThen_outcomes (image.attempts text index right)]
  apply alike_andThen inner
  intro stop between after reached
  exact alike_here stop (hides.setStop (0 + stop : Nat) reached)

section Leaves

theorem mirrors_empty : Mirrors 0 same (Expr.empty.attempts text) (Expr.empty.attempts text) := by
  intro index left right slots
  exact alike_here index slots

theorem mirrors_predicate (test : Predicate) :
    Mirrors 0 same ((Expr.predicate test).attempts text) ((Expr.predicate test).attempts text) := by
  intro index left right slots
  simp only [Expr.attempts, Nat.zero_add]
  split
  · split
    · exact alike_at (index + 1) slots
    · exact .nil
  · exact .cons .beyond .nil

theorem mirrors_atStart :
    Mirrors 0 same (Expr.atStart.attempts text) (Expr.atStart.attempts text) := by
  intro index left right slots
  simp only [Expr.attempts, Nat.zero_add]
  split
  · exact alike_at index slots
  · exact .nil

theorem mirrors_atEnd : Mirrors 0 same (Expr.atEnd.attempts text) (Expr.atEnd.attempts text) := by
  intro index left right slots
  simp only [Expr.attempts, Nat.zero_add]
  split
  · exact alike_at index slots
  · exact .nil

end Leaves

variable (sized : text.size = offset + other.size)
include sized

theorem mirrors_repetition
    (mirrors : Mirrors offset same (expr.attempts text) (image.attempts other))
    (quantifier : Quantifier) :
    Mirrors offset same ((Expr.repetition expr quantifier).attempts text)
      ((Expr.repetition image quantifier).attempts other) := by
  have looped := mirrors.repetition quantifier other.size 0
  rw [← sized] at looped
  intro index left right slots
  rw [Expr.attempts, Expr.attempts]
  exact looped index left right slots

theorem mirrors_attemptsFrom
    (mirrors : Mirrors offset same (expr.attempts text) (image.attempts other)) (start : Nat)
    {left right : Slots} (slots : same left right) :
    List.Forall₂ (Alike offset same) (expr.attemptsFrom text (offset + start) left)
      (image.attemptsFrom other start right) := by
  have many : text.size + 1 - (offset + start) = other.size + 1 - start := by omega
  unfold Expr.attemptsFrom
  rw [many, ← List.map_add_range', List.flatMap_map]
  apply List.rel_append
  · apply List.rel_flatMap (List.forall₂_same.mpr fun index _ => rfl)
    rintro index _ rfl
    exact mirrors index left right slots
  · exact .cons .beyond .nil

theorem firstAlike_firstOutcome?
    (mirrors : Mirrors offset same (expr.attempts text) (image.attempts other)) (start : Nat)
    {left right : Slots} (slots : same left right) :
    FirstAlike offset same (expr.firstOutcome? text (offset + start) left)
      (image.firstOutcome? other start right) := by
  induction ahead : other.size + 1 - start generalizing start with
  | zero =>
    rw [expr.firstOutcome?_beyond (by omega), image.firstOutcome?_beyond (by omega)]
    exact .none
  | succ ahead ih =>
    have here := firstAlike_head start (mirrors start left right slots)
    rw [expr.outcomes_attempts, image.outcomes_attempts] at here
    rw [expr.firstOutcome?_or (by omega), image.firstOutcome?_or (by omega)]
    exact here.or (ih (start + 1) (by omega))

end Trees

end PatternSearch
