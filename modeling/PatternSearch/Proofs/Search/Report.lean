import PatternSearch.Proofs.Parse.Reading
import PatternSearch.Proofs.Search.Refinement
import PatternSearch.Proofs.Semantics.Language

/-! What a matcher reports after a search. Whether there is a match, where it lies and what its
groups hold is told by the outcomes of the pattern's tree. For a pattern without backreferences
it is told by its language: a search misses no match and reports none that is not there. -/

namespace PatternSearch

def Outcome.span (start : Nat) (outcome : Outcome) (group : Nat) : Option (Nat × Nat) :=
  if group = 0 then some (start, outcome.1) else outcome.2.span group

theorem Outcome.span_written {outcome : Outcome} {limit start groups : Nat}
    (follows : outcome.Follows limit start (.blank groups)) (group : Nat) :
    ((outcome.2.setStart 0 start).setStop 0 outcome.1).span group = outcome.span start group := by
  have starts : 0 < outcome.2.starts.size := by
    rw [follows.starts]
    simp [Slots.blank]
  have stops : 0 < (outcome.2.setStart 0 start).stops.size := by
    change 0 < outcome.2.stops.size
    rw [follows.stops]
    simp [Slots.blank]
  have forward := follows.forward
  simp only [Slots.span, Slots.start_setStop, Slots.start_setStart starts,
    Slots.stop_setStop stops, Slots.stop_setStart, span]
  by_cases zero : group = 0
  · have ordered : (0 : Int) ≤ start ∧ (start : Int) ≤ outcome.1 := by omega
    simp only [if_pos zero, if_pos ordered, Int.toNat_natCast]
  · simp only [if_neg zero]

theorem charSpan_searched (pattern : Pattern) (text : List Char) (reachedEnd : Bool)
    {start : Nat} {outcome : Outcome}
    (follows : outcome.Follows text.length start (.blank pattern.groups)) (group : Nat) :
    (pattern.searched text reachedEnd (some (start, outcome))).2.charSpan group =
      outcome.span start group := by
  have set : (start : Int) ≠ unset := by
    unfold unset
    omega
  rw [← Outcome.span_written follows]
  exact if_neg set

theorem succeeded_searched (pattern : Pattern) (text : List Char) (reachedEnd : Bool)
    (found : Option (Nat × Outcome)) :
    (pattern.searched text reachedEnd found).1 = true ↔ found ≠ none := by
  cases found <;> simp [Pattern.searched]

theorem byteSpan_searched (pattern : Pattern) (text : List Char) (reachedEnd : Bool)
    (found : Option (Nat × Outcome)) (group : Nat) :
    (pattern.searched text reachedEnd found).2.byteSpan group =
      ((pattern.searched text reachedEnd found).2.charSpan group).map fun (start, stop) =>
        (byteLength (text.take start), byteLength (text.take stop)) := by
  cases found <;> rfl

section Reports

variable (pattern : Pattern) (text : List Char) (start : Nat)

theorem succeeded_searchFrom :
    ((pattern.matcher text).searchFrom start).1 =
      (pattern.expr.firstOutcome? text.toArray start (.blank pattern.groups)).isSome := by
  rw [searchFrom_eq_searched]
  cases pattern.expr.firstOutcome? text.toArray start (.blank pattern.groups) <;> rfl

theorem charSpan_searchFrom (group : Nat) :
    ((pattern.matcher text).searchFrom start).2.charSpan group =
      (pattern.expr.firstOutcome? text.toArray start (.blank pattern.groups)).bind
        fun (index, first) => first.span index group := by
  rw [searchFrom_eq_searched]
  cases found : pattern.expr.firstOutcome? text.toArray start (.blank pattern.groups) with
  | none => rfl
  | some first =>
    obtain ⟨index, first⟩ := first
    obtain ⟨_, inside, member, _⟩ := Expr.firstOutcome?_spec found
    have follows := pattern.expr.outcomes_follow index _ inside _ member
    exact charSpan_searched pattern text _ follows group

theorem byteSpan_searchFrom (group : Nat) :
    ((pattern.matcher text).searchFrom start).2.byteSpan group =
      (((pattern.matcher text).searchFrom start).2.charSpan group).map fun (first, last) =>
        (byteLength (text.take first), byteLength (text.take last)) := by
  rw [searchFrom_eq_searched]
  exact byteSpan_searched ..

theorem noted_searchFrom :
    ((pattern.matcher text).searchFrom start).2.reachedEnd =
      Attempt.startsBeyond
        (pattern.expr.attemptsFrom text.toArray start (.blank pattern.groups)) := by
  rw [searchFrom_eq_searched]
  cases pattern.expr.firstOutcome? text.toArray start (.blank pattern.groups) <;> rfl

end Reports

theorem Pattern.agrees (pattern : Pattern) (plain : pattern.expr.references = [])
    (text : Array Char) : pattern.expr.Agrees text :=
  agrees_of_regular ((canonical_of_parse pattern.parsed).regular plain)

/-- For every pattern without backreferences, a search succeeds exactly if the pattern matches
between some positions of the text, the first of them not before the start. The match that it
reports starts at the first position from which the pattern matches, and it is a match. -/
theorem searchFrom_decides_language (pattern : Pattern) (text : List Char) (start : Nat)
    (plain : pattern.expr.references = []) :
    let result := (pattern.matcher text).searchFrom start
    let Matches := Expr.Matches text.toArray pattern.expr
    (result.1 = true ↔
        ∃ index stop, start ≤ index ∧ index ≤ text.length ∧ Matches index stop) ∧
      (result.1 = true → ∃ index stop, result.2.charSpan 0 = some (index, stop) ∧
        start ≤ index ∧ stop ≤ text.length ∧ Matches index stop ∧
        ∀ earlier, start ≤ earlier → earlier < index → ∀ stop, ¬Matches earlier stop) := by
  intro result Matches
  have agrees := pattern.agrees plain text.toArray
  obtain ⟨reachedEnd, searched⟩ := searchFrom_eq pattern text start
  change result = _ at searched
  constructor
  · rw [searched, succeeded_searched, ne_eq, Expr.firstOutcome?_eq_none]
    constructor
    · intro fertile
      push Not at fertile
      obtain ⟨index, after, inside, outcomes⟩ := fertile
      obtain ⟨⟨stop, slots⟩, member⟩ := List.exists_mem_of_ne_nil _ outcomes
      exact ⟨index, stop, after, inside, (agrees index _ stop inside).mp ⟨slots, member⟩⟩
    · rintro ⟨index, stop, after, inside, matched⟩ barren
      obtain ⟨slots, member⟩ := (agrees index (.blank pattern.groups) stop inside).mpr matched
      rw [barren index after inside] at member
      cases member
  · intro succeeded
    rw [searched, succeeded_searched] at succeeded
    obtain ⟨⟨index, stop, slots⟩, found⟩ := Option.ne_none_iff_exists'.mp succeeded
    obtain ⟨after, inside, member, barren⟩ := Expr.firstOutcome?_spec found
    have follows := pattern.expr.outcomes_follow index _ inside _ member
    have matched := (agrees index _ stop inside).mp ⟨slots, member⟩
    refine ⟨index, stop, ?_, after, follows.inside, matched, ?_⟩
    · rw [searched, found]
      exact charSpan_searched pattern text reachedEnd follows 0
    · intro earlier behind before other earlierMatched
      have possible : earlier ≤ text.toArray.size := Nat.le_trans (Nat.le_of_lt before) inside
      obtain ⟨between, member⟩ :=
        (agrees earlier (.blank pattern.groups) other possible).mpr earlierMatched
      rw [barren earlier behind before] at member
      cases member

def nestedStar : Pattern :=
  let star : Quantifier := ⟨0, none, true⟩
  let expr : Expr :=
    .sequence [.repetition (.group 1 (.repetition (.literal 'a') star)) star, .literal 'b']
  ⟨"(a*)*b", expr, 1, .ofExpr expr, by cbv, rfl⟩

theorem searchFrom_nestedStar : ((nestedStar.matcher ['x', 'a', 'b']).searchFrom 0).1 = true := by
  apply (searchFrom_decides_language nestedStar ['x', 'a', 'b'] 0 rfl).1.mpr
  have inner : Expr.Matches #['x', 'a', 'b']
      (.group 1 (.repetition (.literal 'a') ⟨0, none, true⟩)) 1 2 :=
    .group (.repetition (Nat.zero_le _) (by simp) (.succ (.predicate rfl rfl) .zero))
  have outer : Expr.Matches #['x', 'a', 'b']
      (.repetition (.group 1 (.repetition (.literal 'a') ⟨0, none, true⟩)) ⟨0, none, true⟩) 1 2 :=
    .repetition (Nat.zero_le _) (by simp) (.succ inner .zero)
  refine ⟨1, 3, by decide, by decide, ?_⟩
  exact .sequence (.cons outer (.cons (.predicate rfl rfl) .nil))

end PatternSearch
