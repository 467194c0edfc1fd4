import PatternSearch.Proofs.Search.Bounds
import PatternSearch.Proofs.Search.EndNotes
import PatternSearch.Proofs.Search.Report
import PatternSearch.Session

/-! A matcher carries nothing from one search to the next. Whatever a session has done, a search
starts from the same state as on a fresh matcher, because the slots keep their number; and what the
matcher reports is told by the last search or reset of the session alone. -/

namespace PatternSearch

theorem endsWith_concat {kind quiet : Exchange → Prop} {exchanges : List Exchange}
    {exchange : Exchange} :
    EndsWith kind quiet (exchanges ++ [exchange]) ↔
      kind exchange ∨ quiet exchange ∧ EndsWith kind quiet exchanges := by
  constructor
  · rintro ⟨before, last, behind, same, own, each⟩
    rcases List.eq_nil_or_concat behind with rfl | ⟨further, final, rfl⟩
    · obtain ⟨_, single⟩ := List.append_inj' same rfl
      cases single
      exact .inl own
    · rw [List.concat_eq_append, ← List.cons_append, ← List.append_assoc] at same
      obtain ⟨rfl, single⟩ := List.append_inj' same rfl
      cases single
      rw [List.concat_eq_append, List.forall_mem_append] at each
      exact .inr ⟨each.2 _ (List.mem_singleton_self _), before, last, further, rfl, own, each.1⟩
  · rintro (own | ⟨calm, before, last, behind, rfl, own, each⟩)
    · exact ⟨exchanges, exchange, [], rfl, own, nofun⟩
    · refine ⟨before, last, behind ++ [exchange], by simp, own, ?_⟩
      rw [List.forall_mem_append, List.forall_mem_singleton]
      exact ⟨each, calm⟩

theorem not_endsWith_nil {kind quiet : Exchange → Prop} : ¬EndsWith kind quiet [] := by
  rintro ⟨before, last, behind, same, _⟩
  simp at same

namespace Matcher

/-- Searches depend on the pattern, on the text and on the number of slots. -/
theorem prepared_eq_blank {matcher : Matcher} {groups length : Nat}
    (sized : matcher.text.size = length)
    (starts : matcher.state.registers.slots.starts.size = groups + 1)
    (stops : matcher.state.registers.slots.stops.size = groups + 1) :
    matcher.prepared = .blank groups length := by
  simp [prepared, reset, SearchState.reset, SearchState.clearSlots, Registers.cleared,
    Registers.rewind, Slots.clear, sized, starts, stops, SearchState.blank, Registers.blank,
    Slots.blank]

/-- What a session keeps: the matcher is still one for the pattern and the text, and it reports
what its last search or reset left. -/
structure Remembers (pattern : Pattern) (text : List Char) (past : List Exchange)
    (matcher : Matcher) : Prop where
  samePattern : matcher.pattern = pattern
  sameText : matcher.text = text.toArray
  starts : matcher.state.registers.slots.starts.size = pattern.groups + 1
  stops : matcher.state.registers.slots.stops.size = pattern.groups + 1
  reported : ∀ group, matcher.byteSpan group ≠ none → MatchStands past
  whole : MatchStands past → matcher.byteSpan 0 ≠ none
  noted : LastSearchFailed past → matcher.reachedEnd = true

variable {pattern : Pattern} {text : List Char} {past : List Exchange} {matcher : Matcher}
  {operation : Operation} {reply : Reply}

theorem remembers_matcher (pattern : Pattern) (text : List Char) :
    Remembers pattern text [] (pattern.matcher text) where
  samePattern := rfl
  sameText := rfl
  starts := (Slots.within_blank pattern.groups 0).starts
  stops := (Slots.within_blank pattern.groups 0).stops
  reported := fun _ reports => absurd rfl reports
  whole := fun stands => absurd stands not_endsWith_nil
  noted := fun failed => absurd failed not_endsWith_nil

theorem Remembers.searchFrom_eq (remembers : Remembers pattern text past matcher) (start : Nat) :
    matcher.searchFrom start = (pattern.matcher text).searchFrom start := by
  have sized : matcher.text.size = text.length := by
    rw [remembers.sameText, List.size_toArray]
  have prepared : matcher.prepared = (pattern.matcher text).prepared := by
    rw [prepared_eq_blank sized remembers.starts remembers.stops, prepared_matcher]
  unfold searchFrom
  rw [prepared, remembers.samePattern, remembers.sameText]
  rfl

theorem Remembers.asked (remembers : Remembers pattern text past matcher)
    (asks : operation.onlyAsks) :
    Remembers pattern text (past ++ [⟨operation, reply⟩]) matcher := by
  have quiet : ¬operation.searches := by
    cases operation <;> simp_all [Operation.onlyAsks, Operation.searches]
  have stands : MatchStands (past ++ [⟨operation, reply⟩]) ↔ MatchStands past := by
    simp [MatchStands, endsWith_concat, asks, quiet]
  have failed : LastSearchFailed (past ++ [⟨operation, reply⟩]) ↔ LastSearchFailed past := by
    simp [LastSearchFailed, endsWith_concat, quiet]
  exact { remembers with
    reported := fun group reports => stands.mpr (remembers.reported group reports)
    whole := fun standing => remembers.whole (stands.mp standing)
    noted := fun failing => remembers.noted (failed.mp failing) }

theorem Remembers.reset (remembers : Remembers pattern text past matcher) :
    Remembers pattern text (past ++ [⟨.reset, reply⟩]) matcher.reset := by
  have fallen : ¬MatchStands (past ++ [⟨.reset, reply⟩]) := by
    simp [MatchStands, endsWith_concat, Operation.searches, Operation.onlyAsks]
  have failed : LastSearchFailed (past ++ [⟨.reset, reply⟩]) ↔ LastSearchFailed past := by
    simp [LastSearchFailed, endsWith_concat, Operation.searches]
  exact { remembers with
    reported := fun _ reports => absurd rfl reports
    whole := fun standing => absurd standing fallen
    noted := fun failing => remembers.noted (failed.mp failing) }

theorem pattern_searchFrom (matcher : Matcher) (start : Nat) :
    (matcher.searchFrom start).2.pattern = matcher.pattern := by
  unfold searchFrom
  split <;> rfl

theorem sizes_searchFrom (pattern : Pattern) (text : List Char) (start : Nat) :
    ((pattern.matcher text).searchFrom start).2.state.registers.slots.starts.size =
        pattern.groups + 1 ∧
      ((pattern.matcher text).searchFrom start).2.state.registers.slots.stops.size =
        pattern.groups + 1 := by
  cases succeeded : ((pattern.matcher text).searchFrom start).1 with
  | true =>
    have within := within_searchFrom succeeded
    exact ⟨within.starts, within.stops⟩
  | false =>
    rw [slots_searchFrom_failed succeeded]
    simp [Pattern.matcher, SearchState.blank, Registers.blank, Slots.blank, Slots.clear]

theorem byteSpan_zero_searchFrom {start : Nat}
    (succeeded : ((pattern.matcher text).searchFrom start).1 = true) :
    ((pattern.matcher text).searchFrom start).2.byteSpan 0 ≠ none := by
  obtain ⟨reachedEnd, searched⟩ := PatternSearch.searchFrom_eq pattern text start
  rw [searched, succeeded_searched] at succeeded
  obtain ⟨⟨index, outcome⟩, found⟩ := Option.ne_none_iff_exists'.mp succeeded
  obtain ⟨_, inside, member, _⟩ := Expr.firstOutcome?_spec found
  have follows := pattern.expr.outcomes_follow index _ inside _ member
  rw [searched, found, byteSpan_searched, charSpan_searched pattern text reachedEnd follows]
  simp [Outcome.span]

theorem Remembers.searched (remembers : Remembers pattern text past matcher)
    (searches : operation.searches) (start : Nat) :
    Remembers pattern text (past ++ [⟨operation, .found (matcher.searchFrom start).1⟩])
      (matcher.searchFrom start).2 := by
  have asking : ¬operation.onlyAsks := by
    cases operation <;> simp_all [Operation.onlyAsks, Operation.searches]
  rw [remembers.searchFrom_eq start]
  have sizes := sizes_searchFrom pattern text start
  have stands (succeeded : Bool) :
      MatchStands (past ++ [⟨operation, .found succeeded⟩]) ↔ succeeded = true := by
    simp [MatchStands, endsWith_concat, searches, asking]
  have failed (succeeded : Bool) :
      LastSearchFailed (past ++ [⟨operation, .found succeeded⟩]) ↔ succeeded = false := by
    simp [LastSearchFailed, endsWith_concat, searches]
  refine ⟨pattern_searchFrom .., text_searchFrom .., sizes.1, sizes.2, ?_, ?_, ?_⟩
  · intro group reports
    rw [stands, ← Bool.not_eq_false]
    intro fails
    rw [byteSpan, charSpan_searchFrom_failed fails] at reports
    exact reports rfl
  · intro standing
    exact byteSpan_zero_searchFrom ((stands _).mp standing)
  · intro failing
    exact reachedEnd_searchFrom_failed ((failed _).mp failing)

theorem Remembers.perform (remembers : Remembers pattern text past matcher)
    (operation : Operation) :
    Remembers pattern text (past ++ [⟨operation, (matcher.perform operation).1⟩])
      (matcher.perform operation).2 := by
  cases operation with
  | search => exact remembers.searched rfl 0
  | searchFrom start => exact remembers.searched rfl start
  | reset => exact remembers.reset
  | groupText group => exact remembers.asked rfl
  | byteSpan group => exact remembers.asked rfl
  | start => exact remembers.asked rfl
  | stop => exact remembers.asked rfl

theorem Remembers.session (remembers : Remembers pattern text past matcher)
    (operations : List Operation) :
    Remembers pattern text (past ++ (matcher.session operations).1)
      (matcher.session operations).2 := by
  induction operations generalizing past matcher with
  | nil =>
    rw [Matcher.session, List.append_nil]
    exact remembers
  | cons operation operations ih =>
    have further := ih (remembers.perform operation)
    rw [List.append_assoc] at further
    exact further

end Matcher

/-- Whatever a session has done with a matcher, a search then answers as on a fresh matcher over
the text, and leaves the same matcher behind: the same spans of all groups, the same note on the
end and the same state. After every session some group reports a span exactly if the whole match
does, and exactly if of all searches and resets the last one was a search that succeeded. If the
last search failed, the matcher notes that it reached the end. -/
theorem session_forgets (pattern : Pattern) (text : List Char) (operations : List Operation) :
    let fresh := pattern.matcher text
    let exchanges := (fresh.session operations).1
    let matcher := (fresh.session operations).2
    (∀ start, matcher.searchFrom start = fresh.searchFrom start) ∧
      ((∃ group, matcher.byteSpan group ≠ none) ↔ matcher.byteSpan 0 ≠ none) ∧
      (matcher.byteSpan 0 ≠ none ↔ MatchStands exchanges) ∧
      (LastSearchFailed exchanges → matcher.reachedEnd = true) ∧
      ∀ start, (matcher.searchFrom start).1 = false →
        (matcher.searchFrom start).2.reachedEnd = true := by
  intro fresh exchanges matcher
  have remembers : matcher.Remembers pattern text exchanges :=
    (Matcher.remembers_matcher pattern text).session operations
  refine ⟨remembers.searchFrom_eq, ?_, ⟨remembers.reported 0, remembers.whole⟩, remembers.noted, ?_⟩
  · constructor
    · rintro ⟨group, reports⟩
      exact remembers.whole (remembers.reported group reports)
    · exact fun reports => ⟨0, reports⟩
  · intro start failed
    exact Matcher.reachedEnd_searchFrom_failed failed

end PatternSearch
