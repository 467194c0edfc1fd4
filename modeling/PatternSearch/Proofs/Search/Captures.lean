import Mathlib
import PatternSearch.Proofs.Search.Bounds
import PatternSearch.Proofs.Search.Trail

/-! What the groups hold after a search. The marks along the trail of a successful search are those
of a match of the whole tree, and the slots hold what they write. So each group is unset or holds
the two ends of its last passage, which lie in the match, and without backreferences its body
matches between them. -/

namespace PatternSearch

open PatternSearch.Expr (Matches Passes PassesAll)

namespace Expr

open PatternSearch.Graph

variable {graph : Graph} {text : Array Char}

mutual

/-- A successful walk along the nodes of an expression leaves the marks of one of its matches. -/
theorem crosses_of_carries (last : graph.node 0 = .last) : (expr : Expr) → {entry next : Nat} →
    expr.Throughout Shaped → graph.Carries expr entry next →
      graph.Crosses text entry next (Passes text expr)
  | empty, entry, next, shaped, carries => by
    cases carries with
    | empty =>
      exact fun index _ registers _ succeeds => ⟨[], index, registers, .empty, .here succeeds⟩
  | predicate test, entry, next, shaped, carries => by
    cases carries with
    | predicate found => exact crosses_char found
  | atStart, entry, next, shaped, carries => by
    cases carries with
    | atStart found => exact crosses_atStart found
  | atEnd, entry, next, shaped, carries => by
    cases carries with
    | atEnd found => exact crosses_atEnd found
  | sequence items, entry, next, shaped, carries => by
    cases carries with
    | sequence all =>
      intro index cont registers inside succeeds
      obtain ⟨marks, stop, after, passes, crossed⟩ :=
        crosses_of_carriesItems last items (Throughout.sequence_iff.mp shaped).2 all index cont
          registers inside succeeds
      exact ⟨marks, stop, after, .sequence passes, crossed⟩
  | alternation branches, entry, next, shaped, carries => by
    cases carries with
    | alternation found each =>
      exact crosses_branch last found
        (choosesAmong_of_carriesBranches last branches (Throughout.alternation_iff.mp shaped).2
          each)
  | group index body, entry, next, shaped, carries => by
    cases carries with
    | group head inside found =>
      have inner := crosses_of_carries last body (Throughout.group_iff.mp shaped).2 inside
      exact crosses_group head inner found
  | repetition body quantifier, entry, next, shaped, carries => by
    cases carries with
    | repetition found inside =>
      have ⟨⟨_, bounded⟩, all⟩ := Throughout.repetition_iff.mp shaped
      have inner := crosses_of_carries last body all inside
      exact crosses_loop last found inner fun max given => (bounded.high max given).1
  | backreference index, entry, next, shaped, carries => by
    cases carries with
    | backreference found => exact crosses_backreference found

theorem crosses_of_carriesItems (last : graph.node 0 = .last) : (items : List Expr) →
    {entry next : Nat} → (∀ item ∈ items, item.Throughout Shaped) →
      graph.CarriesItems items entry next →
        graph.Crosses text entry next (PassesAll text items)
  | [], entry, next, shaped, carries => by
    cases carries with
    | nil => exact crosses_nil
  | item :: items, entry, next, shaped, carries => by
    obtain ⟨this, others⟩ := List.forall_mem_cons.mp shaped
    cases carries with
    | cons first rest =>
      exact crosses_cons (crosses_of_carries last item this first)
        (crosses_of_carriesItems last items others rest)

theorem choosesAmong_of_carriesBranches (last : graph.node 0 = .last) : (branches : List Expr) →
    {entries : List Nat} → (∀ branch ∈ branches, branch.Throughout Shaped) →
      graph.CarriesBranches branches entries → graph.ChoosesAmong text entries branches
  | [], entries, shaped, carries => by
    cases carries with
    | nil => exact choosesAmong_nil
  | branch :: branches, entries, shaped, carries => by
    obtain ⟨this, others⟩ := List.forall_mem_cons.mp shaped
    cases carries with
    | cons first rest =>
      exact choosesAmong_cons (crosses_of_carries last branch this first)
        (choosesAmong_of_carriesBranches last branches others rest)

end

end Expr

namespace Graph

variable {graph : Graph} {text : Array Char} {window : Window}

/-- The trail of a scan begins at the position that the scan reports. -/
theorem Succeeds.scan_trail {next index : Nat} {cont : Continuation} {registers : Registers}
    (succeeds : graph.Succeeds text window ⟨.scan next, index, cont, registers⟩) :
    ∃ start after, start ≤ window.stop ∧
      Trail graph text window ⟨.scan next, index, cont, registers⟩ []
        ⟨.visit next, start, cont, after⟩ ∧
      graph.answer text window ⟨.scan next, index, cont, registers⟩ =
        (true, (graph.answer text window ⟨.visit next, start, cont, after⟩).2.succeed start) := by
  induction left : window.stop + 1 - index generalizing index registers with
  | zero =>
    have inside := succeeds.scan.1
    omega
  | succ left ih =>
    obtain ⟨inside, ⟨asked, further, report⟩ | ⟨after, restored, asked, same⟩⟩ := succeeds.scan
    · exact ⟨index, registers, inside, .onward succeeds asked (.here further), report⟩
    · obtain ⟨start, later, reachable, trail, report⟩ :=
        ih (succeeds.of_answer same) (by omega)
      exact ⟨start, later, reachable, .onward succeeds asked trail, same.symm.trans report⟩

theorem Succeeds.ofExpr_trail {expr : Expr} {start : Nat} {registers : Registers}
    (shaped : expr.Throughout Expr.Shaped)
    (succeeds : (ofExpr expr).Succeeds text (whole text)
      ⟨.visit (ofExpr expr).root, start, .done, registers⟩) :
    ∃ first marks last after, first ≤ text.size ∧ Passes text expr first marks last ∧
      Trail (ofExpr expr) text (whole text) ⟨.visit (ofExpr expr).root, start, .done, registers⟩
        marks ⟨.visit 0, last, .done, after⟩ ∧
      (ofExpr expr).answer text (whole text)
          ⟨.visit (ofExpr expr).root, start, .done, registers⟩ =
        (true, (after.stopAt last).succeed first) := by
  have ended := last_ofExpr expr
  have root := root_ofExpr expr
  obtain ⟨call, asks, begun⟩ := succeeds.visit root nofun
  simp only [Graph.marks, root] at begun
  cases asks with
  | start =>
    obtain ⟨first, between, inside, scanned, report⟩ := begun.succeeds_last.scan_trail
    obtain ⟨marks, last, after, passes, crossed⟩ :=
      expr.crosses_of_carries ended shaped (carries_ofExpr expr) first .done between inside
        scanned.succeeds_last
    refine ⟨first, marks, last, after, inside, passes, ?_, ?_⟩
    · exact begun.trail.trans (scanned.trans crossed.trail)
    · rw [← begun.same, report, ← crossed.same, answer_finished ended]

end Graph

/-- What a matcher tells of a group: where it lies in characters and in bytes, between whole
characters, and the text there. -/
structure Matcher.Reports (matcher : Matcher) (text : List Char)
    (group first last lower upper : Nat) : Prop where
  chars : matcher.charSpan group = some (first, last)
  bytes : matcher.byteSpan group = some (lower, upper)
  offsets : byteLength (text.take first) = lower ∧ byteLength (text.take last) = upper
  sliceable : Sliceable text lower upper
  content : (matcher.groupText group).map encode = some (((encode text).take upper).drop lower)

theorem Matcher.reports {matcher : Matcher} {text : List Char} {group first last : Nat}
    (same : matcher.text = text.toArray) (held : matcher.charSpan group = some (first, last))
    (ordered : first ≤ last) :
    matcher.Reports text group first last (byteLength (text.take first))
      (byteLength (text.take last)) where
  chars := held
  bytes := by
    rw [byteSpan, held]
    simp only [Option.map_some, byteOffset, same]
  offsets := ⟨rfl, rfl⟩
  sliceable := sliceable_take ordered
  content := by
    rw [encode_slice ordered, groupText, held, same]
    simp [List.take_drop, Nat.add_sub_of_le ordered]

section Slots

variable {slots : Slots} {after : Registers} {marks : List Mark} {first last group groups : Nat}

theorem Slots.span_of_set (begun : slots.start group = first) (ended : slots.stop group = last)
    (ordered : first ≤ last) : slots.span group = some (first, last) := by
  have forward : (0 : Int) ≤ first ∧ (first : Int) ≤ last := by omega
  simp only [span, begun, ended, if_pos forward, Int.toNat_natCast]

theorem Slots.span_of_unset (vacant : slots.start group = unset) : slots.span group = none := by
  simp [span, vacant, unset]

theorem Matcher.byteSpan_of_unset {matcher : Matcher}
    (vacant : matcher.state.registers.slots.start group = unset) :
    matcher.byteSpan group = none := by
  rw [byteSpan, charSpan, Slots.span_of_unset vacant, ite_self, Option.map_none]

theorem Registers.slots_succeed (after : Registers) (first : Nat) (other : 0 ≠ group) :
    (after.succeed first).slots.start group = after.slots.start group ∧
      (after.succeed first).slots.stop group = after.slots.stop group :=
  ⟨after.slots.start_setStart_of_ne other _, Slots.stop_setStop_of_ne _ other _⟩

theorem span_zero_of_written (written : after.slots = (Slots.blank groups).replay marks)
    (ordered : first ≤ last) :
    ((after.stopAt last).succeed first).slots.span 0 = some (first, last) := by
  obtain ⟨starts, stops⟩ := Slots.sizes_replay (.blank groups) marks
  have begins : 0 < after.slots.starts.size := by
    rw [written, starts]
    simp [Slots.blank]
  have ends : 0 < after.slots.stops.size := by
    rw [written, stops]
    simp [Slots.blank]
  exact Slots.span_of_set ((Slots.start_setStart begins first 0).trans (if_pos rfl))
    ((Slots.stop_setStop ends last 0).trans (if_pos rfl)) ordered

theorem span_of_written {pattern : Pattern} {text : Array Char}
    (passes : Passes text pattern.expr first marks last) (inside : first ≤ text.size)
    (written : after.slots = (Slots.blank pattern.groups).replay marks) (positive : 0 < group) :
    let slots := ((after.stopAt last).succeed first).slots
    slots.start group = unset ∧ slots.stop group = unset ∨
      group ≤ pattern.groups ∧ ∃ begun ended, slots.span group = some (begun, ended) ∧
        Expr.Captured text group begun ended first marks last pattern.expr.parts := by
  intro slots
  obtain ⟨starts, stops⟩ :=
    Registers.slots_succeed (after.stopAt last) first (Nat.ne_of_lt positive)
  change slots.start group = after.slots.start group at starts
  change slots.stop group = after.slots.stop group at stops
  rw [written] at starts stops
  rcases passes.settled inside pattern.nodup_groups group with
    untouched | ⟨begun, ended, captured⟩
  · obtain ⟨vacant, empty⟩ := Slots.replay_untouched (.blank pattern.groups) untouched
    rw [starts, stops, vacant, empty, Slots.start_blank, Slots.stop_blank]
    exact .inl ⟨rfl, rfl⟩
  · have bounded := (pattern.mem_groups_iff.mp (captured.owned pattern.nodup_groups).1).2
    have sized : group < pattern.groups + 1 := Nat.lt_succ_of_le bounded
    obtain ⟨before, between, behind, passage, _⟩ := captured.passage
    obtain ⟨head, tail⟩ := Slots.replay_lastPassage (.blank pattern.groups) passage
      (by simpa [Slots.blank] using sized) (by simpa [Slots.blank] using sized)
    exact .inr ⟨bounded, begun, ended,
      Slots.span_of_set (starts.trans head) (stops.trans tail) captured.forward, captured⟩

end Slots

/-- What a successful search has done: it followed a trail with the marks of a match, wrote them
into blank slots and reported the match. -/
theorem searchFrom_trail {pattern : Pattern} {text : List Char} {start : Nat}
    (succeeded : ((pattern.matcher text).searchFrom start).1 = true) :
    ∃ first marks last after, first ≤ text.length ∧
      Passes text.toArray pattern.expr first marks last ∧
      Graph.Trail pattern.graph text.toArray (pattern.matcher text).prepared.window
        ((pattern.matcher text).firstCall start) marks ⟨.visit 0, last, .done, after⟩ ∧
      after.slots = (Slots.blank pattern.groups).replay marks ∧
      ((pattern.matcher text).searchFrom start).2.state.registers =
        (after.stopAt last).succeed first := by
  have shaped : pattern.expr.Throughout Expr.Shaped := (canonical_of_parse pattern.parsed).shaped
  have succeeds := Matcher.succeeds_searchFrom succeeded
  have kept := Matcher.registers_searchFrom succeeded
  rw [Matcher.firstCall_matcher, Matcher.prepared_matcher] at succeeds kept ⊢
  change pattern.graph.Succeeds text.toArray (Graph.whole text.toArray) _ at succeeds
  change _ = (pattern.graph.answer text.toArray (Graph.whole text.toArray) _).2 at kept
  rw [pattern.lowered] at succeeds kept ⊢
  obtain ⟨first, marks, last, after, inside, passes, trail, answered⟩ :=
    succeeds.ofExpr_trail shaped
  rw [answered] at kept
  exact ⟨first, marks, last, after, inside, passes, trail, trail.slots_eq, kept⟩

theorem reports_searchFrom {pattern : Pattern} {text : List Char} {start group first last : Nat}
    (found : ((pattern.matcher text).searchFrom start).2.state.registers.matchStart ≠ unset)
    (held : ((pattern.matcher text).searchFrom start).2.state.registers.slots.span group =
      some (first, last)) (ordered : first ≤ last) :
    ((pattern.matcher text).searchFrom start).2.Reports text group first last
      (byteLength (text.take first)) (byteLength (text.take last)) :=
  Matcher.reports (Matcher.text_searchFrom ..) ((if_neg found).trans held) ordered

/-- For every pattern, text and start, after a successful search the match is reported in whole
characters inside the text, and there is a trail of calls from the first one to the end of the
pattern. Every other group either has both slots unset and reports nothing, or reports what its
last passage on this trail marked: the positions lie in order inside the match, the bytes between
them are those of the text, and if nothing in the pattern is a backreference the body of the group
matches there. Groups that the pattern does not have report nothing. -/
theorem searchFrom_captures (pattern : Pattern) (text : List Char) (start : Nat)
    (succeeded : ((pattern.matcher text).searchFrom start).1 = true) :
    let matcher := pattern.matcher text
    let result := (matcher.searchFrom start).2
    let slots := result.state.registers.slots
    ∃ first last lower upper marks after,
      result.Reports text 0 first last lower upper ∧
      Graph.Trail pattern.graph matcher.text matcher.prepared.window (matcher.firstCall start) marks
        ⟨.visit 0, last, .done, after⟩ ∧
      pattern.graph.node 0 = .last ∧
      (∀ group, pattern.groups < group → result.byteSpan group = none) ∧
      ∀ group, 0 < group →
        slots.start group = unset ∧ slots.stop group = unset ∧ result.byteSpan group = none ∨
        ∃ begun ended left right, result.Reports text group begun ended left right ∧
          lower ≤ left ∧ right ≤ upper ∧
          (∃ before inside behind, LastPassage group begun ended marks before inside behind) ∧
          ∃ body, (∀ other, .group group other ∈ pattern.expr.parts ↔ other = body) ∧
            (pattern.expr.references = [] → Matches text.toArray body begun ended) := by
  intro matcher result slots
  obtain ⟨first, marks, last, after, inside, passes, trail, written, kept⟩ :=
    searchFrom_trail succeeded
  change result.state.registers = _ at kept
  have settled : slots = ((after.stopAt last).succeed first).slots := congrArg Registers.slots kept
  have found : result.state.registers.matchStart ≠ unset := by
    rw [kept]
    change (first : Int) ≠ unset
    unfold unset
    omega
  have forward := (passes.forward inside).1
  have whole : slots.span 0 = some (first, last) := settled ▸ span_zero_of_written written forward
  have each := fun (group : Nat) (positive : 0 < group) =>
    settled ▸ span_of_written passes inside written positive
  refine ⟨first, last, _, _, marks, after, reports_searchFrom found whole forward, trail, ?_, ?_,
    ?_⟩
  · rw [pattern.lowered]
    exact Graph.last_ofExpr pattern.expr
  · intro group beyond
    rcases each group (by omega) with ⟨vacant, _⟩ | ⟨bounded, _⟩
    · exact Matcher.byteSpan_of_unset vacant
    · omega
  · intro group positive
    rcases each group positive with ⟨vacant, empty⟩ | ⟨_, begun, ended, held, captured⟩
    · exact .inl ⟨vacant, empty, Matcher.byteSpan_of_unset vacant⟩
    · obtain ⟨before, between, behind, passage, _⟩ := captured.passage
      exact .inr ⟨begun, ended, _, _, reports_searchFrom found held captured.forward,
        byteLength_take_le captured.after, byteLength_take_le captured.before,
        ⟨before, between, behind, passage⟩, (captured.owned pattern.nodup_groups).2⟩

def alternating : Pattern :=
  let inner : Expr := .sequence [.group 2 (.literal 'b'), .literal 'c']
  let outer : Expr := .group 1 (.alternation [.literal 'é', inner])
  let expr : Expr := .sequence [.repetition outer ⟨0, none, true⟩, .literal 'd']
  ⟨"(é|(b)c)*d", expr, 2, .ofExpr expr, by cbv, rfl⟩

theorem charSpan_alternating :
    ((alternating.matcher ['b', 'c', 'é', 'd']).searchFrom 0).2.charSpan 2 = some (0, 1) := by
  cbv

theorem searchFrom_alternating :
    ((alternating.matcher ['b', 'c', 'é', 'd']).searchFrom 0).1 = true ∧
      ((alternating.matcher ['b', 'c', 'é', 'd']).searchFrom 0).2.byteSpan 1 = some (2, 4) ∧
      ((alternating.matcher ['b', 'c', 'é', 'd']).searchFrom 0).2.byteSpan 3 = none ∧
      ∃ body, (∀ other, .group 2 other ∈ alternating.expr.parts ↔ other = body) ∧
        Matches #['b', 'c', 'é', 'd'] body 0 1 := by
  have succeeded : ((alternating.matcher ['b', 'c', 'é', 'd']).searchFrom 0).1 = true := by cbv
  obtain ⟨_, _, _, _, _, _, _, _, _, beyond, each⟩ := searchFrom_captures alternating _ 0 succeeded
  refine ⟨succeeded, by cbv, beyond 3 (by decide), ?_⟩
  rcases each 2 (by decide) with
    ⟨vacant, _, _⟩ | ⟨begun, ended, _, _, report, _, _, _, body, only, matched⟩
  · have held := charSpan_alternating
    rw [Matcher.charSpan, Slots.span_of_unset vacant, ite_self] at held
    cases held
  · have same := report.chars.symm.trans charSpan_alternating
    cases same
    exact ⟨body, only, matched rfl⟩

end PatternSearch
