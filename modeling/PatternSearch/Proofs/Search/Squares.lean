import PatternSearch.Proofs.Grammar.Literals
import PatternSearch.Proofs.Search.Captures
import PatternSearch.Proofs.Search.Report
import PatternSearch.Proofs.Semantics.Groups

/-! Squares. A pattern in parentheses, a text and a backreference to the parentheses, anchored at
both ends, match what consists of the text between two equal halves of which the pattern matches
the first. Whichever of its matches the pattern would rather have, the search goes on to the one
that leaves a half for the backreference. -/

namespace PatternSearch

open PatternSearch.Expr (Agrees Matches itemOutcomes)

/-- What matches the expression, the word and the same once more. -/
def Expr.squared (expr : Expr) (word : List Char) : Expr :=
  .sequence (.atStart :: .group 1 (expr.renumber 1) ::
    (word.map .literal ++ [.backreference 1, .atEnd]))

def Grammar.Body.squared (body : Body) (word : List Char) : Body :=
  let reference : Leaf := .reference '1' ⟨by decide, by decide⟩
  let behind : Branch := .cons (.leaf reference none) (.cons .atEnd .nil)
  .single (.cons .atStart (.cons (.group body none) (.literally word behind)))

section Reading

open Grammar

variable (body : Body) (word : List Char)

theorem Grammar.Body.write_squared :
    (body.squared word).write =
      ['^', '('] ++ body.write ++ [')'] ++ escape word ++ ['\\', '1', '$'] := by
  simp [squared, Body.write, Branch.write, Item.write, Branch.write_literally, writeSuffix,
    Leaf.write]

theorem Grammar.Body.groups_squared : (body.squared word).groups = body.groups + 1 := by
  simp [squared, Body.groups, Branch.groups, Item.groups, Branch.groups_literally]

theorem Grammar.Body.references_squared :
    (body.squared word).references = body.references ++ [1] := by
  simp [squared, Body.references, Branch.references, Item.references, Branch.references_literally,
    named]

theorem Grammar.Body.tree_squared :
    (body.squared word).tree 0 = (body.tree 0).squared word := by
  rw [Expr.squared, ← body.tree_add, squared, Body.tree, Branch.tree_eq]
  simp only [Branch.items, Branch.items_literally, Item.tree, repeated]
  rfl

theorem parse_squared {source : String} {parsed : Parsed} (read : parse source = .ok parsed)
    (word : List Char) :
    parse ("^(" ++ source ++ ")" ++ String.ofList (escape word) ++ "\\1$") =
      .ok ⟨parsed.expr.squared word, parsed.groups + 1⟩ := by
  obtain ⟨body, written, groups, tree, defined⟩ := body_of_parse read
  rw [tree, groups, ← body.tree_squared, ← body.groups_squared word]
  apply parse_of_body
  · rw [body.write_squared, ← written]
    simp
  · rw [body.references_squared, body.groups_squared]
    intro group member
    rcases List.mem_append.mp member with own | first
    · exact Nat.le_succ_of_le (defined group own)
    · rw [List.mem_singleton.mp first]
      omega

end Reading

section Outcomes

variable {text word : List Char} {expr : Expr} {index middle groups : Nat}
  {slots : Slots} {outcome : Outcome}

theorem mem_itemOutcomes_again (held : slots.span 1 = some (0, middle)) :
    outcome ∈ itemOutcomes text.toArray [.backreference 1, .atEnd] index slots ↔
      (index + middle = text.length ∧ text.take middle = text.drop index) ∧
        outcome = (text.length, slots) := by
  have same : text.toArray.extract 0 middle = text.toArray.extract index (index + middle) ↔
      text.take middle = (text.drop index).take middle := by
    rw [← Array.toList_inj, Array.toList_extract, Array.toList_extract]
    simp [List.extract]
  simp only [itemOutcomes, Expr.outcomes, held, Nat.sub_zero, same, List.size_toArray]
  by_cases full : index + middle = text.length
  · have rest : (text.drop index).take middle = text.drop index := by
      apply List.take_of_length_le
      rw [List.length_drop]
      omega
    rw [rest, full]
    by_cases repeats : text.take middle = text.drop index
    · simp [repeats]
    · simp [repeats]
  · rw [iff_false_right (fun reached => full reached.1.1)]
    intro reached
    split at reached
    · simp [full] at reached
    · cases reached

theorem halves_iff :
    word <+: text.drop middle ∧ middle + word.length + middle = text.length ∧
        text.take middle = text.drop (middle + word.length) ↔
      text = text.take middle ++ word ++ text.take middle ∧ middle ≤ text.length := by
  constructor
  · rintro ⟨⟨rest, same⟩, full, repeats⟩
    have behind : text.drop (middle + word.length) = rest := by
      rw [← List.drop_drop, ← same, List.drop_left]
    refine ⟨?_, by omega⟩
    calc
      text = text.take middle ++ text.drop middle := (List.take_append_drop ..).symm
      _ = text.take middle ++ (word ++ text.take middle) := by rw [← same, repeats, behind]
      _ = text.take middle ++ word ++ text.take middle := (List.append_assoc ..).symm
  · rintro ⟨halves, inside⟩
    have size : (text.take middle).length = middle := List.length_take_of_le inside
    generalize text.take middle = half at halves size ⊢
    subst halves size
    have behind : (half ++ word ++ half).drop half.length = word ++ half := by
      rw [List.append_assoc, List.drop_left]
    refine ⟨⟨half, behind.symm⟩, ?_, ?_⟩
    · simp only [List.length_append]
    · rw [← List.drop_drop, behind, List.drop_left]

theorem span_half {between : Slots} (fresh : 1 ∉ (expr.renumber 1).groups) (positive : 0 < groups)
    (member : (middle, between) ∈ (expr.renumber 1).outcomes text.toArray 0
      ((Slots.blank groups).setStart 1 0)) :
    (between.setStop 1 middle).span 1 = some (0, middle) := by
  have kept := Expr.outcomes_keep _ fresh _ _ _ member
  have follows := Expr.outcomes_follow _ 0 _ (Nat.zero_le _) _ member
  have starts : 1 < (Slots.blank groups).starts.size := by
    rw [Slots.blank, Array.size_replicate]
    omega
  have stops : 1 < between.stops.size := by
    rw [follows.stops, Slots.setStart, Slots.blank, Array.size_replicate]
    omega
  have begun : (between.setStop 1 middle).start 1 = (0 : Nat) := by
    rw [Slots.start_setStop, kept.start, Slots.start_setStart starts, if_pos rfl, Nat.cast_zero]
  have ended : (between.setStop 1 middle).stop 1 = middle := by
    rw [Slots.stop_setStop stops, if_pos rfl]
  exact Slots.span_of_set begun ended (Nat.zero_le _)

/-- An outcome of a square is told by where its half ends: the word lies behind it, and behind the
word lies the half again, up to the end of the text. -/
theorem mem_outcomes_squared (fresh : 1 ∉ (expr.renumber 1).groups) (positive : 0 < groups) :
    outcome ∈ (expr.squared word).outcomes text.toArray index (.blank groups) ↔
      index = 0 ∧ ∃ middle between,
        (middle, between) ∈ (expr.renumber 1).outcomes text.toArray 0
          ((Slots.blank groups).setStart 1 0) ∧
        text = text.take middle ++ word ++ text.take middle ∧ middle ≤ text.length ∧
        outcome = (text.length, between.setStop 1 middle) := by
  rw [Expr.squared, Expr.outcomes, itemOutcomes, Expr.outcomes]
  by_cases first : index = 0
  · subst first
    rw [if_pos rfl, List.flatMap_singleton]
    dsimp only
    rw [itemOutcomes, Expr.outcomes]
    constructor
    · intro reached
      obtain ⟨_, grouped, behind⟩ := List.mem_flatMap.mp reached
      obtain ⟨⟨middle, between⟩, member, rfl⟩ := List.mem_map.mp grouped
      have held := span_half fresh positive member
      rw [Expr.mem_itemOutcomes_literals, mem_itemOutcomes_again held] at behind
      obtain ⟨begins, repeats, same⟩ := behind
      obtain ⟨halves, inside⟩ := halves_iff.mp ⟨begins, repeats⟩
      exact ⟨rfl, middle, between, member, halves, inside, same⟩
    · rintro ⟨_, middle, between, member, halves, inside, same⟩
      have held := span_half fresh positive member
      obtain ⟨begins, repeats⟩ := halves_iff.mpr ⟨halves, inside⟩
      refine List.mem_flatMap.mpr
        ⟨(middle, between.setStop 1 middle), List.mem_map.mpr ⟨_, member, rfl⟩, ?_⟩
      rw [Expr.mem_itemOutcomes_literals, mem_itemOutcomes_again held]
      exact ⟨begins, repeats, same⟩
  · rw [if_neg first, List.flatMap_nil]
    exact iff_of_false List.not_mem_nil fun reached => first reached.1

theorem half_of_outcome (agrees : (expr.renumber 1).Agrees text.toArray)
    (fresh : 1 ∉ (expr.renumber 1).groups) (positive : 0 < groups)
    (member : outcome ∈ (expr.squared word).outcomes text.toArray index (.blank groups)) :
    ∃ middle, outcome.2.span 1 = some (0, middle) ∧
      text = text.take middle ++ word ++ text.take middle ∧
      Matches text.toArray expr 0 (text.take middle).length := by
  obtain ⟨_, middle, between, inner, halves, inside, rfl⟩ :=
    (mem_outcomes_squared fresh positive).mp member
  have matched := (agrees 0 _ middle (Nat.zero_le _)).mp ⟨between, inner⟩
  refine ⟨middle, span_half fresh positive inner, halves, ?_⟩
  rw [List.length_take_of_le inside]
  exact (Expr.matches_renumber 1 expr 0 middle).mp matched

theorem outcome_of_half (agrees : (expr.renumber 1).Agrees text.toArray)
    (fresh : 1 ∉ (expr.renumber 1).groups) (positive : 0 < groups) {half : List Char}
    (halves : text = half ++ word ++ half) (matched : Matches text.toArray expr 0 half.length) :
    ∃ outcome, outcome ∈ (expr.squared word).outcomes text.toArray 0 (.blank groups) := by
  have renumbered := (Expr.matches_renumber 1 expr 0 half.length).mpr matched
  obtain ⟨between, inner⟩ := (agrees 0 _ half.length (Nat.zero_le _)).mpr renumbered
  have front : text.take half.length = half := by
    rw [halves, List.append_assoc, List.take_left]
  have inside : half.length ≤ text.length := by
    rw [halves, List.append_assoc, List.length_append]
    omega
  refine ⟨_, (mem_outcomes_squared fresh positive).mpr
    ⟨rfl, half.length, between, inner, ?_, inside, rfl⟩⟩
  rw [front]
  exact halves

end Outcomes

/-- For every string that compiles to a pattern without backreferences, every word and every text:
the pattern in parentheses, the escaped word and a backreference to the parentheses, anchored at
both ends, compile. They match the text exactly if the word lies between two equal halves of it, and
the pattern matches the first half, its own anchors being those of the whole text. After a match
group 1 holds such a half. -/
theorem search_squared {source : String} {pattern : Pattern}
    (compiled : compile source = .ok pattern) (plain : pattern.expr.references = [])
    (word text : List Char) :
    let IsHalf := fun half => text = half ++ word ++ half ∧
      Matches text.toArray pattern.expr 0 half.length
    ∃ square, compile ("^(" ++ source ++ ")" ++ String.ofList (escape word) ++ "\\1$") =
        .ok square ∧
      (square.occursIn text = true ↔ ∃ half, IsHalf half) ∧
      (square.occursIn text = true →
        ∃ half, (square.matcher text).search.2.groupText 1 = some half ∧ IsHalf half) := by
  intro IsHalf
  obtain rfl := source_of_compile compiled
  let square : Pattern := ⟨_, _, _, .ofExpr _, parse_squared pattern.parsed word, rfl⟩
  have regular := (canonical_of_parse pattern.parsed).regular plain
  have agrees : (pattern.expr.renumber 1).Agrees text.toArray :=
    agrees_of_regular (Expr.regular_renumber 1 regular)
  have fresh : 1 ∉ (pattern.expr.renumber 1).groups := by
    rw [Expr.groups_renumber]
    intro member
    obtain ⟨group, own, same⟩ := List.mem_map.mp member
    have first := (pattern.mem_groups_iff.mp own).1
    omega
  have positive : 0 < square.groups := Nat.succ_pos _
  have found : square.occursIn text = true →
      ∃ half, (square.matcher text).search.2.groupText 1 = some half ∧ IsHalf half := by
    intro occurs
    rw [Pattern.occursIn, Matcher.search, succeeded_searchFrom, Option.isSome_iff_exists] at occurs
    obtain ⟨⟨index, outcome⟩, first⟩ := occurs
    obtain ⟨_, _, member, _⟩ := Expr.firstOutcome?_spec first
    obtain ⟨middle, held, isHalf⟩ := half_of_outcome agrees fresh positive member
    have span : (square.matcher text).search.2.charSpan 1 = some (0, middle) := by
      rw [Matcher.search, charSpan_searchFrom, first]
      exact held
    refine ⟨text.take middle, ?_, isHalf⟩
    have same : (square.matcher text).search.2.text = text.toArray :=
      (square.matcher text).text_searchFrom 0
    rw [Matcher.groupText, span, Option.map_some, same]
    simp
  refine ⟨square, compile_source square, ⟨?_, ?_⟩, found⟩
  · intro occurs
    obtain ⟨half, _, isHalf⟩ := found occurs
    exact ⟨half, isHalf⟩
  · rintro ⟨half, halves, matched⟩
    obtain ⟨outcome, member⟩ := outcome_of_half agrees fresh positive halves matched
    rw [Pattern.occursIn, Matcher.search, succeeded_searchFrom, Option.isSome_iff_ne_none, ne_eq,
      Expr.firstOutcome?_eq_none]
    -- A search that failed would have left no outcome at the start of the text.
    intro barren
    rw [barren 0 (Nat.le_refl _) (Nat.zero_le _)] at member
    cases member

def everything : Pattern :=
  let expr : Expr := .repetition (.group 1 (.predicate .any)) ⟨0, none, true⟩
  ⟨"(.)*", expr, 1, .ofExpr expr, by cbv, rfl⟩

theorem matches_everything : Matches #['é', '+', 'é', '+', 'é', '+', 'é'] everything.expr 0 3 :=
  .repetition (Nat.zero_le 3) nofun
    (.succ (.group (.predicate rfl rfl)) (.succ (.group (.predicate rfl rfl))
      (.succ (.group (.predicate rfl rfl)) .zero)))

theorem search_everything : ∃ square, compile "^((.)*)\\+\\1$" = .ok square ∧
    square.occursIn ['é', '+', 'é', '+', 'é', '+', 'é'] = true ∧
      (square.matcher ['é', '+', 'é', '+', 'é', '+', 'é']).search.2.groupText 1 =
        some ['é', '+', 'é'] := by
  obtain ⟨square, compiled, decides, holds⟩ := search_squared (compile_source everything) rfl ['+']
    ['é', '+', 'é', '+', 'é', '+', 'é']
  have occurs := decides.mpr ⟨['é', '+', 'é'], rfl, matches_everything⟩
  obtain ⟨half, held, halves, _⟩ := holds occurs
  have size : half.length = 3 := by
    have total := congrArg List.length halves
    simp only [List.length_append, List.length_cons, List.length_nil] at total
    omega
  have front := congrArg (List.take 3) halves
  rw [List.append_assoc, ← size, List.take_left, size] at front
  subst front
  exact ⟨square, compiled, occurs, held⟩

end PatternSearch
