import Mathlib
import PatternSearch.LineSearch
import PatternSearch.Proofs.Search.Bounds
import PatternSearch.Proofs.Search.Report
import PatternSearch.Proofs.Text.Offsets

/-! Search line by line. An input that is cut behind a newline is cut between two of its lines, and
every line is searched and printed without regard to the others. -/

namespace PatternSearch

section Splitting

variable {bytes front : List UInt8} {lines : List (List UInt8)}

theorem prependByte_ne_nil (byte : UInt8) (lines : List (List UInt8)) :
    prependByte byte lines ≠ [] := by
  unfold prependByte
  split
  · exact List.cons_ne_nil _ _
  · split <;> exact List.cons_ne_nil _ _

theorem prependByte_append (byte : UInt8) (nonempty : lines ≠ []) (others : List (List UInt8)) :
    prependByte byte (lines ++ others) = prependByte byte lines ++ others := by
  obtain ⟨line, lines, rfl⟩ := List.exists_cons_of_ne_nil nonempty
  unfold prependByte
  split <;> rfl

theorem splitLines_cons (byte : UInt8) (bytes : List UInt8) :
    splitLines (byte :: bytes) = prependByte byte (splitLines bytes) := rfl

theorem splitLines_ne_nil (nonempty : bytes ≠ []) : splitLines bytes ≠ [] := by
  obtain ⟨byte, bytes, rfl⟩ := List.exists_cons_of_ne_nil nonempty
  exact prependByte_ne_nil byte _

theorem splitLines_append (complete : front = [] ∨ front.getLast? = some newline)
    (back : List UInt8) : splitLines (front ++ back) = splitLines front ++ splitLines back := by
  induction front with
  | nil => rfl
  | cons byte front ih =>
    have ends := complete.resolve_left (List.cons_ne_nil _ _)
    rw [List.cons_append, splitLines_cons, splitLines_cons]
    cases front with
    | nil =>
      obtain rfl : byte = newline := Option.some.inj ends
      rfl
    | cons next front =>
      rw [List.getLast?_cons_cons] at ends
      rw [ih (.inr ends), prependByte_append byte (splitLines_ne_nil (List.cons_ne_nil _ _))]

theorem splitLines_single (nonempty : bytes ≠ []) (single : newline ∉ bytes.dropLast) :
    splitLines bytes = [bytes] := by
  induction bytes with
  | nil => exact absurd rfl nonempty
  | cons byte bytes ih =>
    rw [splitLines_cons]
    cases bytes with
    | nil =>
      unfold prependByte
      split <;> rfl
    | cons next bytes =>
      rw [List.dropLast_cons_cons, List.mem_cons, not_or] at single
      rw [ih (List.cons_ne_nil _ _) single.2]
      exact if_neg (Ne.symm single.1)

end Splitting

section Lines

variable {pattern : Pattern} {format : LineFormat} {label : List Char} {line input : List UInt8}

theorem isSome_searchLine (format : LineFormat) (label : List Char) (line : List UInt8) :
    (searchLine pattern format label line).isSome = pattern.occursIn (lineText line) := by
  simp only [searchLine, Pattern.occursIn]
  cases (pattern.matcher (lineText line)).search.1 <;> rfl

def Pattern.FoundIn (pattern : Pattern) (input : List UInt8) : Prop :=
  ∃ line ∈ splitLines input, pattern.occursIn (lineText line) = true

theorem matched_searchLines {input : List UInt8} :
    (searchLines pattern format label input).matched = true ↔ pattern.FoundIn input := by
  simp only [searchLines, Bool.not_eq_true', List.isEmpty_eq_false_iff_exists_mem,
    List.mem_filterMap, Pattern.FoundIn]
  constructor
  · rintro ⟨printed, line, member, held⟩
    refine ⟨line, member, ?_⟩
    rw [← isSome_searchLine format label, held]
    rfl
  · rintro ⟨line, member, occurs⟩
    rw [← isSome_searchLine format label] at occurs
    obtain ⟨printed, held⟩ := Option.isSome_iff_exists.mp occurs
    exact ⟨printed, line, member, held⟩

theorem exists_whole_match {text : List Char} (occurs : pattern.occursIn text = true) :
    ∃ before hit behind, text = before ++ hit ++ behind ∧
      (pattern.matcher text).search.2.charSpan 0 = some (before.length, (before ++ hit).length) ∧
      (pattern.matcher text).search.2.byteSpan 0 =
        some (byteLength before, byteLength (before ++ hit)) := by
  have found := succeeded_searchFrom pattern text 0
  have span := charSpan_searchFrom pattern text 0 0
  have bytes := byteSpan_searchFrom pattern text 0 0
  rw [show ((pattern.matcher text).searchFrom 0).1 = true from occurs] at found
  obtain ⟨⟨start, outcome⟩, first⟩ := Option.isSome_iff_exists.mp found.symm
  rw [first] at span
  obtain ⟨ordered, inside⟩ := charSpan_searchFrom_le span
  refine ⟨text.take start, (text.take outcome.1).drop start, text.drop outcome.1, ?_⟩
  rw [take_append_slice ordered, List.length_take_of_le inside, List.length_take_of_le (by omega)]
  refine ⟨(List.take_append_drop _ _).symm, span, ?_⟩
  rw [span] at bytes
  exact bytes

theorem LineFormat.highlight_append (format : LineFormat) (before hit behind : List Char) :
    format.highlight (before ++ hit ++ behind) before.length (before ++ hit).length =
      before ++ Style.boldRed.paint format.colour hit ++ behind := by
  rw [highlight, List.take_left, List.drop_left, List.drop_left, List.append_assoc before hit behind,
    List.take_left]

/-- A line that the pattern matches is printed as it is, but for the style of the match. -/
theorem searchLine_found {before hit behind : List Char}
    (text : lineText line = before ++ hit ++ behind)
    (occurs : pattern.occursIn (lineText line) = true)
    (span : (pattern.matcher (lineText line)).search.2.charSpan 0 =
      some (before.length, (before ++ hit).length)) :
    searchLine pattern format label line =
      some (format.printLabel label ++
        (before ++ Style.boldRed.paint format.colour hit ++ behind) ++ ['\n']) := by
  have found : (pattern.matcher (lineText line)).search.1 = true := occurs
  simp only [searchLine, found, span, if_true]
  rw [text, LineFormat.highlight_append]

/-- A line in colour: the label in magenta, a colon in cyan, and the match in bold red. -/
def colouredLine (labelled : Bool) (label before hit behind : List Char) : List Char :=
  let reset := "\x1b[0m".toList
  (if labelled then "\x1b[35m".toList ++ label ++ reset ++ ("\x1b[36m".toList ++ [':'] ++ reset)
  else []) ++ (before ++ ("\x1b[1;31m".toList ++ hit ++ reset) ++ behind) ++ ['\n']

theorem searchLine_found_coloured {before hit behind : List Char}
    (text : lineText line = before ++ hit ++ behind)
    (occurs : pattern.occursIn (lineText line) = true)
    (span : (pattern.matcher (lineText line)).search.2.charSpan 0 =
      some (before.length, (before ++ hit).length)) (coloured : format.colour = true) :
    searchLine pattern format label line =
      some (colouredLine format.labelled label before hit behind) := by
  rw [searchLine_found text occurs span, LineFormat.printLabel, coloured]
  rfl

theorem searchLine_missed (missed : pattern.occursIn (lineText line) = false) :
    searchLine pattern format label line = none := by
  rw [← Option.isNone_iff_eq_none, ← Option.not_isSome, isSome_searchLine, missed]
  rfl

theorem searchLine_ne_nil {printed : List Char}
    (held : searchLine pattern format label line = some printed) : printed ≠ [] := by
  simp only [searchLine] at held
  split at held
  · cases held
    simp
  · cases held

theorem matched_iff_printed :
    (searchLines pattern format label input).matched = true ↔
      (searchLines pattern format label input).printed ≠ [] := by
  simp only [searchLines, Bool.not_eq_true', List.isEmpty_eq_false_iff_exists_mem, ne_eq,
    List.flatten_eq_nil_iff, not_forall]
  constructor
  · rintro ⟨printed, member⟩
    obtain ⟨line, _, held⟩ := List.mem_filterMap.mp member
    exact ⟨printed, member, searchLine_ne_nil held⟩
  · rintro ⟨printed, member, _⟩
    exact ⟨printed, member⟩

theorem searchLines_single (nonempty : input ≠ []) (single : newline ∉ input.dropLast) :
    searchLines pattern format label input =
      match searchLine pattern format label input with
      | some printed => ⟨true, printed⟩
      | none => ⟨false, []⟩ := by
  rw [searchLines, splitLines_single nonempty single, List.filterMap_cons]
  cases searchLine pattern format label input <;> simp

end Lines

/-- Lines are searched one by one. What is found in an input that is cut behind a newline is what
is found in its parts. A line that the pattern does not match is not printed, and one that it
matches is printed without its ending, with only the first match in a style; so something is found
exactly if something is printed. -/
theorem searchLines_line_by_line (pattern : Pattern) (format : LineFormat) (label : List Char) :
    let result := searchLines pattern format label
    (∀ front back, (front = [] ∨ front.getLast? = some newline) →
      (result (front ++ back)).matched = ((result front).matched || (result back).matched) ∧
        (result (front ++ back)).printed = (result front).printed ++ (result back).printed) ∧
    (∀ input, input ≠ [] → newline ∉ input.dropLast →
      let line := dropEnding '\r' (dropEnding '\n' (decodeLossy input))
      (pattern.occursIn line = false → result input = ⟨false, []⟩) ∧
      (pattern.occursIn line = true → ∃ before hit behind,
        line = before ++ hit ++ behind ∧
        (pattern.matcher line).search.2.byteSpan 0 =
          some (byteLength before, byteLength (before ++ hit)) ∧
        (format.colour = true →
          result input = ⟨true, colouredLine format.labelled label before hit behind⟩) ∧
        (format.colour = false → result input = ⟨true,
          (if format.labelled then label ++ [':'] else []) ++ line ++ ['\n']⟩))) ∧
    ∀ input, (result input).matched = true ↔ (result input).printed ≠ [] := by
  intro result
  refine ⟨?_, ?_, fun input => matched_iff_printed⟩
  · intro front back complete
    constructor
    · rw [Bool.eq_iff_iff, Bool.or_eq_true]
      simp only [result, matched_searchLines, Pattern.FoundIn, splitLines_append complete,
        List.mem_append, or_and_right, exists_or]
    · simp only [result, searchLines, splitLines_append complete, List.filterMap_append,
        List.flatten_append]
  · intro input nonempty single line
    constructor
    · intro missed
      simp only [result, searchLines_single nonempty single, searchLine_missed missed]
    · intro occurs
      obtain ⟨before, hit, behind, text, span, bytes⟩ := exists_whole_match occurs
      refine ⟨before, hit, behind, text, bytes, ?_, ?_⟩
      · intro coloured
        have printed :=
          @searchLine_found_coloured pattern format label input _ _ _ text occurs span coloured
        simp only [result, searchLines_single nonempty single, printed]
      · intro plain
        have printed := @searchLine_found pattern format label input _ _ _ text occurs span
        simp only [result, searchLines_single nonempty single, printed, LineFormat.printLabel, plain,
          text]
        rfl

def catPattern : Pattern :=
  let expr : Expr := .sequence [.literal 'c', .literal 'a', .literal 't']
  ⟨"cat", expr, 0, .ofExpr expr, by cbv, rfl⟩

/-- The second line starts with a byte that is no character and ends with two carriage returns, of
which one stays. -/
theorem searchLines_line_by_line_cat :
    let result := searchLines catPattern ⟨true, true⟩ ['f']
    let input : List UInt8 := [255, 99, 97, 116, 13, 13, 10]
    (result ([99, 10] ++ input)).printed = (result [99, 10]).printed ++ (result input).printed ∧
      result input = ⟨true,
        "\x1b[35mf\x1b[0m\x1b[36m:\x1b[0m\uFFFD\x1b[1;31mcat\x1b[0m\r\n".toList⟩ := by
  intro result input
  obtain ⟨parts, lines, _⟩ := searchLines_line_by_line catPattern ⟨true, true⟩ ['f']
  have text : dropEnding '\r' (dropEnding '\n' (decodeLossy input)) =
      [replacement, 'c', 'a', 't', '\r'] := by decide +kernel
  have occurs : catPattern.occursIn [replacement, 'c', 'a', 't', '\r'] = true := by cbv
  have span : (catPattern.matcher [replacement, 'c', 'a', 't', '\r']).search.2.byteSpan 0 =
      some (3, 6) := by cbv
  obtain ⟨_, found⟩ := lines input (by decide) (by decide)
  rw [text] at found
  obtain ⟨before, hit, behind, line, bytes, printed, _⟩ := found occurs
  -- The bytes at which the match starts and stops leave one way to part the line.
  obtain ⟨start, stop⟩ := Prod.mk.inj (Option.some.inj (span.symm.trans bytes))
  have whole : [replacement, 'c', 'a', 't'] ++ ['\r'] = before ++ hit ++ behind := line
  obtain rfl : [replacement] = before :=
    eq_of_byteLength_eq (by rwa [List.append_assoc] at whole) (by rw [← start]; decide)
  have upto : [replacement] ++ ['c', 'a', 't'] = [replacement] ++ hit :=
    eq_of_byteLength_eq whole (by rw [← stop]; decide)
  obtain rfl := List.append_cancel_left upto
  obtain rfl := List.append_cancel_left whole
  exact ⟨(parts [99, 10] input (.inr rfl)).2, (printed rfl).trans (by decide)⟩

end PatternSearch
