import Mathlib
import PatternSearch.Proofs.Search.DecodedLines

/-! Colours. Styles only put escape sequences around text, and the offsets of a match cut its line
in three without losing a character: without the sequences, what is printed in colour is what is
printed without. -/

namespace PatternSearch

namespace Style

theorem erase_cons {c : Char} (ordinary : c ≠ escape) (rest : List Char) :
    erase (c :: rest) = c :: erase rest := by
  rw [erase, if_neg ordinary]

theorem erase_sequence {codes : List Char} (known : codes.all isCode = true)
    (rest : List Char) : erase (escape :: '[' :: codes ++ 'm' :: rest) = erase rest := by
  have dropped : (codes ++ 'm' :: rest).dropWhile isCode = 'm' :: rest := by
    rw [List.dropWhile_append_of_pos (List.all_eq_true.mp known)]
    rfl
  have ended : sequenceEnd? ('[' :: codes ++ 'm' :: rest) = some rest := by
    rw [List.cons_append, sequenceEnd?, dropped]
    rfl
  rw [List.cons_append, erase, if_pos rfl]
  split
  · next beyond other =>
    obtain rfl := Option.some.inj (ended.symm.trans other)
    rfl
  · next other => cases ended.symm.trans other

/-- A text that is written in styles, whatever follows it. -/
def Writes (written text : List Char) : Prop :=
  ∀ rest, erase (written ++ rest) = text ++ erase rest

theorem Writes.append {first second text more : List Char} (one : Writes first text)
    (two : Writes second more) : Writes (first ++ second) (text ++ more) := by
  intro rest
  rw [List.append_assoc, one, two, List.append_assoc]

theorem writes_plain {text : List Char} (plain : escape ∉ text) : Writes text text := by
  intro rest
  induction text with
  | nil => rfl
  | cons c text ih =>
    rw [List.mem_cons, not_or] at plain
    rw [List.cons_append, erase_cons (Ne.symm plain.1), ih plain.2]
    rfl

theorem writes_paint (style : Style) (active : Bool) {text : List Char} (plain : escape ∉ text) :
    Writes (style.paint active text) text := by
  cases active with
  | false => exact writes_plain plain
  | true =>
    have codes : style.codes.all isCode = true := by cases style <;> decide
    intro rest
    have reset : erase (escape :: '[' :: ['0'] ++ 'm' :: rest) = erase rest :=
      erase_sequence (by decide) rest
    have opened := erase_sequence codes (text ++ escape :: '[' :: ['0'] ++ 'm' :: rest)
    rw [paint, if_pos rfl]
    simp only [List.append_assoc, List.cons_append, List.nil_append] at opened reset ⊢
    rw [opened, writes_plain plain, reset]

theorem Writes.flatten {pieces texts : List (List Char)}
    (every : List.Forall₂ Writes pieces texts) : Writes pieces.flatten texts.flatten := by
  induction every with
  | nil => exact writes_plain List.not_mem_nil
  | cons first _ ih => exact first.append ih

theorem Writes.erase_eq {written text : List Char} (writes : Writes written text) :
    erase written = text := by
  have whole := writes []
  have nothing : erase [] = [] := by rw [erase]
  rwa [nothing, List.append_nil, List.append_nil] at whole

end Style

def escapeByte : UInt8 := 27

theorem mem_of_mem_splitLines {input line : List UInt8} {byte : UInt8}
    (member : line ∈ splitLines input) (held : byte ∈ line) : byte ∈ input := by
  rw [← flatten_splitLines input]
  exact List.mem_flatten_of_mem member held

theorem mem_of_mem_dropEnding {ending c : Char} {text : List Char}
    (member : c ∈ dropEnding ending text) : c ∈ text := by
  unfold dropEnding at member
  split at member
  · exact List.dropLast_subset _ member
  · exact member

theorem escape_notMem_lineText {input line : List UInt8} (plain : escapeByte ∉ input)
    (member : line ∈ splitLines input) : Style.escape ∉ lineText line := by
  intro held
  have decoded := mem_of_mem_dropEnding (mem_of_mem_dropEnding held)
  have ascii : Style.escape.toNat < 128 := by decide
  exact plain (mem_of_mem_splitLines member ((mem_decodeLossy ascii).mp decoded))

structure Parted (pattern : Pattern) (text before hit behind : List Char) : Prop where
  whole : text = before ++ hit ++ behind
  group : (pattern.matcher text).search.2.groupText 0 = some hit
  bytes : ∃ start stop, (pattern.matcher text).search.2.byteSpan 0 = some (start, stop) ∧
    encode before = (encode text).take start ∧
    encode hit = ((encode text).take stop).drop start ∧
    encode behind = (encode text).drop stop

theorem encode_pieces (before hit behind : List Char) :
    let bytes := encode (before ++ hit ++ behind)
    encode before = bytes.take (byteLength before) ∧
      encode hit = (bytes.take (byteLength (before ++ hit))).drop (byteLength before) ∧
      encode behind = bytes.drop (byteLength (before ++ hit)) := by
  intro bytes
  have upto : bytes.take (byteLength (before ++ hit)) = encode (before ++ hit) := by
    rw [← length_encode, show bytes = _ from encode_append _ _, List.take_left]
  refine ⟨?_, ?_, ?_⟩
  · rw [← length_encode, show bytes = _ from encode_append _ _, encode_append, List.append_assoc,
      List.take_left]
  · rw [upto, encode_append, ← length_encode, List.drop_left]
  · rw [← length_encode, show bytes = _ from encode_append _ _, List.drop_left]

section Lines

variable {pattern : Pattern} {label : List Char} {line : List UInt8}

/-- A match parts its text, and the slices between its byte offsets are the parts. -/
theorem exists_parted {text : List Char} (occurs : pattern.occursIn text = true) :
    ∃ before hit behind, Parted pattern text before hit behind ∧
      (pattern.matcher text).search.2.charSpan 0 = some (before.length, (before ++ hit).length) := by
  obtain ⟨before, hit, behind, rfl, span, bytes⟩ := exists_whole_match occurs
  refine ⟨before, hit, behind, ⟨rfl, ?_, _, _, bytes, encode_pieces before hit behind⟩, span⟩
  have same := Matcher.text_searchFrom (pattern.matcher (before ++ hit ++ behind)) 0
  rw [Matcher.groupText, span, Option.map_some, Matcher.search, same]
  simp [Pattern.matcher]

theorem writes_printLabel (labelled : Bool) (plain : Style.escape ∉ label) :
    Style.Writes (LineFormat.printLabel ⟨labelled, true⟩ label)
      (LineFormat.printLabel ⟨labelled, false⟩ label) := by
  cases labelled with
  | false => exact Style.writes_plain List.not_mem_nil
  | true =>
    have colon : Style.escape ∉ [':'] := by decide
    exact (Style.writes_paint .magenta true plain).append (Style.writes_paint .cyan true colon)

theorem writes_searchLine (labelled : Bool) (plainLabel : Style.escape ∉ label)
    (plainLine : Style.escape ∉ lineText line) :
    Option.Rel Style.Writes (searchLine pattern ⟨labelled, true⟩ label line)
      (searchLine pattern ⟨labelled, false⟩ label line) := by
  cases occurs : pattern.occursIn (lineText line) with
  | false =>
    rw [searchLine_missed occurs, searchLine_missed occurs]
    exact .none
  | true =>
    obtain ⟨before, hit, behind, parted, span⟩ := exists_parted occurs
    rw [searchLine_found parted.whole occurs span, searchLine_found parted.whole occurs span]
    rw [parted.whole, List.mem_append, List.mem_append, not_or, not_or] at plainLine
    obtain ⟨⟨plainBefore, plainHit⟩, plainBehind⟩ := plainLine
    have ending : Style.escape ∉ ['\n'] := by decide
    have body := ((Style.writes_plain plainBefore).append
      (Style.writes_paint .boldRed true plainHit)).append (Style.writes_plain plainBehind)
    exact .some (((writes_printLabel labelled plainLabel).append body).append
      (Style.writes_plain ending))

theorem searchLine_coloured (labelled : Bool) (occurs : pattern.occursIn (lineText line) = true) :
    ∃ before hit behind, Parted pattern (lineText line) before hit behind ∧
      searchLine pattern ⟨labelled, true⟩ label line =
        some (colouredLine labelled label before hit behind) := by
  obtain ⟨before, hit, behind, parted, span⟩ := exists_parted occurs
  exact ⟨before, hit, behind, parted, searchLine_found_coloured parted.whole occurs span rfl⟩

end Lines

theorem forall₂_filterMap {α β γ : Type} {first : α → Option β} {second : α → Option γ}
    {related : β → γ → Prop} {items : List α}
    (every : ∀ item ∈ items, Option.Rel related (first item) (second item)) :
    List.Forall₂ related (items.filterMap first) (items.filterMap second) := by
  induction items with
  | nil => exact .nil
  | cons item items ih =>
    have others := ih fun other member => every other (List.mem_cons_of_mem _ member)
    have here := every item (List.mem_cons_self ..)
    rw [List.filterMap_cons, List.filterMap_cons]
    generalize first item = one, second item = two at here
    cases here with
    | some both => exact .cons both others
    | none => exact others

/-- For every pattern, label and input without escape characters, colour changes neither what is
found nor the text that is printed: it only adds escape sequences. Every line that is found is
printed with its first match in bold red, between what stands before the match and what stands
behind it, in characters and in bytes. -/
theorem searchLines_coloured (pattern : Pattern) (labelled : Bool) (label : List Char)
    (input : List UInt8) (plainLabel : Style.escape ∉ label) (plainInput : escapeByte ∉ input) :
    let coloured := searchLines pattern ⟨labelled, true⟩ label input
    let plain := searchLines pattern ⟨labelled, false⟩ label input
    coloured.matched = plain.matched ∧ Style.erase coloured.printed = plain.printed ∧
      ∃ pieces, coloured.printed = pieces.flatten ∧
        List.Forall₂ (fun line piece => ∃ before hit behind,
            Parted pattern (lineText line) before hit behind ∧
            Style.escape ∉ before ++ hit ++ behind ∧
            piece = colouredLine labelled label before hit behind)
          ((splitLines input).filter fun line => pattern.occursIn (lineText line)) pieces := by
  intro coloured plain
  have lines : ∀ line ∈ splitLines input, Style.escape ∉ lineText line :=
    fun line => escape_notMem_lineText plainInput
  refine ⟨?_, ?_, _, rfl, ?_⟩
  · rw [Bool.eq_iff_iff, matched_searchLines, matched_searchLines]
  · have every := forall₂_filterMap fun line member =>
      @writes_searchLine pattern label line labelled plainLabel (lines line member)
    exact (Style.Writes.flatten every).erase_eq
  · let found (line : List UInt8) := pattern.occursIn (lineText line)
    rw [← List.filterMap_eq_filter]
    refine forall₂_filterMap fun line member => ?_
    cases occurs : pattern.occursIn (lineText line) with
    | false =>
      have unguarded := (Option.guard_eq_none_iff (p := found)).mpr occurs
      rw [searchLine_missed occurs, unguarded]
      exact .none
    | true =>
      obtain ⟨before, hit, behind, parted, printed⟩ :=
        @searchLine_coloured pattern label line labelled occurs
      have guarded := Option.guard_pos (p := found) occurs
      rw [printed, guarded]
      exact .some ⟨before, hit, behind, parted, parted.whole ▸ lines line member, rfl⟩

/-- The match stands behind a character of two bytes; the other line is not printed. -/
theorem searchLines_coloured_cat :
    let input : List UInt8 := [0xC3, 0xA9, 99, 97, 116, 10, 99, 111, 119]
    let coloured := searchLines catPattern ⟨true, true⟩ ['f'] input
    Style.escape ∉ ['f'] ∧ escapeByte ∉ input ∧
      Style.erase coloured.printed = (searchLines catPattern ⟨true, false⟩ ['f'] input).printed ∧
      ∃ before hit behind, ['é', 'c', 'a', 't'] = before ++ hit ++ behind ∧
        coloured.printed = colouredLine true ['f'] before hit behind := by
  intro input coloured
  have plainLabel : Style.escape ∉ ['f'] := by decide
  have plainInput : escapeByte ∉ input := by decide
  obtain ⟨_, erased, pieces, printed, lines⟩ :=
    searchLines_coloured catPattern true ['f'] input plainLabel plainInput
  refine ⟨plainLabel, plainInput, erased, ?_⟩
  have split : splitLines input = [[0xC3, 0xA9, 99, 97, 116, 10], [99, 111, 119]] := by decide
  have first : lineText [0xC3, 0xA9, 99, 97, 116, 10] = ['é', 'c', 'a', 't'] := by decide +kernel
  have second : lineText [99, 111, 119] = ['c', 'o', 'w'] := by decide +kernel
  have occurs : catPattern.occursIn ['é', 'c', 'a', 't'] = true := by cbv
  have missed : catPattern.occursIn ['c', 'o', 'w'] = false := by cbv
  rw [split] at lines
  simp only [List.filter, first, second, occurs, missed] at lines
  cases lines with
  | cons line others =>
    cases others
    obtain ⟨before, hit, behind, parted, _, rfl⟩ := line
    refine ⟨before, hit, behind, first ▸ parted.whole, ?_⟩
    rw [show coloured.printed = _ from printed, List.flatten_singleton]

end PatternSearch
