import Mathlib
import PatternSearch.Proofs.Search.Lines
import PatternSearch.Proofs.Text.Decoding

/-! Lines and decoding. Lines are cut from bytes and decoded one by one, and that comes to the same
as decoding everything first: what is no character ends in front of a newline at the latest, and
no newline comes from anything but a newline. -/

namespace PatternSearch

/-- Bytes are a single line without a newline, or a line with a newline and the bytes behind. -/
theorem lines_induction {motive : List UInt8 → Prop} (nil : motive [])
    (last : ∀ line, line ≠ [] → newline ∉ line → motive line)
    (line : ∀ line rest, newline ∉ line → motive rest → motive (line ++ newline :: rest))
    (bytes : List UInt8) : motive bytes := by
  induction size : bytes.length using Nat.strongRecOn generalizing bytes with
  | _ size ih =>
    by_cases ended : newline ∈ bytes
    · obtain ⟨front, back, rfl, first⟩ := List.eq_append_cons_of_mem ended
      refine line front back first (ih back.length ?_ back rfl)
      rw [← size, List.length_append, List.length_cons]
      omega
    · by_cases empty : bytes = []
      · rw [empty]
        exact nil
      · exact last bytes empty ended

theorem splitLines_line {line : List UInt8} (single : newline ∉ line) (rest : List UInt8) :
    splitLines (line ++ newline :: rest) = (line ++ [newline]) :: splitLines rest := by
  have first : splitLines (line ++ [newline]) = [line ++ [newline]] :=
    splitLines_single (by simp) (by rwa [List.dropLast_concat])
  rw [List.append_cons, splitLines_append (.inr List.getLast?_concat), first]
  rfl

def repaired (bytes : List UInt8) : List UInt8 := encode (decodeLossy bytes)

theorem decodeLossy_repaired (bytes : List UInt8) :
    decodeLossy (repaired bytes) = decodeLossy bytes :=
  decodeLossy_encode _

theorem repaired_nil : repaired [] = [] := by
  rw [repaired, decodeLossy_nil]
  rfl

theorem repaired_ne_nil {bytes : List UInt8} (nonempty : bytes ≠ []) : repaired bytes ≠ [] := by
  intro empty
  have text := decodeLossy_repaired bytes
  rw [empty, decodeLossy_nil] at text
  exact decodeLossy_ne_nil nonempty text.symm

theorem newline_mem_repaired {bytes : List UInt8} :
    newline ∈ repaired bytes ↔ newline ∈ bytes := by
  have ascii : '\n'.toNat < 128 := by decide
  exact (mem_encode ascii).trans (mem_decodeLossy ascii)

theorem repaired_append (line rest : List UInt8) :
    repaired (line ++ newline :: rest) = repaired line ++ newline :: repaired rest := by
  rw [repaired, decodeLossy_append (by decide), encode_append]
  rfl

theorem splitLines_repaired (bytes : List UInt8) :
    splitLines (repaired bytes) = (splitLines bytes).map repaired := by
  induction bytes using lines_induction with
  | nil =>
    rw [repaired_nil]
    rfl
  | last line nonempty single =>
    have still : newline ∉ repaired line := by rwa [newline_mem_repaired]
    rw [splitLines_single nonempty (fun member => single (List.dropLast_subset _ member)),
      splitLines_single (repaired_ne_nil nonempty)
        (fun member => still (List.dropLast_subset _ member))]
    rfl
  | line line rest single ih =>
    have still : newline ∉ repaired line := by rwa [newline_mem_repaired]
    have ended : repaired (line ++ [newline]) = repaired line ++ [newline] := by
      rw [repaired_append, repaired_nil]
    rw [repaired_append, splitLines_line still, splitLines_line single, ih, List.map_cons, ended]

theorem searchLine_repaired (pattern : Pattern) (format : LineFormat) (label : List Char)
    (line : List UInt8) :
    searchLine pattern format label (repaired line) = searchLine pattern format label line := by
  have text : lineText (repaired line) = lineText line := by
    rw [lineText, decodeLossy_repaired, lineText]
  simp only [searchLine, text]

/-- Decoding an input as a whole replaces the same parts of it as decoding it line by line: what is
found and printed is the same for the input and for the UTF-8 form of its text. -/
theorem searchLines_decoded (pattern : Pattern) (format : LineFormat) (label : List Char)
    (input : List UInt8) :
    Decodes input (decodeLossy input) ∧
      searchLines pattern format label (encode (decodeLossy input)) =
        searchLines pattern format label input := by
  refine ⟨decodes_decodeLossy input, ?_⟩
  change searchLines pattern format label (repaired input) = _
  have lines : (splitLines (repaired input)).filterMap (searchLine pattern format label) =
      (splitLines input).filterMap (searchLine pattern format label) := by
    rw [splitLines_repaired, List.filterMap_map]
    exact List.filterMap_congr fun line _ => searchLine_repaired pattern format label line
  rw [searchLines, lines, searchLines]

/-- A form of two bytes that a newline breaks off does not take the newline along. -/
example : repaired [0xC3, 10, 0x62] = [0xEF, 0xBF, 0xBD, 10, 0x62] := by decide +kernel

end PatternSearch
