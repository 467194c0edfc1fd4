import PatternSearch.Matcher
import PatternSearch.Text.Utf8

/-! Positions in characters and offsets in bytes. The offsets of a text are listed for every
character and for the end; between two positions lie exactly the bytes of the characters between
them, so a slice from one offset to another never cuts a character in two. -/

namespace PatternSearch

theorem byteLength_append (first rest : List Char) :
    byteLength (first ++ rest) = byteLength first + byteLength rest := by
  induction first with
  | nil => exact (Nat.zero_add _).symm
  | cons c first ih =>
    change c.utf8Size + byteLength (first ++ rest) = c.utf8Size + byteLength first + _
    rw [ih, Nat.add_assoc]

theorem encode_append (first rest : List Char) :
    encode (first ++ rest) = encode first ++ encode rest :=
  List.flatMap_append

theorem length_encode (text : List Char) : (encode text).length = byteLength text := by
  induction text with
  | nil => rfl
  | cons c text ih =>
    change (String.utf8EncodeChar c ++ encode text).length = c.utf8Size + byteLength text
    rw [List.length_append, String.length_utf8EncodeChar, ih]

theorem eq_nil_of_byteLength {text : List Char} (nothing : byteLength text = 0) : text = [] := by
  cases text with
  | nil => rfl
  | cons c text =>
    have positive := c.utf8Size_pos
    change c.utf8Size + byteLength text = 0 at nothing
    omega

theorem eq_of_byteLength_eq {first second rest others : List Char}
    (same : first ++ rest = second ++ others) (level : byteLength first = byteLength second) :
    first = second := by
  rcases List.append_eq_append_iff.mp same with ⟨more, rfl, _⟩ | ⟨more, rfl, _⟩
  all_goals
    rw [byteLength_append] at level
    have nothing : byteLength more = 0 := by omega
    rw [eq_nil_of_byteLength nothing, List.append_nil]

def byteOffsets (text : List Char) : List Nat :=
  text.scanl (fun offset c => offset + c.utf8Size) 0

theorem foldl_utf8Size (text : List Char) (offset : Nat) :
    text.foldl (fun offset c => offset + c.utf8Size) offset = offset + byteLength text := by
  induction text generalizing offset with
  | nil => rfl
  | cons c text ih =>
    change text.foldl _ (offset + c.utf8Size) = offset + (c.utf8Size + byteLength text)
    rw [ih, Nat.add_assoc]

theorem getElem?_byteOffsets {text : List Char} {position : Nat}
    (inside : position ≤ text.length) :
    (byteOffsets text)[position]? = some (byteLength (text.take position)) := by
  rw [byteOffsets, List.getElem?_scanl, if_pos inside, foldl_utf8Size, Nat.zero_add]

/-- No character of the text lies on both sides of the offset. -/
def CharBoundary (text : List Char) (offset : Nat) : Prop :=
  ∃ before behind, text = before ++ behind ∧ byteLength before = offset

/-- The bytes from `lower` to before `upper` are there and make up whole characters. -/
structure Sliceable (text : List Char) (lower upper : Nat) : Prop where
  ordered : lower ≤ upper
  inside : upper ≤ byteLength text
  begins : CharBoundary text lower
  ends : CharBoundary text upper

section Slices

variable {text : List Char} {start stop : Nat}

theorem charBoundary_take (text : List Char) (position : Nat) :
    CharBoundary text (byteLength (text.take position)) :=
  ⟨text.take position, text.drop position, (List.take_append_drop ..).symm, rfl⟩

theorem take_append_slice (ordered : start ≤ stop) :
    text.take start ++ (text.take stop).drop start = text.take stop := by
  have whole := List.take_append_drop start (text.take stop)
  rwa [List.take_take, Nat.min_eq_left ordered] at whole

theorem byteLength_take_le (ordered : start ≤ stop) :
    byteLength (text.take start) ≤ byteLength (text.take stop) := by
  rw [← take_append_slice ordered, byteLength_append]
  exact Nat.le_add_right ..

theorem byteLength_take_le_self (text : List Char) (position : Nat) :
    byteLength (text.take position) ≤ byteLength text := by
  have whole := congrArg byteLength (List.take_append_drop position text)
  rw [byteLength_append] at whole
  omega

theorem sliceable_take (ordered : start ≤ stop) :
    Sliceable text (byteLength (text.take start)) (byteLength (text.take stop)) :=
  ⟨byteLength_take_le ordered, byteLength_take_le_self text stop, charBoundary_take text start,
    charBoundary_take text stop⟩

theorem encode_slice (ordered : start ≤ stop) :
    ((encode text).take (byteLength (text.take stop))).drop (byteLength (text.take start)) =
      encode ((text.take stop).drop start) := by
  have whole : encode text = encode (text.take stop) ++ encode (text.drop stop) := by
    rw [← encode_append, List.take_append_drop]
  have upto : encode (text.take stop) =
      encode (text.take start) ++ encode ((text.take stop).drop start) := by
    rw [← encode_append, take_append_slice ordered]
  rw [whole, List.take_left' (length_encode _), upto]
  exact List.drop_left' (length_encode _)

end Slices

end PatternSearch
