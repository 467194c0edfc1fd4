/-! Styled text for terminals.

`Style.paint` stands for what the external library `colored` writes. It is assumed to put one
sequence before the text and one reset behind it, and to leave the text itself as it is. A text
with a reset of its own would get the style again behind that reset in the library, not here. -/

namespace PatternSearch

inductive Style where
  | bold
  | boldRed
  | green
  | magenta
  | cyan
deriving DecidableEq

namespace Style

def codes : Style → List Char
  | bold => ['1']
  | boldRed => ['1', ';', '3', '1']
  | green => ['3', '2']
  | magenta => ['3', '5']
  | cyan => ['3', '6']

def escape : Char := '\x1b'

def paint (style : Style) (active : Bool) (text : List Char) : List Char :=
  if active then
    [escape, '['] ++ style.codes ++ ['m'] ++ text ++ [escape, '[', '0', 'm']
  else text

def isCode (c : Char) : Bool := c.isDigit || c = ';'

def sequenceEnd? : List Char → Option (List Char)
  | '[' :: codes =>
      match codes.dropWhile isCode with
      | 'm' :: rest => some rest
      | _ => none
  | _ => none

theorem sequenceEnd?_suffix {text rest : List Char} (ended : sequenceEnd? text = some rest) :
    rest <:+ text := by
  unfold sequenceEnd? at ended
  split at ended
  · next codes =>
    split at ended
    · next dropped =>
      cases ended
      have behind := List.dropWhile_suffix (l := codes) isCode
      rw [dropped] at behind
      exact ((List.suffix_cons _ _).trans behind).trans (List.suffix_cons _ _)
    · cases ended
  · cases ended

def erase (text : List Char) : List Char :=
  match text with
  | [] => []
  | c :: rest =>
      if c = escape then
        match _ended : sequenceEnd? rest with
        | some beyond => erase beyond
        | none => c :: erase rest
      else c :: erase rest
termination_by text.length
decreasing_by
  · have bound := (sequenceEnd?_suffix _ended).length_le
    simp only [List.length_cons]
    omega
  · simp
  · simp

end Style

end PatternSearch
