import PatternSearch.Text.Utf8

/-! Lines of a byte sequence. A line ends with a newline byte, which is part of it, or with
the input; no line is empty. -/

namespace PatternSearch

def newline : UInt8 := 10

def prependByte (byte : UInt8) (lines : List (List UInt8)) : List (List UInt8) :=
  if byte = newline then [byte] :: lines
  else match lines with
    | [] => [[byte]]
    | line :: lines => (byte :: line) :: lines

def splitLines (bytes : List UInt8) : List (List UInt8) := bytes.foldr prependByte []

theorem flatten_prependByte (byte : UInt8) (lines : List (List UInt8)) :
    (prependByte byte lines).flatten = byte :: lines.flatten := by
  unfold prependByte
  split
  · rfl
  · split <;> rfl

theorem flatten_splitLines (bytes : List UInt8) : (splitLines bytes).flatten = bytes := by
  unfold splitLines
  induction bytes with
  | nil => rfl
  | cons byte bytes ih => rw [List.foldr_cons, flatten_prependByte, ih]

def dropEnding (ending : Char) (text : List Char) : List Char :=
  if text.getLast? = some ending then text.dropLast else text

/-- The text of a line: without its newline, and then without one carriage return. -/
def lineText (line : List UInt8) : List Char :=
  dropEnding '\r' (dropEnding '\n' (decodeLossy line))

end PatternSearch
