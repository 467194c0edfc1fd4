import PatternSearch.Matcher
import PatternSearch.Text.Lines
import PatternSearch.Text.Style

/-! Search line by line: every line that a pattern matches is printed, with its first match
highlighted where colour is active. -/

namespace PatternSearch

structure LineFormat where
  labelled : Bool
  colour : Bool
deriving DecidableEq

namespace LineFormat

def printLabel (format : LineFormat) (label : List Char) : List Char :=
  if format.labelled then
    Style.magenta.paint format.colour label ++ Style.cyan.paint format.colour [':']
  else []

def highlight (format : LineFormat) (text : List Char) (start stop : Nat) : List Char :=
  text.take start ++
    Style.boldRed.paint format.colour ((text.take stop).drop start) ++ text.drop stop

end LineFormat

def searchLine (pattern : Pattern) (format : LineFormat) (label : List Char)
    (line : List UInt8) : Option (List Char) :=
  let text := lineText line
  let (found, matcher) := (pattern.matcher text).search
  if found then
    let body := match matcher.charSpan 0 with
      | some (start, stop) => format.highlight text start stop
      | none => text
    some (format.printLabel label ++ body ++ ['\n'])
  else none

structure LineReport where
  matched : Bool
  printed : List Char
deriving DecidableEq

def searchLines (pattern : Pattern) (format : LineFormat) (label : List Char)
    (input : List UInt8) : LineReport :=
  let printed := (splitLines input).filterMap (searchLine pattern format label)
  ⟨!printed.isEmpty, printed.flatten⟩

end PatternSearch
