import PatternSearch.Pattern
import PatternSearch.Search.Run

/-! A pattern at work on one text. Searching counts characters and starts from clean slots;
what a match holds is told in characters or in bytes of the text's UTF-8 form. -/

namespace PatternSearch

def byteLength (text : List Char) : Nat :=
  text.foldr (fun c length => c.utf8Size + length) 0

structure Matcher where
  pattern : Pattern
  text : Array Char
  state : SearchState

def Pattern.matcher (pattern : Pattern) (text : List Char) : Matcher :=
  ⟨pattern, text.toArray, .blank pattern.groups text.length⟩

namespace Matcher

/-- Gives up the last match, while its slots and its note on the end of the text stay. -/
def reset (matcher : Matcher) : Matcher :=
  { matcher with state := matcher.state.reset matcher.text.size }

def prepared (matcher : Matcher) : SearchState :=
  let cleared := matcher.reset.state.clearSlots
  { cleared with registers := { cleared.registers with reachedEnd := false } }

def searchFrom (matcher : Matcher) (start : Nat) : Bool × Matcher :=
  match matcher.pattern.graph.search matcher.text start matcher.prepared with
  | (true, state) => (true, { matcher with state })
  | (false, state) =>
      (false, { matcher with
        state := { state with registers := { state.registers with matchStart := unset } } })

def search (matcher : Matcher) : Bool × Matcher := matcher.searchFrom 0

/-- The characters between which a group matched in the last search, if it succeeded. Group 0
is the whole match. -/
def charSpan (matcher : Matcher) (group : Nat) : Option (Nat × Nat) :=
  if matcher.state.registers.matchStart = unset then none
  else matcher.state.registers.slots.span group

def byteOffset (matcher : Matcher) (index : Nat) : Nat :=
  byteLength (matcher.text.toList.take index)

def byteSpan (matcher : Matcher) (group : Nat) : Option (Nat × Nat) :=
  (matcher.charSpan group).map fun (start, stop) =>
    (matcher.byteOffset start, matcher.byteOffset stop)

def groupText (matcher : Matcher) (group : Nat) : Option (List Char) :=
  (matcher.charSpan group).map fun (start, stop) => (matcher.text.extract start stop).toList

def start (matcher : Matcher) : Option Nat := (matcher.byteSpan 0).map (·.1)

def stop (matcher : Matcher) : Option Nat := (matcher.byteSpan 0).map (·.2)

def reachedEnd (matcher : Matcher) : Bool := matcher.state.registers.reachedEnd

end Matcher

def Pattern.occursIn (pattern : Pattern) (text : List Char) : Bool :=
  (pattern.matcher text).search.1

end PatternSearch
