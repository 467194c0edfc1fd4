import PatternSearch.Expr.Basic

/-! The written form of a syntax tree. A tree that was read from a pattern reads back from
its written form. Characters with a meaning of their own carry a backslash, bracket
expressions list their members in code point order, and group indexes are not written: they
follow from the order of the opening parentheses. -/

namespace PatternSearch

def isSpecial (c : Char) : Bool :=
  c ∈ ['\\', '.', '^', '$', '|', '(', ')', '[', ']', '{', '}', '*', '+', '?']

def printLiteral (c : Char) : List Char :=
  if isSpecial c then ['\\', c] else [c]

/-- The pattern that matches exactly this text. -/
def escape (text : List Char) : List Char := text.flatMap printLiteral

/-- A member of a bracket expression; only the characters that end, negate or join members
need a backslash there. -/
def printListed (c : Char) : List Char :=
  if c ∈ ['\\', ']', '^', '-', '['] then ['\\', c] else [c]

def CharClass.print (kind : CharClass) : List Char := ['\\', kind.letter]

namespace CharSet

/-- Splits an increasing list into the first and last characters of its consecutive runs. -/
def runsOf : List Char → List (Char × Char)
  | [] => []
  | c :: rest =>
      match runsOf rest with
      | [] => [(c, c)]
      | (low, high) :: runs =>
          if low.toNat = c.toNat + 1 then (c, high) :: runs
          else (c, c) :: (low, high) :: runs

def runs (set : CharSet) : List (Char × Char) := runsOf set.toList

/-- A run of four or more characters is written as a range, a shorter one member by member. -/
def printRun (low high : Char) : List Char :=
  if low.toNat + 3 ≤ high.toNat then printListed low ++ '-' :: printListed high
  else (List.range' low.toNat (high.toNat + 1 - low.toNat)).flatMap
    fun code => printListed (Char.ofNat code)

def print (set : CharSet) : List Char :=
  set.runs.flatMap fun (low, high) => printRun low high

end CharSet

namespace Predicate

mutual

def printInside : Predicate → List Char
  | char c => printListed c
  | charClass kind => kind.print
  | set members => members.print
  | union parts => printAllInside parts
  | any | complement _ => []

def printAllInside : List Predicate → List Char
  | [] => []
  | part :: parts => part.printInside ++ printAllInside parts

end

theorem printAllInside_eq_flatMap (parts : List Predicate) :
    printAllInside parts = parts.flatMap printInside := by
  induction parts with
  | nil => rfl
  | cons part parts ih => simp only [printAllInside, List.flatMap_cons, ih]

def print : Predicate → List Char
  | char c => printLiteral c
  | any => ['.']
  | charClass kind => kind.print
  | complement inner => ['[', '^'] ++ inner.printInside ++ [']']
  | set members => '[' :: (set members).printInside ++ [']']
  | union parts => '[' :: (union parts).printInside ++ [']']

end Predicate

def printNumber (n : Nat) : List Char := Nat.toDigits 10 n

namespace Quantifier

def printBounds : Nat → Option Nat → List Char
  | 0, none => ['*']
  | 1, none => ['+']
  | 0, some 1 => ['?']
  | low, none => '{' :: printNumber low ++ [',', '}']
  | low, some high =>
      if low = high then '{' :: printNumber low ++ ['}']
      else '{' :: printNumber low ++ ',' :: printNumber high ++ ['}']

def print (quantifier : Quantifier) : List Char :=
  printBounds quantifier.min quantifier.max ++ if quantifier.greedy then [] else ['?']

end Quantifier

namespace Expr

mutual

def print : Expr → List Char
  | empty => []
  | predicate test => test.print
  | atStart => ['^']
  | atEnd => ['$']
  | sequence items => printItems items
  | alternation branches => printBranches branches
  | group _ body => '(' :: body.print ++ [')']
  | repetition body quantifier => body.print ++ quantifier.print
  | backreference index => '\\' :: printNumber index

def printItems : List Expr → List Char
  | [] => []
  | item :: items => item.print ++ printItems items

def printBranches : List Expr → List Char
  | [] => []
  | [branch] => branch.print
  | branch :: next :: branches => branch.print ++ '|' :: printBranches (next :: branches)

end

def render (expr : Expr) : String := String.ofList expr.print

end Expr

end PatternSearch
