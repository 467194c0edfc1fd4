import PatternSearch.Expr.Basic

/-! The language of an expression without regard to order: between which positions of a text
it matches. Groups match like their bodies, and backreferences have no meaning here because
they depend on what was captured. -/

namespace PatternSearch

namespace Expr

mutual

inductive Matches (text : Array Char) : Expr → Nat → Nat → Prop where
  | empty {index : Nat} : Matches text empty index index
  | predicate {test : Predicate} {index : Nat} {c : Char} (there : text[index]? = some c)
      (accepted : test.accepts c = true) : Matches text (predicate test) index (index + 1)
  | atStart : Matches text atStart 0 0
  | atEnd : Matches text atEnd text.size text.size
  | sequence {items : List Expr} {start stop : Nat} (chained : MatchesAll text items start stop) :
      Matches text (sequence items) start stop
  | alternation {branches : List Expr} {branch : Expr} {start stop : Nat}
      (offered : branch ∈ branches) (matched : Matches text branch start stop) :
      Matches text (alternation branches) start stop
  | group {number : Nat} {body : Expr} {start stop : Nat}
      (matched : Matches text body start stop) : Matches text (group number body) start stop
  | repetition {body : Expr} {quantifier : Quantifier} {count start stop : Nat}
      (enough : quantifier.min ≤ count) (allowed : ∀ max ∈ quantifier.max, count ≤ max)
      (iterated : Iterates text body count start stop) :
      Matches text (repetition body quantifier) start stop

inductive MatchesAll (text : Array Char) : List Expr → Nat → Nat → Prop where
  | nil {index : Nat} : MatchesAll text [] index index
  | cons {item : Expr} {items : List Expr} {start middle stop : Nat}
      (first : Matches text item start middle) (rest : MatchesAll text items middle stop) :
      MatchesAll text (item :: items) start stop

/-- The body matches `count` times in a row; empty matches count. -/
inductive Iterates (text : Array Char) : Expr → Nat → Nat → Nat → Prop where
  | zero {body : Expr} {index : Nat} : Iterates text body 0 index index
  | succ {body : Expr} {count start middle stop : Nat}
      (first : Matches text body start middle) (rest : Iterates text body count middle stop) :
      Iterates text body (count + 1) start stop

end

end Expr

end PatternSearch
