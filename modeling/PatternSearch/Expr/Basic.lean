import PatternSearch.Predicate

/-! The syntax tree of a pattern. `Expr.sequenceOf` and `Expr.alternationOf` build the
trees that reading produces: a run of no items is empty and a run of one item is that item. -/

namespace PatternSearch

/-- How often an item may repeat, without an upper bound when `max` is absent. A greedy
quantifier tries one more repetition before it stops, a lazy one stops first. -/
structure Quantifier where
  min : Nat
  max : Option Nat
  greedy : Bool
deriving DecidableEq

def Quantifier.allowsMore (quantifier : Quantifier) (count : Nat) : Bool :=
  quantifier.max.all (count < ·)

inductive Expr where
  | empty
  | predicate (test : Predicate)
  | atStart
  | atEnd
  | sequence (items : List Expr)
  | alternation (branches : List Expr)
  | group (index : Nat) (body : Expr)
  | repetition (body : Expr) (quantifier : Quantifier)
  | backreference (group : Nat)

namespace Expr

def literal (c : Char) : Expr := predicate (.char c)

def sequenceOf : List Expr → Expr
  | [] => empty
  | [item] => item
  | items => sequence items

def alternationOf : List Expr → Expr
  | [] => empty
  | [branch] => branch
  | branches => alternation branches

def repeatable : Expr → Bool
  | predicate _ | group _ _ | backreference _ => true
  | _ => false

mutual

def same : Expr → Expr → Bool
  | empty, empty => true
  | predicate test, predicate other => test == other
  | atStart, atStart => true
  | atEnd, atEnd => true
  | sequence items, sequence others => allSame items others
  | alternation branches, alternation others => allSame branches others
  | group index body, group number other => index == number && body.same other
  | repetition body quantifier, repetition other bounds =>
      quantifier == bounds && body.same other
  | backreference index, backreference number => index == number
  | _, _ => false

def allSame : List Expr → List Expr → Bool
  | [], [] => true
  | item :: items, other :: others => item.same other && allSame items others
  | _, _ => false

end

mutual

theorem same_iff : (first second : Expr) → (first.same second = true ↔ first = second)
  | empty, second => by cases second <;> simp [same]
  | predicate _, second => by cases second <;> simp [same]
  | atStart, second => by cases second <;> simp [same]
  | atEnd, second => by cases second <;> simp [same]
  | sequence items, second => by cases second <;> simp [same, allSame_iff items]
  | alternation branches, second => by cases second <;> simp [same, allSame_iff branches]
  | group _ body, second => by cases second <;> simp [same, same_iff body]
  | repetition body _, second => by
      cases second <;> simp [same, same_iff body, and_comm]
  | backreference _, second => by cases second <;> simp [same]

theorem allSame_iff : (first second : List Expr) →
    (allSame first second = true ↔ first = second)
  | [], second => by cases second <;> simp [allSame]
  | item :: items, second => by
      cases second <;> simp [allSame, same_iff item, allSame_iff items]

end

instance : DecidableEq Expr := fun first second =>
  decidable_of_iff _ (same_iff first second)

end Expr

end PatternSearch
