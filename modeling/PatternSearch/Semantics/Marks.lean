import PatternSearch.Expr.Basic
import PatternSearch.Search.Slots

/-! The marks that a match leaves: where each group begins and where it ends, in the order in
which it happens. The relation extends the language of an expression by these marks. A group marks
its head, passes through its body and marks its tail, and nothing else marks anything. -/

namespace PatternSearch

inductive Mark where
  | head (group index : Nat)
  | tail (group index : Nat)
deriving DecidableEq

def Mark.group : Mark → Nat
  | head group _ | tail group _ => group

namespace Slots

def mark (slots : Slots) : Mark → Slots
  | .head group index => slots.setStart group index
  | .tail group index => slots.setStop group index

def replay (slots : Slots) (marks : List Mark) : Slots := marks.foldl mark slots

end Slots

namespace Expr

mutual

/-- The expression can match from one position to another and leave the marks. A backreference
may repeat whatever there is, as no text was captured here. -/
inductive Passes (text : Array Char) : Expr → Nat → List Mark → Nat → Prop where
  | empty {index : Nat} : Passes text empty index [] index
  | predicate {test : Predicate} {index : Nat} {c : Char} (there : text[index]? = some c)
      (accepted : test.accepts c = true) : Passes text (predicate test) index [] (index + 1)
  | atStart : Passes text atStart 0 [] 0
  | atEnd : Passes text atEnd text.size [] text.size
  | sequence {items : List Expr} {start stop : Nat} {marks : List Mark}
      (chained : PassesAll text items start marks stop) :
      Passes text (sequence items) start marks stop
  | alternation {branches : List Expr} {branch : Expr} {start stop : Nat} {marks : List Mark}
      (offered : branch ∈ branches) (passed : Passes text branch start marks stop) :
      Passes text (alternation branches) start marks stop
  | group {number : Nat} {body : Expr} {start stop : Nat} {marks : List Mark}
      (passed : Passes text body start marks stop) :
      Passes text (group number body) start (.head number start :: (marks ++ [.tail number stop]))
        stop
  | repetition {body : Expr} {quantifier : Quantifier} {count start stop : Nat}
      {marks : List Mark} (enough : quantifier.min ≤ count)
      (allowed : ∀ max ∈ quantifier.max, count ≤ max)
      (iterated : PassesAll text (List.replicate count body) start marks stop) :
      Passes text (repetition body quantifier) start marks stop
  | backreference {number start stop : Nat} (forward : start ≤ stop) (inside : stop ≤ text.size) :
      Passes text (backreference number) start [] stop

inductive PassesAll (text : Array Char) : List Expr → Nat → List Mark → Nat → Prop where
  | nil {index : Nat} : PassesAll text [] index [] index
  | cons {item : Expr} {items : List Expr} {start middle stop : Nat} {first rest : List Mark}
      (head : Passes text item start first middle) (tail : PassesAll text items middle rest stop) :
      PassesAll text (item :: items) start (first ++ rest) stop

end

end Expr

/-- The last marks of the group are the head and the tail of one passage, from `first` to `last`:
between its head and its tail lies no mark of the group, and none follows. -/
structure LastPassage (group first last : Nat) (marks before inside after : List Mark) : Prop where
  marked : marks = before ++ .head group first :: (inside ++ .tail group last :: after)
  inside : ∀ mark ∈ inside, mark.group ≠ group
  after : ∀ mark ∈ after, mark.group ≠ group

end PatternSearch
