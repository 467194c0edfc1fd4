import PatternSearch.Expr.Basic

/-! Changes to a tree that are not to change what it finds. A context is a tree with a hole, so
filling it with one expression or another replaces a part wherever that stands. A counted item can
be written out, and groups can be taken off their bodies. -/

namespace PatternSearch

namespace Expr

/-- A tree with a hole in the place of one of its parts. -/
inductive Context where
  | hole
  | sequence (before : List Expr) (inner : Context) (behind : List Expr)
  | alternation (before : List Expr) (inner : Context) (behind : List Expr)
  | group (index : Nat) (inner : Context)
  | repetition (inner : Context) (quantifier : Quantifier)

def Context.fill (part : Expr) : Context → Expr
  | hole => part
  | sequence before inner behind => .sequence (before ++ inner.fill part :: behind)
  | alternation before inner behind => .alternation (before ++ inner.fill part :: behind)
  | group index inner => .group index (inner.fill part)
  | repetition inner quantifier => .repetition (inner.fill part) quantifier

def isAtom : Expr → Bool
  | predicate _ | backreference _ => true
  | _ => false

/-- A repetition written out: the item as often as it is required, and behind it one optional item
for each that is allowed beyond, or any number of items if there is no bound. -/
def unrolled (item : Expr) (quantifier : Quantifier) : Expr :=
  let beyond := match quantifier.max with
    | some max =>
        .replicate (max - quantifier.min) (repetition item ⟨0, some 1, quantifier.greedy⟩)
    | none => [repetition item ⟨0, none, quantifier.greedy⟩]
  sequence (.replicate quantifier.min item ++ beyond)

def star (item : Expr) (greedy : Bool) : Expr := repetition item ⟨0, none, greedy⟩

mutual

/-- Puts the bodies of all groups in the places of the groups. -/
def bare : Expr → Expr
  | empty => empty
  | predicate test => predicate test
  | atStart => atStart
  | atEnd => atEnd
  | sequence items => sequence (bareAll items)
  | alternation branches => alternation (bareAll branches)
  | group _ body => bare body
  | repetition body quantifier => repetition (bare body) quantifier
  | backreference index => backreference index

def bareAll : List Expr → List Expr
  | [] => []
  | expr :: exprs => bare expr :: bareAll exprs

end

theorem bareAll_eq_map (exprs : List Expr) : bareAll exprs = exprs.map bare := by
  induction exprs with
  | nil => rfl
  | cons expr exprs ih => rw [bareAll, ih, List.map_cons]

end Expr

end PatternSearch
