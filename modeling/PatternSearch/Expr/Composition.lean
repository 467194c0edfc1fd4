import PatternSearch.Expr.Basic

/-! How trees of patterns are put together. A tree is taken apart into the alternatives between
its bars, and an alternative into its items. The groups of a pattern that stands behind others
are numbered on from theirs, and a group can be taken off its body. -/

namespace PatternSearch

namespace Expr

def alternatives : Expr → List Expr
  | alternation branches => branches
  | branch => [branch]

def items : Expr → List Expr
  | empty => []
  | sequence items => items
  | item => [item]

mutual

/-- Adds to the index of every group. Backreferences stay as they are written. -/
def renumber (offset : Nat) : Expr → Expr
  | empty => empty
  | predicate test => predicate test
  | atStart => atStart
  | atEnd => atEnd
  | sequence items => sequence (renumberAll offset items)
  | alternation branches => alternation (renumberAll offset branches)
  | group index body => group (index + offset) (renumber offset body)
  | repetition body quantifier => repetition (renumber offset body) quantifier
  | backreference index => backreference index

def renumberAll (offset : Nat) : List Expr → List Expr
  | [] => []
  | expr :: exprs => renumber offset expr :: renumberAll offset exprs

end

theorem renumberAll_eq_map (offset : Nat) (exprs : List Expr) :
    renumberAll offset exprs = exprs.map (renumber offset) := by
  induction exprs with
  | nil => rfl
  | cons expr exprs ih => rw [renumberAll, ih, List.map_cons]

theorem renumber_sequenceOf (offset : Nat) (items : List Expr) :
    (sequenceOf items).renumber offset = sequenceOf (items.map (renumber offset)) := by
  match items with
  | [] => rfl
  | [item] => rfl
  | first :: second :: items =>
    change sequence (renumberAll offset (first :: second :: items)) = _
    rw [renumberAll_eq_map]
    rfl

theorem renumber_alternationOf (offset : Nat) (branches : List Expr) :
    (alternationOf branches).renumber offset = alternationOf (branches.map (renumber offset)) := by
  match branches with
  | [] => rfl
  | [branch] => rfl
  | first :: second :: branches =>
    change alternation (renumberAll offset (first :: second :: branches)) = _
    rw [renumberAll_eq_map]
    rfl

mutual

/-- Puts the body of the group in its place. All other groups keep their indexes. -/
def ungroup (number : Nat) : Expr → Expr
  | empty => empty
  | predicate test => predicate test
  | atStart => atStart
  | atEnd => atEnd
  | sequence items => sequence (ungroupAll number items)
  | alternation branches => alternation (ungroupAll number branches)
  | group index body =>
      if index = number then ungroup number body else group index (ungroup number body)
  | repetition body quantifier => repetition (ungroup number body) quantifier
  | backreference index => backreference index

def ungroupAll (number : Nat) : List Expr → List Expr
  | [] => []
  | expr :: exprs => ungroup number expr :: ungroupAll number exprs

end

theorem ungroupAll_eq_map (number : Nat) (exprs : List Expr) :
    ungroupAll number exprs = exprs.map (ungroup number) := by
  induction exprs with
  | nil => rfl
  | cons expr exprs ih => rw [ungroupAll, ih, List.map_cons]

end Expr

end PatternSearch
