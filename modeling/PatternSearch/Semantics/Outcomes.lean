import PatternSearch.Expr.Basic
import PatternSearch.Search.Slots

/-! All the ways in which an expression can match at a position, in the order in which
backtracking tries them. An outcome is the position behind the match and the capture slots
at that point. The definition recurses on the syntax tree alone: it knows of no graph, no
continuation and no undoing. -/

namespace PatternSearch

abbrev Outcome := Nat × Slots

/-- The outcomes of a repetition after `count` iterations of `body`. An iteration beyond the
minimum that does not move is dropped, and none ends behind `limit`. -/
def Quantifier.outcomes (quantifier : Quantifier) (limit : Nat)
    (body : Nat → Slots → List Outcome) (count index : Nat) (slots : Slots) : List Outcome :=
  if count < quantifier.min then
    (body index slots).flatMap fun (stop, after) =>
      quantifier.outcomes limit body (count + 1) stop after
  else
    let stopping := [(index, slots)]
    let going :=
      if quantifier.allowsMore count then
        (body index slots).flatMap fun (stop, after) =>
          if index < stop ∧ stop ≤ limit then
            quantifier.outcomes limit body (count + 1) stop after
          else []
      else []
    if quantifier.greedy then going ++ stopping else stopping ++ going
termination_by (quantifier.min - count, limit - index)
decreasing_by
  · exact .left _ _ (by omega)
  · have settled : quantifier.min - (count + 1) = quantifier.min - count := by omega
    rw [settled]
    exact .right _ (by omega)

namespace Expr

mutual

def outcomes (text : Array Char) : Expr → Nat → Slots → List Outcome
  | empty, index, slots => [(index, slots)]
  | predicate test, index, slots =>
      if text[index]?.any test.accepts then [(index + 1, slots)] else []
  | atStart, index, slots => if index = 0 then [(index, slots)] else []
  | atEnd, index, slots => if index = text.size then [(index, slots)] else []
  | sequence items, index, slots => itemOutcomes text items index slots
  | alternation branches, index, slots => branchOutcomes text branches index slots
  | group number body, index, slots =>
      (body.outcomes text index (slots.setStart number index)).map fun (stop, after) =>
        (stop, after.setStop number stop)
  | repetition body quantifier, index, slots =>
      quantifier.outcomes text.size (body.outcomes text) 0 index slots
  | backreference number, index, slots =>
      match slots.span number with
      | none => []
      | some (start, stop) =>
          let beyond := index + (stop - start)
          if beyond ≤ text.size ∧ text.extract start stop = text.extract index beyond then
            [(beyond, slots)]
          else []

def itemOutcomes (text : Array Char) : List Expr → Nat → Slots → List Outcome
  | [], index, slots => [(index, slots)]
  | item :: items, index, slots =>
      (item.outcomes text index slots).flatMap fun (stop, after) =>
        itemOutcomes text items stop after

def branchOutcomes (text : Array Char) : List Expr → Nat → Slots → List Outcome
  | [], _, _ => []
  | branch :: branches, index, slots =>
      branch.outcomes text index slots ++ branchOutcomes text branches index slots

end

def firstOutcome? (expr : Expr) (text : Array Char) (start : Nat) (slots : Slots) :
    Option (Nat × Outcome) :=
  (List.range' start (text.size + 1 - start)).findSome? fun index =>
    (expr.outcomes text index slots).head?.map (index, ·)

end Expr

end PatternSearch
