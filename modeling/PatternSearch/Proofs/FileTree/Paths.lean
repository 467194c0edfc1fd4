import Mathlib
import PatternSearch.FileTree.Shape
import PatternSearch.Proofs.Text.Order

/-! Paths by their components. Going down from a directory adds one component for each name, so
paths below one directory are in the order of the chains of names that lead to them. -/

namespace PatternSearch

open FileTree (IsName)

theorem splitPath_ne_nil (path : List Char) : splitPath path ≠ [] := by
  cases path with
  | nil => exact List.cons_ne_nil _ _
  | cons c path =>
    rw [splitPath]
    split
    · exact List.cons_ne_nil _ _
    · split <;> exact List.cons_ne_nil _ _

theorem splitPath_append (front back : List Char) :
    splitPath (front ++ '/' :: back) = splitPath front ++ splitPath back := by
  induction front with
  | nil => rfl
  | cons c front ih =>
    rw [List.cons_append, splitPath, splitPath, ih]
    split
    · rfl
    · obtain ⟨first, others, split⟩ := List.exists_cons_of_ne_nil (splitPath_ne_nil front)
      rw [split]
      rfl

theorem splitPath_single {name : List Char} (single : '/' ∉ name) : splitPath name = [name] := by
  induction name with
  | nil => rfl
  | cons c name ih =>
    rw [List.mem_cons, not_or] at single
    rw [splitPath, if_neg (Ne.symm single.1), ih single.2]

theorem childPath_plain {directory : String} (ends : directory.toList.getLast? ≠ some '/')
    (name : String) :
    (childPath directory name).toList = directory.toList ++ '/' :: name.toList := by
  rw [childPath, if_neg ends]
  simp

/-- A slash stands in front of the name, and what stands in front of the slash is the same for
every entry. -/
theorem exists_front (directory : String) :
    ∃ front, ∀ name, (childPath directory name).toList = front ++ '/' :: name.toList := by
  by_cases ends : directory.toList.getLast? = some '/'
  · obtain ⟨front, whole⟩ := List.getLast?_eq_some_iff.mp ends
    refine ⟨front, fun name => ?_⟩
    rw [childPath, if_pos ends, String.toList_append, whole, List.append_assoc]
    rfl
  · exact ⟨directory.toList, childPath_plain ends⟩

section Below

variable {directory name : String} {names : List String}

theorem getLast?_childPath (known : IsName name) :
    (childPath directory name).toList.getLast? ≠ some '/' := by
  obtain ⟨front, below⟩ := exists_front directory
  have nonempty : name.toList ≠ [] := fun empty => known.1 (String.toList_eq_nil_iff.mp empty)
  obtain ⟨c, rest, same⟩ := List.exists_cons_of_ne_nil nonempty
  intro ends
  rw [below, same, List.getLast?_append_cons, List.getLast?_cons_cons, ← same] at ends
  exact known.2 (List.mem_of_getLast? ends)

theorem splitPath_pathBelow (known : ∀ name ∈ names, IsName name)
    (ends : directory.toList.getLast? ≠ some '/') :
    splitPath (pathBelow directory names).toList =
      splitPath directory.toList ++ names.map String.toList := by
  induction names generalizing directory with
  | nil => exact (List.append_nil _).symm
  | cons name names ih =>
    rw [List.forall_mem_cons] at known
    obtain ⟨first, others⟩ := known
    change splitPath (pathBelow (childPath directory name) names).toList = _
    rw [ih others (getLast?_childPath first), childPath_plain ends, splitPath_append,
      splitPath_single first.2, List.append_assoc]
    rfl

theorem exists_splitPath_pathBelow (directory : String) :
    ∃ base, ∀ names, names ≠ [] → (∀ name ∈ names, IsName name) →
      splitPath (pathBelow directory names).toList = base ++ names.map String.toList := by
  obtain ⟨front, below⟩ := exists_front directory
  refine ⟨splitPath front, fun names nonempty known => ?_⟩
  obtain ⟨name, names, rfl⟩ := List.exists_cons_of_ne_nil nonempty
  rw [List.forall_mem_cons] at known
  obtain ⟨first, others⟩ := known
  change splitPath (pathBelow (childPath directory name) names).toList = _
  rw [splitPath_pathBelow others (getLast?_childPath first), below, splitPath_append,
    splitPath_single first.2, List.append_assoc]
  rfl

end Below

def namesKey (names : List String) : List (List UInt8) := names.map fun name => encode name.toList

theorem pathKey_lt {directory : String} {one other : List String} (nonempty : one ≠ [])
    (others : other ≠ []) (known : ∀ name ∈ one, IsName name)
    (knownOther : ∀ name ∈ other, IsName name) (less : namesKey one < namesKey other) :
    pathKey (pathBelow directory one) < pathKey (pathBelow directory other) := by
  obtain ⟨base, below⟩ := exists_splitPath_pathBelow directory
  rw [pathKey, pathKey, below one nonempty known, below other others knownOther, List.map_append,
    List.map_append, List.map_map, List.map_map]
  exact List.append_left_lt less

end PatternSearch
