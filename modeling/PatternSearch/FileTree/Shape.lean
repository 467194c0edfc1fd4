import PatternSearch.FileTree.Expansion
import PatternSearch.Text.Utf8

/-! What is in a tree of files, told without walking it: the file at the end of a chain of names,
trees as a file system shows them, and paths by their components. -/

namespace PatternSearch

namespace FileTree

inductive Holds : FileTree → List String → Except PathError (List UInt8) → Prop
  | here (content : Except PathError (List UInt8)) : Holds (file content) [] content
  | inside {failures : List PathError} {entries : List (String × FileTree)} {name : String}
      {entry : FileTree} {names : List String} {content : Except PathError (List UInt8)} :
      (name, entry) ∈ entries → Holds entry names content →
      Holds (directory failures entries) (name :: names) content

def IsName (name : String) : Prop := name ≠ "" ∧ '/' ∉ name.toList

/-- Every directory can be listed and shows each of its entries once. -/
inductive Readable : FileTree → Prop
  | file (content : Except PathError (List UInt8)) : Readable (file content)
  | directory {entries : List (String × FileTree)} : (entries.map (·.1)).Nodup →
      (∀ entry ∈ entries, IsName entry.1) → (∀ entry ∈ entries, Readable entry.2) →
      Readable (directory [] entries)

/-- The walk when directories may be nested in each other only so deep. -/
def findingsWithin : Nat → String → FileTree → Option (List Finding)
  | _, path, file content => some [.file ⟨path, content⟩]
  | 0, _, directory _ _ => none
  | depth + 1, path, directory failures entries => do
      let below ← entries.mapM fun entry => do
        let findings ← findingsWithin depth (childPath path entry.1) entry.2
        return (entry.1, findings)
      return failures.map (.unlisted path) ++
        (below.mergeSort fun first second => first.1 ≤ second.1).flatMap (·.2)

end FileTree

def pathBelow (directory : String) (names : List String) : String := names.foldl childPath directory

/-- Paths are compared component by component, by the bytes of their names. -/
def pathKey (path : String) : List (List UInt8) := (splitPath path.toList).map encode

end PatternSearch
