import PatternSearch.FileTree.Basic

/-! The files that a list of paths stands for, and what is in the way of finding them. Directories
are walked in the order of their entries' names, files and directories mixed. -/

namespace PatternSearch

structure FoundFile where
  path : String
  content : Except PathError (List UInt8)

inductive Finding where
  | file (found : FoundFile)
  | skipped (path : String)
  | unlisted (path : String) (error : PathError)

def skippedReason : String := "is a directory (use -r to search it)"

namespace Finding

def file? : Finding → Option FoundFile
  | file found => some found
  | _ => none

def skipped? : Finding → Option String
  | skipped path => some path
  | _ => none

def error? : Finding → Option (String × String)
  | file _ => none
  | skipped path => some (path, skippedReason)
  | unlisted path error => some (path, error.message)

end Finding

def childPath (directory name : String) : String :=
  if directory.toList.getLast? = some '/' then directory ++ name
  else directory ++ "/" ++ name

namespace FileTree

mutual

/-- What there is at and below a path. A directory is listed before its entries are looked at. -/
def findingsBelow (path : String) : FileTree → List Finding
  | file content => [.file ⟨path, content⟩]
  | directory failures entries =>
      failures.map (.unlisted path) ++
        ((findingsOfEntries path entries).mergeSort fun first second =>
          first.1 ≤ second.1).flatMap (·.2)

def findingsOfEntries (path : String) :
    List (String × FileTree) → List (String × List Finding)
  | [] => []
  | (name, entry) :: entries =>
      (name, findingsBelow (childPath path name) entry) :: findingsOfEntries path entries

end

end FileTree

structure Expansion where
  findings : List Finding

namespace Expansion

def files (expansion : Expansion) : List FoundFile := expansion.findings.filterMap Finding.file?

def skipped (expansion : Expansion) : List String :=
  expansion.findings.filterMap Finding.skipped?

def errors (expansion : Expansion) : List (String × String) :=
  expansion.findings.filterMap Finding.error?

end Expansion

/-- A path that leads nowhere counts as a file that cannot be opened. -/
def expandPath (recursive : Bool) (path : String) : Except PathError FileTree → List Finding
  | .error error => [.file ⟨path, .error error⟩]
  | .ok (.file content) => [.file ⟨path, content⟩]
  | .ok (.directory failures entries) =>
      if recursive then (FileTree.directory failures entries).findingsBelow path
      else [.skipped path]

def expandPaths (lookup : String → Except PathError FileTree) (recursive : Bool)
    (paths : List String) : Expansion :=
  ⟨paths.flatMap fun path => expandPath recursive path (lookup path)⟩

end PatternSearch
