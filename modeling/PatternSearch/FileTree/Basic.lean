/-! Files and directories as a finite tree, and what a path leads to. The tree's root serves
as the working directory and as its own parent. Names are strings of characters, so files whose
names are not valid UTF-8 are left out. -/

namespace PatternSearch

inductive PathError where
  | notFound
  | notDirectory
  | unreadable (reason : String)
deriving DecidableEq

def PathError.message : PathError → String
  | notFound => "No such file or directory (os error 2)"
  | notDirectory => "Not a directory (os error 20)"
  | unreadable reason => reason

/-- A file may be there and still not open. Listing a directory may fail, altogether or in part:
it shows the failures beside the entries that it lists. -/
inductive FileTree where
  | file (content : Except PathError (List UInt8))
  | directory (failures : List PathError) (entries : List (String × FileTree))

/-- The components of a path; a slash at either end or beside another slash bounds an empty
component. -/
def splitPath : List Char → List (List Char)
  | [] => [[]]
  | c :: path =>
      if c = '/' then [] :: splitPath path
      else match splitPath path with
        | [] => [[c]]
        | component :: components => (c :: component) :: components

namespace FileTree

def emptyDirectory : FileTree := directory [] []

/-- Follows components from the entry at the head of a trail that leads up to the root. Only
a directory has components below it, empty ones included. -/
def follow (here : FileTree) (above : List FileTree) :
    List String → Except PathError FileTree
  | [] => .ok here
  | component :: components =>
      match here with
      | file _ => .error .notDirectory
      | directory _ entries =>
          if component = "" ∨ component = "." then follow here above components
          else if component = ".." then
            match above with
            | [] => follow here [] components
            | parent :: above => follow parent above components
          else match entries.lookup component with
            | none => .error .notFound
            | some entry => follow entry (here :: above) components

def lookup (root : FileTree) (path : String) : Except PathError FileTree :=
  if path = "" then .error .notFound
  else root.follow [] ((splitPath path.toList).map String.ofList)

def putEntry (name : String) (update : Option FileTree → FileTree) :
    List (String × FileTree) → List (String × FileTree)
  | [] => [(name, update none)]
  | (other, entry) :: entries =>
      if other = name then (name, update (some entry)) :: entries
      else (other, entry) :: putEntry name update entries

def updateAt (update : Option FileTree → FileTree) :
    List String → Option FileTree → FileTree
  | [], entry => update entry
  | name :: names, some (directory failures entries) =>
      directory failures (putEntry name (updateAt update names) entries)
  | name :: names, _ => directory [] [(name, updateAt update names none)]

def addFile (tree : FileTree) (names : List String) (content : List UInt8) : FileTree :=
  updateAt (fun _ => file (.ok content)) names (some tree)

def addDirectory (tree : FileTree) (names : List String) : FileTree :=
  updateAt (fun entry => entry.getD emptyDirectory) names (some tree)

end FileTree

end PatternSearch
