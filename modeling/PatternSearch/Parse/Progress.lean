import PatternSearch.Expr.Basic
import PatternSearch.Parse.Fault

/-! What is known about a pattern while it is read from left to right: the branches and
items of the innermost open level, the groups that are still open around it, how many groups
have been opened, and the backreferences met.

Groups are counted by natural numbers, here and in the derivations of the grammar. The program
counts them in 32 bits, which only a pattern of 2^32 opening parentheses can tell apart. -/

namespace PatternSearch

structure Level where
  branches : Array Expr
  items : Array Expr

namespace Level

def empty : Level := ⟨#[], #[]⟩

def addItem (level : Level) (item : Expr) : Level :=
  { level with items := level.items.push item }

def endBranch (level : Level) : Level :=
  ⟨level.branches.push (.sequenceOf level.items.toList), #[]⟩

def close (level : Level) : Expr := .alternationOf level.endBranch.branches.toList

end Level

/-- A group whose closing parenthesis has not been read: its index, the rest of the pattern
from its opening parenthesis on, and the level around it. -/
structure OpenGroup where
  index : Nat
  site : List Char
  outer : Level

structure Reference where
  group : Nat
  site : List Char

structure Parsed where
  expr : Expr
  groups : Nat
deriving DecidableEq

/-- The innermost of the `pending` groups comes first. -/
structure Progress where
  level : Level
  pending : List OpenGroup
  groups : Nat
  references : Array Reference

namespace Progress

def start : Progress := ⟨.empty, [], 0, #[]⟩

def addItem (progress : Progress) (item : Expr) : Progress :=
  { progress with level := progress.level.addItem item }

def addReference (progress : Progress) (reference : Reference) : Progress :=
  { progress with references := progress.references.push reference }

def endBranch (progress : Progress) : Progress :=
  { progress with level := progress.level.endBranch }

def openGroup (progress : Progress) (site : List Char) : Progress :=
  { progress with
    level := .empty
    pending := ⟨progress.groups + 1, site, progress.level⟩ :: progress.pending
    groups := progress.groups + 1 }

/-- The end of the pattern. An open group is reported before a backreference to a group that
the whole pattern does not define. -/
def finish (progress : Progress) : Except Fault Parsed :=
  match progress.pending with
  | group :: _ => .error ⟨.unterminatedGroup, group.site⟩
  | [] =>
      match progress.references.find? (progress.groups < ·.group) with
      | some reference => .error ⟨.undefinedBackreference reference.group, reference.site⟩
      | none => .ok ⟨progress.level.close, progress.groups⟩

end Progress

end PatternSearch
