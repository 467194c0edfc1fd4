import PatternSearch.Parse.Progress

/-! The grammar of patterns. A derivation is a tree that spells out how every part of a pattern is
written; it tells the text of the pattern and the syntax tree that the text stands for, without a
reader in between and without anything that reading is made of. What the grammar forbids cannot be
built: every rule carries its conditions. Groups are counted without a limit, as in a reading. -/

namespace PatternSearch

namespace Grammar

structure Numeral where
  digits : List Char
  nonempty : digits ≠ []
  decimal : ∀ c ∈ digits, c.isDigit
  fits : Nat.ofDigitChars 10 digits 0 < 4294967296

def Numeral.value (numeral : Numeral) : Nat := Nat.ofDigitChars 10 numeral.digits 0

inductive Bounds where
  | star
  | plus
  | optional
  | exactly (count : Numeral)
  | atLeast (low : Numeral)
  | between (low high : Numeral) (ordered : low.value ≤ high.value)

namespace Bounds

def write : Bounds → List Char
  | star => ['*']
  | plus => ['+']
  | optional => ['?']
  | exactly count => '{' :: (count.digits ++ ['}'])
  | atLeast low => '{' :: (low.digits ++ [',', '}'])
  | between low high _ => '{' :: (low.digits ++ ',' :: (high.digits ++ ['}']))

def low : Bounds → Nat
  | star | optional => 0
  | plus => 1
  | exactly count => count.value
  | atLeast low | between low _ _ => low.value

def high : Bounds → Option Nat
  | star | plus | atLeast _ => none
  | optional => some 1
  | exactly count => some count.value
  | between _ high _ => some high.value

end Bounds

structure Suffix where
  bounds : Bounds
  greedy : Bool

namespace Suffix

def write (suffix : Suffix) : List Char :=
  suffix.bounds.write ++ if suffix.greedy then [] else ['?']

def quantifier (suffix : Suffix) : Quantifier :=
  ⟨suffix.bounds.low, suffix.bounds.high, suffix.greedy⟩

end Suffix

def writeSuffix : Option Suffix → List Char
  | none => []
  | some suffix => suffix.write

def repeated (atom : Expr) : Option Suffix → Expr
  | none => atom
  | some suffix => .repetition atom suffix.quantifier

def asciiPunctuation : List Char := "!\"#$%&'()*+,-./:;<=>?@[\\]^_`\x7b|\x7d~".toList

inductive BracketChar where
  | plain (c : Char) (free : c ≠ ']' ∧ c ≠ '\\')
  | escaped (c : Char) (punctuation : c ∈ asciiPunctuation)

namespace BracketChar

def char : BracketChar → Char
  | plain c _ | escaped c _ => c

def write : BracketChar → List Char
  | plain c _ => [c]
  | escaped c _ => ['\\', c]

end BracketChar

/-- What a bracket expression lists. A dash between a character and a class is a member too. -/
inductive Member where
  | char (listed : BracketChar) (fits : listed.char.toNat < 256)
  | charClass (kind : CharClass)
  | range (low high : BracketChar) (ordered : low.char ≤ high.char) (fits : high.char.toNat < 256)
  | dashed (low : BracketChar) (kind : CharClass) (fits : low.char.toNat < 256)

namespace Member

def write : Member → List Char
  | char listed _ => listed.write
  | charClass kind => ['\\', kind.letter]
  | range low high _ _ => low.write ++ '-' :: high.write
  | dashed low kind _ => low.write ++ ['-', '\\', kind.letter]

def lists : Member → Char → Bool
  | char listed _, c => c == listed.char
  | charClass _, _ => false
  | range low high _ _, c => decide (low.char ≤ c) && decide (c ≤ high.char)
  | dashed low _ _, c => c == low.char || c == '-'

def kind? : Member → Option CharClass
  | charClass kind | dashed _ kind _ => some kind
  | char _ _ | range _ _ _ _ => none

end Member

def writeMembers (members : List Member) : List Char := members.flatMap Member.write

/-- A dash comes first, and then something other than a closing bracket. -/
def StartsRange (text : List Char) : Prop := ∃ c rest, text = '-' :: c :: rest ∧ c ≠ ']'

def Member.StandsBefore : Member → List Char → Prop
  | .char _ _, behind => ¬StartsRange behind
  | _, _ => True

/-- Every member stands before the members behind it and the closing bracket. -/
def Apart : List Member → Prop
  | [] => True
  | member :: members => member.StandsBefore (writeMembers members ++ [']']) ∧ Apart members

structure BracketExpr where
  negated : Bool
  members : List Member
  apart : Apart members
  bare : negated = false → (writeMembers members).head? ≠ some '^'

def setOf (test : Char → Bool) : CharSet :=
  ⟨(List.range 256).foldr
    (fun code bits => if test (Char.ofNat code) then bits ||| BitVec.twoPow 256 code else bits) 0⟩

namespace BracketExpr

def write (bracket : BracketExpr) : List Char :=
  '[' :: ((if bracket.negated then ['^'] else []) ++ writeMembers bracket.members ++ [']'])

def union (bracket : BracketExpr) : Predicate :=
  let listed := Predicate.set (setOf fun c => bracket.members.any (·.lists c))
  match bracket.members.filterMap Member.kind? with
  | [] => listed
  | kind :: kinds => .union (listed :: .charClass kind :: kinds.map .charClass)

def predicate (bracket : BracketExpr) : Predicate :=
  if bracket.negated then .complement bracket.union else bracket.union

end BracketExpr

def reserved : List Char := ['\\', '[', '(', ')', '|', '*', '+', '?', '{', '^', '$', '.']

inductive Leaf where
  | any
  | bracket (listing : BracketExpr)
  | reference (digit : Char) (nonzero : '1' ≤ digit ∧ digit ≤ '9')
  | charClass (kind : CharClass)
  | escaped (c : Char) (punctuation : c ∈ asciiPunctuation)
  | plain (c : Char) (free : c ∉ reserved)

def named (digit : Char) : Nat := digit.toNat - '0'.toNat

namespace Leaf

def write : Leaf → List Char
  | any => ['.']
  | bracket listing => listing.write
  | reference digit _ => ['\\', digit]
  | charClass kind => ['\\', kind.letter]
  | escaped c _ => ['\\', c]
  | plain c _ => [c]

def tree : Leaf → Expr
  | any => .predicate .any
  | bracket listing => .predicate listing.predicate
  | reference digit _ => .backreference (named digit)
  | charClass kind => .predicate (.charClass kind)
  | escaped c _ | plain c _ => .predicate (.char c)

end Leaf

mutual

inductive Body where
  | single (branch : Branch)
  | bar (branch : Branch) (others : Body)

inductive Branch where
  | nil
  | cons (item : Item) (items : Branch)

inductive Item where
  | atStart
  | atEnd
  | leaf (leaf : Leaf) (suffix : Option Suffix)
  | group (body : Body) (suffix : Option Suffix)

end

mutual

def Body.write : Body → List Char
  | .single branch => branch.write
  | .bar branch others => branch.write ++ '|' :: others.write

def Branch.write : Branch → List Char
  | .nil => []
  | .cons item items => item.write ++ items.write

def Item.write : Item → List Char
  | .atStart => ['^']
  | .atEnd => ['$']
  | .leaf leaf suffix => leaf.write ++ writeSuffix suffix
  | .group body suffix => '(' :: (body.write ++ ')' :: writeSuffix suffix)

end

mutual

def Body.groups : Body → Nat
  | .single branch => branch.groups
  | .bar branch others => branch.groups + others.groups

def Branch.groups : Branch → Nat
  | .nil => 0
  | .cons item items => item.groups + items.groups

def Item.groups : Item → Nat
  | .atStart | .atEnd | .leaf _ _ => 0
  | .group body _ => body.groups + 1

end

mutual

def Body.references : Body → List Nat
  | .single branch => branch.references
  | .bar branch others => branch.references ++ others.references

def Branch.references : Branch → List Nat
  | .nil => []
  | .cons item items => item.references ++ items.references

def Item.references : Item → List Nat
  | .leaf (.reference digit _) _ => [named digit]
  | .atStart | .atEnd | .leaf _ _ => []
  | .group body _ => body.references

end

mutual

/-- What a body stands for when `before` groups open in front of it. -/
def Body.tree (before : Nat) : Body → Expr
  | .single branch => branch.tree before
  | .bar branch others =>
      .alternation (branch.tree before :: others.branches (before + branch.groups))

def Body.branches (before : Nat) : Body → List Expr
  | .single branch => [branch.tree before]
  | .bar branch others => branch.tree before :: others.branches (before + branch.groups)

def Branch.tree (before : Nat) : Branch → Expr
  | .nil => .empty
  | .cons item .nil => item.tree before
  | .cons item (.cons next items) =>
      .sequence (item.tree before :: next.tree (before + item.groups) ::
        items.items (before + item.groups + next.groups))

def Branch.items (before : Nat) : Branch → List Expr
  | .nil => []
  | .cons item items => item.tree before :: items.items (before + item.groups)

def Item.tree (before : Nat) : Item → Expr
  | .atStart => .atStart
  | .atEnd => .atEnd
  | .leaf leaf suffix => repeated leaf.tree suffix
  | .group body suffix => repeated (.group (before + 1) (body.tree (before + 1))) suffix

end

end Grammar

/-- A derivation of a whole pattern: its backreferences name groups that it has, wherever these
open. -/
structure Derivation where
  body : Grammar.Body
  defined : ∀ group ∈ body.references, group ≤ body.groups

namespace Derivation

def source (derivation : Derivation) : String := .ofList derivation.body.write

def parsed (derivation : Derivation) : Parsed :=
  ⟨derivation.body.tree 0, derivation.body.groups⟩

end Derivation

end PatternSearch
