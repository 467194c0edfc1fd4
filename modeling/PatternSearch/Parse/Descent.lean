import PatternSearch.Parse

/-! The grammar as routines that call each other. Each of them reads one construct from where
a cursor stands in the pattern, and a group reads an alternation again. Nothing about the
routines says that they end, so they have limits: on the turns of a loop and on the groups
inside each other. -/

namespace PatternSearch

structure Cursor where
  position : Nat
  groups : Nat
  references : List (Nat × Nat)

/-- Why a routine stops: the pattern is at fault, a character is taken from behind its end, or
a limit is reached. -/
inductive Stop where
  | refused (error : ParseError)
  | overrun
  | exhausted

abbrev Routine (α : Type) := StateT Cursor (Except Stop) α

namespace Cursor

def start : Cursor := ⟨0, 0, []⟩

def moveTo (cursor : Cursor) (position : Nat) : Cursor := { cursor with position }

def openGroup (cursor : Cursor) : Cursor := { cursor with groups := cursor.groups + 1 }

def addReference (cursor : Cursor) (group position : Nat) : Cursor :=
  { cursor with references := cursor.references ++ [(group, position)] }

end Cursor

namespace Descent

inductive Turn (σ α : Type) where
  | again (state : σ)
  | leave (result : α)

def Turn.continues {σ α : Type} : Turn σ α → Bool
  | again _ => true
  | leave _ => false

def loop {σ α : Type} (turn : σ → Routine (Turn σ α)) : Nat → σ → Routine α
  | 0, _ => throw .exhausted
  | limit + 1, state => do
      match ← turn state with
      | .again next => loop turn limit next
      | .leave result => return result

def position : Routine Nat := return (← get).position

def advance : Routine Unit := modify fun cursor => cursor.moveTo (cursor.position + 1)

def refuse {α : Type} (cause : Cause) (position : Nat) : Routine α :=
  throw (.refused ⟨cause, position⟩)

def openGroup : Routine Nat := modifyGet fun cursor => (cursor.groups + 1, cursor.openGroup)

variable (pattern : List Char) (limit : Nat)

def current : Routine (Option Char) := return pattern[(← get).position]?

def peek : Routine (Option Char) := return pattern[(← get).position + 1]?

def charAt (position : Nat) : Routine Char :=
  match pattern[position]? with
  | some c => return c
  | none => throw .overrun

def eat (expected : Char) : Routine Bool := do
  if (← current pattern) = some expected then
    advance
    return true
  else
    return false

/-! Bounds. -/

def refuseBounds {α : Type} (fault : BoundsFault) (opening : Nat) : Routine α :=
  refuse (.invalidRepetition fault.reason) opening

def digitTurn (opening value : Nat) : Routine (Turn Nat Nat) := do
  match (← current pattern).filter Char.isDigit with
  | none => return .leave value
  | some digit =>
      let larger := 10 * value + digitValue digit
      if larger < boundLimit then
        advance
        return .again larger
      else
        refuseBounds .tooLarge opening

def number (opening : Nat) : Routine Nat := do
  let first ← position
  let value ← loop (digitTurn pattern opening) limit 0
  if (← position) = first then
    refuseBounds .missingNumber opening
  else
    return value

def upperBound (opening low : Nat) : Routine (Option Nat) := do
  if ← eat pattern ',' then
    if (← current pattern) = some '}' then
      return none
    else
      return some (← number pattern limit opening)
  else
    return some low

def bounds : Routine (Nat × Option Nat) := do
  let opening ← position
  advance
  let low ← number pattern limit opening
  let high ← upperBound pattern limit opening low
  if ← eat pattern '}' then
    match high with
    | none => return (low, none)
    | some max =>
        if max < low then
          refuseBounds (.reversed low max) opening
        else
          return (low, some max)
  else
    refuseBounds (.notClosed (← current pattern)) opening

def quantifier : Routine (Option (Nat × Option Nat)) := do
  match ← current pattern with
  | none => return none
  | some c =>
      if c = '*' then do
        advance
        return some (0, none)
      else if c = '+' then do
        advance
        return some (1, none)
      else if c = '?' then do
        advance
        return some (0, some 1)
      else if c = '{' then
        return some (← bounds pattern limit)
      else
        return none

def complete (item : Expr) : Routine Expr := do
  match (← current pattern).filter startsQuantifier with
  | some second => refuse (.danglingQuantifier second) (← position)
  | none => return item

/-- What may stand behind an item that has been read. The item is found to admit no
quantifier only when the quantifier has been read. -/
def repeated (item : Expr) : Routine Expr := do
  let place ← position
  match ← quantifier pattern limit with
  | none => return item
  | some (low, high) =>
      if item.repeatable then
        let lazy ← eat pattern '?'
        complete pattern (.repetition item ⟨low, high, !lazy⟩)
      else
        refuse (.danglingQuantifier (← charAt pattern place)) place

/-! Brackets and escapes. -/

def member (opening : Nat) : Routine Symbol := do
  let place ← position
  match ← current pattern with
  | none => refuse .unterminatedBracket opening
  | some c =>
      advance
      if c = '\\' then
        match ← current pattern with
        | none => refuse .unterminatedBracket opening
        | some escaped =>
            advance
            match Symbol.ofEscaped? escaped with
            | some symbol => return symbol
            | none => refuse (.unknownEscape escaped) place
      else
        return .char c

def startsRange : Routine Bool := do
  let behind ← peek pattern
  return (← current pattern) == some '-' && behind != none && behind != some ']'

def bracketItem (opening : Nat) : Routine BracketItem := do
  match ← member pattern opening with
  | .charClass kind => return .single (.charClass kind)
  | .char low =>
      if ← startsRange pattern then
        advance
        match ← member pattern opening with
        | .char high => return .range low high
        | .charClass kind => return .dashed low kind
      else
        return .single (.char low)

def bracketTurn (opening : Nat) (read : Bracket) : Routine (Turn Bracket Bracket) := do
  let place ← position
  match ← current pattern with
  | none => refuse .unterminatedBracket opening
  | some c =>
      if c = ']' then
        advance
        return .leave read
      else
        match read.add (← bracketItem pattern opening) with
        | .ok larger => return .again larger
        | .error cause => refuse cause place

def bracket : Routine Expr := do
  let opening ← position
  advance
  let negated ← eat pattern '^'
  let read ← loop (bracketTurn pattern opening) limit .empty
  return .predicate (if negated then .complement read.predicate else read.predicate)

def noteReference (item : Expr) (position : Nat) : Routine Unit :=
  match item with
  | .backreference group => modify fun cursor => cursor.addReference group position
  | _ => return

def escape : Routine Expr := do
  let backslash ← position
  advance
  match ← current pattern with
  | none => refuse .trailingEscape backslash
  | some c =>
      advance
      match readEscape c with
      | some item =>
          noteReference item backslash
          return item
      | none => refuse (.unknownEscape c) backslash

/-! What can hold a group; the `inner` routine reads what stands in it. -/

section Groups

variable (inner : Routine Expr)

def group : Routine Expr := do
  let opening ← position
  advance
  let index ← openGroup
  let expr ← inner
  if ← eat pattern ')' then
    return .group index expr
  else
    refuse .unterminatedGroup opening

def atom : Routine Expr := do
  let place ← position
  match ← current pattern with
  | none => return .empty
  | some c =>
      if c = '\\' then escape pattern
      else if c = '[' then bracket pattern limit
      else if c = '(' then group pattern inner
      else if startsQuantifier c then refuse (.danglingQuantifier c) place
      else do
        advance
        return if c = '^' then .atStart else if c = '$' then .atEnd
          else if c = '.' then .predicate .any else .literal c

def quantified : Routine Expr := do
  repeated pattern limit (← atom pattern limit inner)

def itemTurn (read : Array Expr) : Routine (Turn (Array Expr) Expr) := do
  match ← current pattern with
  | none => return .leave (.sequenceOf read.toList)
  | some c =>
      if c = '|' || c = ')' then
        return .leave (.sequenceOf read.toList)
      else
        return .again (read.push (← quantified pattern limit inner))

def sequence : Routine Expr := loop (itemTurn pattern limit inner) limit #[]

def branchTurn (read : Array Expr) : Routine (Turn (Array Expr) Expr) := do
  if ← eat pattern '|' then
    return .again (read.push (← sequence pattern limit inner))
  else
    return .leave (.alternationOf read.toList)

def alternation : Routine Expr := do
  let first ← sequence pattern limit inner
  loop (branchTurn pattern limit inner) limit #[first]

end Groups

/-- An alternation with fewer groups inside each other than the number says. -/
def nested : Nat → Routine Expr
  | 0 => throw .exhausted
  | depth + 1 => alternation pattern limit (nested depth)

/-- An alternation ends early only at a closing parenthesis. Backreferences are checked when
everything is read. -/
def wholePattern : Routine Parsed := do
  let expr ← nested pattern limit limit
  if (← current pattern) = some ')' then
    refuse .unmatchedParen (← position)
  else
    let last ← get
    match last.references.find? (last.groups < ·.1) with
    | some (group, place) => refuse (.undefinedBackreference group) place
    | none => return ⟨expr, last.groups⟩

def parse : Except Stop Parsed := (wholePattern pattern limit).run' .start

end Descent

end PatternSearch
