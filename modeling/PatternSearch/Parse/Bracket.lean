import PatternSearch.Parse.Fault
import PatternSearch.Predicate

/-! Bracket expressions, from behind the opening bracket to the first closing bracket that
is neither escaped nor the end of a range. Every reader leaves a proper suffix of its input,
which the lemmas below state. -/

namespace PatternSearch

def isPunctuation (c : Char) : Bool :=
  33 ≤ c.toNat && c.toNat ≤ 47 || 58 ≤ c.toNat && c.toNat ≤ 64 ||
    91 ≤ c.toNat && c.toNat ≤ 96 || 123 ≤ c.toNat && c.toNat ≤ 126

inductive Symbol where
  | char (c : Char)
  | charClass (kind : CharClass)
deriving DecidableEq

def Symbol.ofEscaped? (c : Char) : Option Symbol :=
  match CharClass.ofLetter? c with
  | some kind => some (charClass kind)
  | none => if isPunctuation c then some (char c) else none

/-- One step of a bracket expression. A dash between a character and a class makes no
range: both ends and the dash are members. -/
inductive BracketItem where
  | single (symbol : Symbol)
  | range (low high : Char)
  | dashed (low : Char) (kind : CharClass)
deriving DecidableEq

structure Bracket where
  members : CharSet
  classes : List CharClass

namespace Bracket

def empty : Bracket := ⟨.empty, []⟩

def addChar (bracket : Bracket) (c : Char) : Except Cause Bracket :=
  match bracket.members.insert? c with
  | some members => .ok { bracket with members }
  | none => .error (.unsupportedCharacter c)

def addClass (bracket : Bracket) (kind : CharClass) : Bracket :=
  { bracket with classes := bracket.classes ++ [kind] }

def add (bracket : Bracket) : BracketItem → Except Cause Bracket
  | .single (.char c) => bracket.addChar c
  | .single (.charClass kind) => .ok (bracket.addClass kind)
  | .range low high =>
      if high < low then .error (.invalidRange low high)
      else match bracket.members.insertRange? low high with
        | some members => .ok { bracket with members }
        | none => .error (.unsupportedCharacter (if low.toNat < 256 then high else low))
  | .dashed low kind => do
      let withLow ← bracket.addChar low
      let withDash ← withLow.addChar '-'
      return withDash.addClass kind

def predicate (bracket : Bracket) : Predicate :=
  .unionOf (.set bracket.members :: bracket.classes.map .charClass)

end Bracket

/-- An expression that ends too early is reported at its opening bracket. -/
def readSymbol (opening : List Char) : List Char → Except Fault (Symbol × List Char)
  | [] | ['\\'] => .error ⟨.unterminatedBracket, opening⟩
  | '\\' :: c :: rest =>
      match Symbol.ofEscaped? c with
      | some symbol => .ok (symbol, rest)
      | none => .error ⟨.unknownEscape c, '\\' :: c :: rest⟩
  | c :: rest => .ok (.char c, rest)

/-- The input behind the dash of a range: a dash just before the closing bracket or the end
of the pattern makes no range. -/
def rangeEnd? : List Char → Option (List Char)
  | '-' :: c :: rest => if c = ']' then none else some (c :: rest)
  | _ => none

def readBracketItem (opening input : List Char) : Except Fault (BracketItem × List Char) := do
  let (first, rest) ← readSymbol opening input
  match first, rangeEnd? rest with
  | .char low, some beyond =>
      let (last, rest) ← readSymbol opening beyond
      match last with
      | .char high => return (.range low high, rest)
      | .charClass kind => return (.dashed low kind, rest)
  | _, _ => return (.single first, rest)

theorem readSymbol_suffix {opening input rest : List Char} {symbol : Symbol}
    (read : readSymbol opening input = .ok (symbol, rest)) :
    rest <:+ input ∧ rest.length < input.length := by
  unfold readSymbol at read
  split at read
  · cases read
  · cases read
  · split at read <;> cases read
    exact ⟨⟨['\\', _], rfl⟩, by simp only [List.length_cons]; omega⟩
  · cases read
    exact ⟨⟨[_], rfl⟩, by simp⟩

theorem rangeEnd?_suffix {input beyond : List Char} (found : rangeEnd? input = some beyond) :
    beyond <:+ input := by
  unfold rangeEnd? at found
  split at found
  · split at found <;> cases found
    exact ⟨['-'], rfl⟩
  · cases found

theorem readBracketItem_suffix {opening input rest : List Char} {item : BracketItem}
    (read : readBracketItem opening input = .ok (item, rest)) :
    rest <:+ input ∧ rest.length < input.length := by
  obtain ⟨⟨symbol, after⟩, first, read⟩ := bind_eq_ok.mp read
  have ⟨contained, shorter⟩ := readSymbol_suffix first
  simp only at read
  split at read
  · next low beyond found =>
    obtain ⟨⟨highSymbol, behind⟩, last, read⟩ := bind_eq_ok.mp read
    have further := (readSymbol_suffix last).1.trans (rangeEnd?_suffix found)
    have bound := further.length_le
    simp only at read
    split at read <;> cases read <;> exact ⟨further.trans contained, by omega⟩
  · cases read
    exact ⟨contained, shorter⟩

/-- A character that does not fit is reported at the start of its item. -/
def readBracketItems (opening : List Char) (bracket : Bracket) (input : List Char) :
    Except Fault (Bracket × List Char) :=
  match input with
  | ']' :: rest => .ok (bracket, rest)
  | input =>
      match _read : readBracketItem opening input with
      | .error fault => .error fault
      | .ok (item, rest) =>
          match bracket.add item with
          | .error cause => .error ⟨cause, input⟩
          | .ok larger => readBracketItems opening larger rest
termination_by input.length
decreasing_by exact (readBracketItem_suffix _read).2

theorem readBracketItems_suffix {opening input rest : List Char} {bracket result : Bracket}
    (read : readBracketItems opening bracket input = .ok (result, rest)) :
    rest <:+ input ∧ rest.length < input.length := by
  fun_induction readBracketItems opening bracket input with
  | case1 bracket rest =>
    cases read
    exact ⟨⟨[_], rfl⟩, by simp⟩
  | case2 => cases read
  | case3 => cases read
  | case4 bracket input _ item after first larger added ih =>
    have ⟨contained, shorter⟩ := readBracketItem_suffix first
    have ⟨further, _⟩ := ih read
    have bound := further.length_le
    exact ⟨further.trans contained, by omega⟩

def readBracket (opening input : List Char) : Except Fault (Predicate × List Char) :=
  match input with
  | '^' :: rest => do
      let (bracket, rest) ← readBracketItems opening .empty rest
      return (.complement bracket.predicate, rest)
  | input => do
      let (bracket, rest) ← readBracketItems opening .empty input
      return (bracket.predicate, rest)

theorem readBracket_suffix {opening input rest : List Char} {test : Predicate}
    (read : readBracket opening input = .ok (test, rest)) :
    rest <:+ input ∧ rest.length < input.length := by
  unfold readBracket at read
  split at read
  · obtain ⟨⟨bracket, behind⟩, items, read⟩ := bind_eq_ok.mp read
    have ⟨contained, shorter⟩ := readBracketItems_suffix items
    cases read
    exact ⟨contained.trans (List.suffix_cons _ _), by simp only [List.length_cons]; omega⟩
  · obtain ⟨⟨bracket, behind⟩, items, read⟩ := bind_eq_ok.mp read
    cases read
    exact readBracketItems_suffix items

end PatternSearch
