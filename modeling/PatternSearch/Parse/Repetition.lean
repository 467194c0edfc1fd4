import PatternSearch.Expr.Basic
import PatternSearch.Parse.Fault

/-! Quantifiers behind an item: a star, a plus sign, a question mark or bounds in braces,
each with an optional question mark that makes it lazy. -/

namespace PatternSearch

def boundLimit : Nat := 4294967296

inductive BoundsFault where
  | missingNumber
  | tooLarge
  | notClosed (found : Option Char)
  | reversed (low high : Nat)
deriving DecidableEq

def BoundsFault.reason : BoundsFault → String
  | missingNumber => "expected a number"
  | tooLarge => "bound is too large"
  | notClosed (some c) => "expected '\x7d', found '" ++ c.toString ++ "'"
  | notClosed none => "expected '\x7d', found end of pattern"
  | reversed low high =>
      "minimum " ++ toString low ++ " exceeds maximum " ++ toString high

def digitValue (c : Char) : Nat := c.toNat - '0'.toNat

def decimalValue (digits : List Char) : Nat :=
  digits.foldl (fun value digit => 10 * value + digitValue digit) 0

def readNumber (input : List Char) : Except BoundsFault (Nat × List Char) :=
  let digits := input.takeWhile Char.isDigit
  if digits.isEmpty then .error .missingNumber
  else if decimalValue digits < boundLimit then
    .ok (decimalValue digits, input.dropWhile Char.isDigit)
  else .error .tooLarge

/-- The upper bound behind a lower bound: a missing comma repeats the lower bound and a comma
before the closing brace leaves the repetition unbounded. -/
def readUpperBound (low : Nat) : List Char → Except BoundsFault (Option Nat × List Char)
  | ',' :: '}' :: rest => .ok (none, '}' :: rest)
  | ',' :: rest => do
      let (high, rest) ← readNumber rest
      return (some high, rest)
  | rest => .ok (some low, rest)

def readBounds (input : List Char) :
    Except BoundsFault ((Nat × Option Nat) × List Char) := do
  let (low, rest) ← readNumber input
  let (high, rest) ← readUpperBound low rest
  match rest, high with
  | '}' :: rest, none => return ((low, none), rest)
  | '}' :: rest, some high =>
      if low ≤ high then return ((low, some high), rest) else throw (.reversed low high)
  | rest, _ => throw (.notClosed rest.head?)

def startsQuantifier (c : Char) : Bool := c = '*' || c = '+' || c = '?' || c = '{'

def readQuantifierBounds (c : Char) (rest : List Char) :
    Except Fault ((Nat × Option Nat) × List Char) :=
  if c = '*' then .ok ((0, none), rest)
  else if c = '+' then .ok ((1, none), rest)
  else if c = '?' then .ok ((0, some 1), rest)
  else match readBounds rest with
    | .ok found => .ok found
    | .error fault => .error ⟨.invalidRepetition fault.reason, c :: rest⟩

def readLaziness : List Char → Bool × List Char
  | '?' :: rest => (false, rest)
  | rest => (true, rest)

/-- Applies the quantifier that follows an item, if one does. Bounds are read before the item
is found to admit no quantifier, and no second quantifier may follow. -/
def quantify (item : Expr) : List Char → Except Fault (Expr × List Char)
  | [] => .ok (item, [])
  | c :: rest =>
      if startsQuantifier c then do
        let ((low, high), beyond) ← readQuantifierBounds c rest
        if !item.repeatable then throw ⟨.danglingQuantifier c, c :: rest⟩
        let (greedy, beyond) := readLaziness beyond
        match beyond with
        | d :: _ =>
            if startsQuantifier d then throw ⟨.danglingQuantifier d, beyond⟩
            else return (.repetition item ⟨low, high, greedy⟩, beyond)
        | [] => return (.repetition item ⟨low, high, greedy⟩, [])
      else .ok (item, c :: rest)

theorem readNumber_suffix {input rest : List Char} {value : Nat}
    (read : readNumber input = .ok (value, rest)) : rest <:+ input := by
  unfold readNumber at read
  simp only at read
  split at read
  · cases read
  · split at read <;> cases read
    exact List.dropWhile_suffix _

theorem readUpperBound_suffix {low : Nat} {high : Option Nat} {input rest : List Char}
    (read : readUpperBound low input = .ok (high, rest)) : rest <:+ input := by
  unfold readUpperBound at read
  split at read
  · cases read
    exact List.suffix_cons _ _
  · obtain ⟨⟨value, behind⟩, number, read⟩ := bind_eq_ok.mp read
    cases read
    exact (readNumber_suffix number).trans (List.suffix_cons _ _)
  · cases read
    exact List.suffix_rfl

theorem readBounds_suffix {bounds : Nat × Option Nat} {input rest : List Char}
    (read : readBounds input = .ok (bounds, rest)) : rest <:+ input := by
  obtain ⟨⟨low, after⟩, lower, read⟩ := bind_eq_ok.mp read
  obtain ⟨⟨high, behind⟩, upper, read⟩ := bind_eq_ok.mp read
  have contained := (readUpperBound_suffix upper).trans (readNumber_suffix lower)
  simp only at read
  split at read
  · cases read
    exact (List.suffix_cons _ _).trans contained
  · split at read <;> cases read
    exact (List.suffix_cons _ _).trans contained
  · cases read

theorem readQuantifierBounds_suffix {c : Char} {bounds : Nat × Option Nat}
    {rest beyond : List Char}
    (read : readQuantifierBounds c rest = .ok (bounds, beyond)) : beyond <:+ rest := by
  unfold readQuantifierBounds at read
  split at read
  · cases read
    exact List.suffix_rfl
  · split at read
    · cases read
      exact List.suffix_rfl
    · split at read
      · cases read
        exact List.suffix_rfl
      · split at read
        · next found =>
          cases read
          exact readBounds_suffix found
        · cases read

theorem readLaziness_suffix (input : List Char) : (readLaziness input).2 <:+ input := by
  unfold readLaziness
  split
  · exact List.suffix_cons _ _
  · exact List.suffix_rfl

theorem quantify_suffix {item result : Expr} {input rest : List Char}
    (read : quantify item input = .ok (result, rest)) : rest <:+ input := by
  unfold quantify at read
  split at read
  · cases read
    exact List.suffix_rfl
  · next c after =>
    split at read
    · obtain ⟨⟨⟨low, high⟩, beyond⟩, bounds, read⟩ := bind_eq_ok.mp read
      have contained : (readLaziness beyond).2 <:+ c :: after :=
        (readLaziness_suffix beyond).trans
          ((readQuantifierBounds_suffix bounds).trans (List.suffix_cons _ _))
      simp only at read
      split at read
      · cases read
      · split at read
        · split at read <;> cases read
          exact contained
        · next ended =>
          cases read
          exact ended ▸ contained
    · cases read
      exact List.suffix_rfl

end PatternSearch
