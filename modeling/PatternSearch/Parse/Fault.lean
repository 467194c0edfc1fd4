/-! What can be wrong with a pattern, and where. A reader points at a fault by the rest of
the pattern from the faulty construct on; `Fault.within` turns that into a position counted
in characters from the start. -/

namespace PatternSearch

inductive Cause where
  | unknownEscape (c : Char)
  | trailingEscape
  | unterminatedGroup
  | unmatchedParen
  | unterminatedBracket
  | invalidRange (low high : Char)
  | unsupportedCharacter (c : Char)
  | danglingQuantifier (c : Char)
  | invalidRepetition (reason : String)
  | undefinedBackreference (group : Nat)
deriving DecidableEq

def Cause.message : Cause → String
  | unknownEscape c => "unknown escape identifier '\\" ++ c.toString ++ "'"
  | trailingEscape => "trailing backslash"
  | unterminatedGroup => "unterminated group"
  | unmatchedParen => "unmatched ')'"
  | unterminatedBracket => "unterminated bracket expression"
  | invalidRange low high =>
      "invalid range '" ++ low.toString ++ "-" ++ high.toString ++ "'"
  | unsupportedCharacter c =>
      "character '" ++ c.toString ++ "' is outside the bracket table"
  | danglingQuantifier c =>
      "quantifier '" ++ c.toString ++ "' does not follow a repeatable atom"
  | invalidRepetition reason => "invalid repetition: " ++ reason
  | undefinedBackreference group =>
      "backreference \\" ++ toString group ++ " refers to an undefined group"

structure ParseError where
  cause : Cause
  position : Nat
deriving DecidableEq

def ParseError.message (error : ParseError) : String :=
  error.cause.message ++ " at position " ++ toString error.position

/-- A cause and the rest of the pattern that starts with the faulty construct. -/
structure Fault where
  cause : Cause
  site : List Char
deriving DecidableEq

def Fault.within (fault : Fault) (pattern : List Char) : ParseError :=
  ⟨fault.cause, pattern.length - fault.site.length⟩

theorem bind_eq_ok {ε α β : Type} {first : Except ε α} {next : α → Except ε β} {result : β} :
    (first >>= next) = .ok result ↔
      ∃ middle, first = .ok middle ∧ next middle = .ok result := by
  cases first with
  | error fault => exact ⟨nofun, fun ⟨_, same, _⟩ => nomatch same⟩
  | ok middle => exact ⟨fun same => ⟨middle, rfl, same⟩, fun ⟨_, rfl, same⟩ => same⟩

theorem bind_eq_error {ε α β : Type} {first : Except ε α} {next : α → Except ε β} {fault : ε} :
    (first >>= next) = .error fault ↔
      first = .error fault ∨ ∃ middle, first = .ok middle ∧ next middle = .error fault := by
  cases first with
  | error other =>
    constructor
    · rintro ⟨⟩
      exact .inl rfl
    · rintro (⟨⟨⟩⟩ | ⟨_, same, _⟩)
      · rfl
      · cases same
  | ok middle =>
    constructor
    · exact fun failed => .inr ⟨middle, rfl, failed⟩
    · rintro (same | ⟨_, ⟨⟩, failed⟩)
      · cases same
      · exact failed

theorem ok_unique {ε α β : Type} {read : Except ε (α × β)} {first second : α} {rest other : β}
    (one : read = .ok (first, rest)) (two : read = .ok (second, other)) :
    first = second ∧ rest = other := by
  rw [one] at two
  cases two
  exact ⟨rfl, rfl⟩

theorem Fault.within_append (cause : Cause) (before site : List Char) :
    (Fault.mk cause site).within (before ++ site) = ⟨cause, before.length⟩ := by
  simp [within]

end PatternSearch
