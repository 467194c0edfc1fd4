import PatternSearch.CharSet

/-! Tests on a single character: one character, any character, a class such as the digits,
a set below U+0100, a union of tests, and the complement of a test. Equality of tests is
equality of their form; `accepts` is what they mean. -/

namespace PatternSearch

inductive CharClass where
  | digit
  | word
deriving DecidableEq

namespace CharClass

def letter : CharClass → Char
  | digit => 'd'
  | word => 'w'

def ofLetter? : Char → Option CharClass
  | 'd' => some digit
  | 'w' => some word
  | _ => none

/-- Classes hold ASCII characters only; the underscore is a word character. -/
def accepts : CharClass → Char → Bool
  | digit, c => c.isDigit
  | word, c => c.isAlphanum || c == '_'

theorem ofLetter?_letter (kind : CharClass) : ofLetter? kind.letter = some kind := by
  cases kind <;> rfl

theorem letter_of_ofLetter? {c : Char} {kind : CharClass} (found : ofLetter? c = some kind) :
    kind.letter = c := by
  unfold ofLetter? at found
  split at found <;> cases found <;> rfl

end CharClass

inductive Predicate where
  | char (c : Char)
  | any
  | charClass (kind : CharClass)
  | set (members : CharSet)
  | union (parts : List Predicate)
  | complement (inner : Predicate)

namespace Predicate

mutual

def accepts : Predicate → Char → Bool
  | char value, c => value == c
  | any, _ => true
  | charClass kind, c => kind.accepts c
  | set members, c => members.contains c
  | union parts, c => someAccepts parts c
  | complement inner, c => !inner.accepts c

def someAccepts : List Predicate → Char → Bool
  | [], _ => false
  | part :: parts, c => part.accepts c || someAccepts parts c

end

theorem someAccepts_eq_any (parts : List Predicate) (c : Char) :
    someAccepts parts c = parts.any (·.accepts c) := by
  induction parts with
  | nil => rfl
  | cons part parts ih => simp only [someAccepts, List.any_cons, ih]

def unionOf : List Predicate → Predicate
  | [part] => part
  | parts => union parts

theorem accepts_unionOf (parts : List Predicate) (c : Char) :
    (unionOf parts).accepts c = parts.any (·.accepts c) := by
  unfold unionOf
  split
  · simp
  · rw [accepts, someAccepts_eq_any]

mutual

def same : Predicate → Predicate → Bool
  | char c, char d => c == d
  | any, any => true
  | charClass kind, charClass other => kind == other
  | set members, set others => members == others
  | union parts, union others => allSame parts others
  | complement inner, complement other => inner.same other
  | _, _ => false

def allSame : List Predicate → List Predicate → Bool
  | [], [] => true
  | part :: parts, other :: others => part.same other && allSame parts others
  | _, _ => false

end

mutual

theorem same_iff : (first second : Predicate) → (first.same second = true ↔ first = second)
  | char _, second => by cases second <;> simp [same]
  | any, second => by cases second <;> simp [same]
  | charClass _, second => by cases second <;> simp [same]
  | set _, second => by cases second <;> simp [same]
  | union parts, second => by cases second <;> simp [same, allSame_iff parts]
  | complement inner, second => by cases second <;> simp [same, same_iff inner]

theorem allSame_iff : (first second : List Predicate) →
    (allSame first second = true ↔ first = second)
  | [], second => by cases second <;> simp [allSame]
  | part :: parts, second => by
      cases second <;> simp [allSame, same_iff part, allSame_iff parts]

end

instance : DecidableEq Predicate := fun first second =>
  decidable_of_iff _ (same_iff first second)

end Predicate

end PatternSearch
