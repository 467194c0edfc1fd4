import Mathlib
import PatternSearch.Expr.Printer
import PatternSearch.Proofs.Grammar.Composition

/-! What bracket expressions accept. A derived one accepts what its members accept, so neither the
order of the members nor their number matters. Members that are written with a backslash in front
of every delimiter can stand behind each other in any order: none starts with a dash, so none is
taken for the end of a range, and none starts with a caret. -/

namespace PatternSearch

theorem CharClass.lt_of_accepts {kind : CharClass} {c : Char} (accepted : kind.accepts c = true) :
    c.toNat < 256 := by
  have below (high : Char) (fits : high.toNat < 256) (bounded : c ≤ high) : c.toNat < 256 :=
    Nat.lt_of_le_of_lt bounded fits
  have digit (isDigit : c.isDigit = true) : c.toNat < 256 := by
    simp only [Char.isDigit, Bool.and_eq_true, decide_eq_true_eq] at isDigit
    exact below '9' (by decide) isDigit.2
  cases kind with
  | digit => exact digit accepted
  | word =>
    simp only [accepts, Char.isAlphanum, Char.isAlpha, Char.isUpper, Char.isLower, Bool.or_eq_true,
      Bool.and_eq_true, decide_eq_true_eq, beq_iff_eq] at accepted
    rcases accepted with ((upper | lower) | isDigit) | rfl
    · exact below 'Z' (by decide) upper.2
    · exact below 'z' (by decide) lower.2
    · exact digit isDigit
    · decide

namespace Grammar

/-- Whether the member stands for the character: it lists it or has a class with it. -/
def Member.Accepts (member : Member) (c : Char) : Prop :=
  member.lists c = true ∨ ∃ kind, member.kind? = some kind ∧ kind.accepts c = true

namespace BracketExpr

variable (listing : BracketExpr) {c : Char}

/-- The set holds what the members list and the classes are kept beside it. -/
theorem accepts_union_iff :
    listing.union.accepts c = true ↔ ∃ member ∈ listing.members, member.Accepts c := by
  rw [union_eq, Predicate.accepts_unionOf, List.any_cons, Bool.or_eq_true, List.any_map,
    List.any_eq_true, Predicate.accepts, contains_setOf, Bool.and_eq_true, decide_eq_true_eq,
    List.any_eq_true]
  constructor
  · rintro (⟨_, member, present, lists⟩ | ⟨kind, present, accepted⟩)
    · exact ⟨member, present, .inl lists⟩
    · obtain ⟨member, listed, own⟩ := List.mem_filterMap.mp present
      exact ⟨member, listed, .inr ⟨kind, own, accepted⟩⟩
  · rintro ⟨member, present, lists | ⟨kind, own, accepted⟩⟩
    · exact .inl ⟨member.fits_of_lists lists, member, present, lists⟩
    · exact .inr ⟨kind, List.mem_filterMap.mpr ⟨member, present, own⟩, accepted⟩

theorem parse_write {source : String} (written : source.toList = listing.write) :
    parse source = .ok ⟨.predicate listing.predicate, 0⟩ := by
  apply parse_of_body (.single (.cons (.leaf (.bracket listing) none) .nil))
  · rw [written, Body.write, Branch.write, Branch.write, Item.write, Leaf.write, writeSuffix,
      List.append_nil, List.append_nil]
  · exact List.forall_mem_nil _

end BracketExpr

def BracketChar.listed (c : Char) : BracketChar :=
  if delimiter : c ∈ ['\\', ']', '^', '-', '['] then
    .escaped c (by
      simp only [List.mem_cons, List.not_mem_nil, or_false] at delimiter
      rcases delimiter with rfl | rfl | rfl | rfl | rfl <;> decide)
  else
    .plain c (by
      simp only [List.mem_cons, List.not_mem_nil, or_false, not_or] at delimiter
      exact ⟨delimiter.2.1, delimiter.1⟩)

namespace BracketChar

theorem write_listed (c : Char) : (listed c).write = printListed c := by
  unfold listed printListed
  split <;> rfl

theorem char_listed (c : Char) : (listed c).char = c := by
  unfold listed
  split <;> rfl

end BracketChar

inductive Entry where
  | char (c : Char) (fits : c.toNat < 256)
  | range (low high : Char) (ordered : low ≤ high) (fits : high.toNat < 256)
  | charClass (kind : CharClass)

namespace Entry

def write : Entry → List Char
  | char c _ => printListed c
  | range low high _ _ => printListed low ++ '-' :: printListed high
  | charClass kind => kind.print

def Holds : Entry → Char → Prop
  | char value _, c => c = value
  | range low high _ _, c => low ≤ c ∧ c ≤ high
  | charClass kind, c => kind.accepts c = true

def member : Entry → Member
  | char c fits => .char (.listed c) (by rwa [BracketChar.char_listed])
  | range low high ordered fits =>
      .range (.listed low) (.listed high)
        (by rwa [BracketChar.char_listed, BracketChar.char_listed])
        (by rwa [BracketChar.char_listed])
  | charClass kind => .charClass kind

def writeAll (entries : List Entry) : String := .ofList (entries.flatMap write)

variable {entry : Entry} {entries : List Entry} {c : Char}

theorem write_member : entry.member.write = entry.write := by
  cases entry with
  | char c fits => exact BracketChar.write_listed c
  | range low high ordered fits =>
    rw [member, Member.write, BracketChar.write_listed, BracketChar.write_listed, write]
  | charClass kind => rfl

theorem accepts_member_iff : entry.member.Accepts c ↔ entry.Holds c := by
  cases entry with
  | char value fits =>
    simp [member, Member.Accepts, Member.lists, Member.kind?, BracketChar.char_listed, Holds]
  | range low high ordered fits =>
    simp [member, Member.Accepts, Member.lists, Member.kind?, BracketChar.char_listed, Holds]
  | charClass kind => simp [member, Member.Accepts, Member.lists, Member.kind?, Holds]

theorem lt_of_holds (holds : entry.Holds c) : c.toNat < 256 := by
  cases entry with
  | char value fits =>
    cases holds
    exact fits
  | range low high ordered fits => exact Nat.lt_of_le_of_lt holds.2 fits
  | charClass kind => exact kind.lt_of_accepts holds

theorem unmarked_write (entry : Entry) (rest : List Char) : Unmarked (entry.write ++ rest) := by
  cases entry with
  | char c fits => exact (unmarked_printListed_append c rest).1
  | range low high ordered fits =>
    rw [write, List.append_assoc]
    exact (unmarked_printListed_append low _).1
  | charClass kind => cases kind <;> exact ⟨nofun, nofun⟩

theorem writeMembers_map : writeMembers (entries.map member) = entries.flatMap write := by
  rw [writeMembers, List.flatMap_map]
  exact List.flatMap_congr fun entry _ => entry.write_member

theorem unmarked_flatMap (entries : List Entry) : Unmarked (entries.flatMap write ++ [']']) := by
  cases entries with
  | nil => exact ⟨by decide, by decide⟩
  | cons entry entries =>
    rw [List.flatMap_cons, List.append_assoc]
    exact entry.unmarked_write _

theorem apart_map : (entries : List Entry) → Apart (entries.map member)
  | [] => trivial
  | entry :: entries => by
    refine ⟨?_, apart_map entries⟩
    rw [writeMembers_map]
    cases entry with
    | char c fits => exact rangeEnd?_eq_none.mp (unmarked_flatMap entries).rangeEnd?
    | _ => trivial

def listing (negated : Bool) (entries : List Entry) : BracketExpr where
  negated := negated
  members := entries.map member
  apart := apart_map entries
  bare _ := by
    rw [writeMembers_map]
    intro marked
    obtain ⟨tail, written⟩ := List.head?_eq_some_iff.mp marked
    have unmarked := unmarked_flatMap entries
    rw [written] at unmarked
    exact unmarked.2 rfl

def union (entries : List Entry) : Predicate := (listing false entries).union

theorem accepts_union_iff :
    (union entries).accepts c = true ↔ ∃ entry ∈ entries, entry.Holds c := by
  rw [union, BracketExpr.accepts_union_iff, listing]
  simp only [List.mem_map, exists_exists_and_eq_and, accepts_member_iff]

theorem parse_writeAll (entries : List Entry) :
    parse ("[" ++ writeAll entries ++ "]") = .ok ⟨.predicate (union entries), 0⟩ ∧
      parse ("[^" ++ writeAll entries ++ "]") =
        .ok ⟨.predicate (.complement (union entries)), 0⟩ := by
  constructor
  · apply (listing false entries).parse_write
    simp [BracketExpr.write, listing, writeAll, writeMembers_map]
  · apply (listing true entries).parse_write
    simp [BracketExpr.write, listing, writeAll, writeMembers_map]

end Entry

end Grammar

open Grammar

/-- The entries between brackets are a pattern for the characters that one of them holds, and behind
a caret for the other characters, in whatever order the entries come and however often. -/
theorem parse_entries (entries : List Entry) :
    ∃ test : Predicate,
      parse ("[" ++ Entry.writeAll entries ++ "]") = .ok ⟨.predicate test, 0⟩ ∧
      parse ("[^" ++ Entry.writeAll entries ++ "]") = .ok ⟨.predicate (.complement test), 0⟩ ∧
      (∀ c, test.accepts c = true ↔ ∃ entry ∈ entries, entry.Holds c) ∧
      (∀ c, test.complement.accepts c = true ↔ ¬∃ entry ∈ entries, entry.Holds c) ∧
      (∀ c, 256 ≤ c.toNat → test.accepts c = false ∧ test.complement.accepts c = true) ∧
      ∀ others : List Entry, (∀ entry, entry ∈ others ↔ entry ∈ entries) →
        ∃ other : Predicate,
          parse ("[" ++ Entry.writeAll others ++ "]") = .ok ⟨.predicate other, 0⟩ ∧
          parse ("[^" ++ Entry.writeAll others ++ "]") =
            .ok ⟨.predicate (.complement other), 0⟩ ∧
          ∀ c, other.accepts c = test.accepts c := by
  obtain ⟨plain, negated⟩ := Entry.parse_writeAll entries
  have complements (c : Char) :
      (Entry.union entries).complement.accepts c = true ↔ ¬∃ entry ∈ entries, entry.Holds c := by
    rw [Predicate.accepts, Bool.not_eq_true', ← Entry.accepts_union_iff, Bool.not_eq_true]
  refine ⟨Entry.union entries, plain, negated, fun c => Entry.accepts_union_iff, complements,
    ?_, ?_⟩
  · intro c wide
    have outside : ¬∃ entry ∈ entries, entry.Holds c := by
      rintro ⟨entry, _, holds⟩
      exact Nat.not_le.mpr (Entry.lt_of_holds holds) wide
    exact ⟨Bool.eq_false_iff.mpr (mt Entry.accepts_union_iff.mp outside),
      (complements c).mpr outside⟩
  · intro others same
    obtain ⟨alike, complement⟩ := Entry.parse_writeAll others
    refine ⟨Entry.union others, alike, complement, ?_⟩
    intro c
    rw [Bool.eq_iff_iff, Entry.accepts_union_iff, Entry.accepts_union_iff]
    simp only [same]

end PatternSearch
