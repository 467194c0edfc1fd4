import Mathlib.Data.List.Basic
import PatternSearch.Expr.Printer
import PatternSearch.Parse.Bracket
import PatternSearch.Proofs.Expr.Canonical

/-! Written bracket expressions read back. Members that carry a backslash where they need one
stand for themselves, no written member starts with a dash, and so a dash joins exactly the two
ends of a written run. What a reading of a written set adds is therefore the set. -/

namespace PatternSearch

def Unmarked (input : List Char) : Prop := input.head? ≠ some '-' ∧ input.head? ≠ some '^'

theorem Unmarked.rangeEnd? {input : List Char} (unmarked : Unmarked input) :
    rangeEnd? input = none := by
  unfold PatternSearch.rangeEnd?
  split
  · exact absurd rfl unmarked.1
  · rfl

theorem printListed_cases (c : Char) :
    printListed c = ['\\', c] ∧ isPunctuation c ∧ CharClass.ofLetter? c = none ∨
      printListed c = [c] ∧ c ∉ ['\\', ']', '^', '-', '['] := by
  unfold printListed
  split
  · next delimiter =>
    simp only [List.mem_cons, List.not_mem_nil, or_false] at delimiter
    rcases delimiter with rfl | rfl | rfl | rfl | rfl <;> exact .inl ⟨rfl, rfl, rfl⟩
  · next plain => exact .inr ⟨rfl, plain⟩

theorem readSymbol_printListed (opening : List Char) (c : Char) (rest : List Char) :
    readSymbol opening (printListed c ++ rest) = .ok (.char c, rest) := by
  rcases printListed_cases c with ⟨written, punctuation, letter⟩ | ⟨written, plain⟩
  · rw [written]
    simp [readSymbol, Symbol.ofEscaped?, punctuation, letter]
  · rw [written]
    have bare : c ≠ '\\' := by
      rintro rfl
      exact plain (List.mem_cons_self ..)
    change readSymbol opening (c :: rest) = _
    unfold readSymbol
    split
    · next same => cases same
    · next same =>
      cases same
      exact absurd rfl bare
    · next same =>
      cases same
      exact absurd rfl bare
    · next same =>
      cases same
      rfl

theorem readSymbol_print (opening : List Char) (kind : CharClass) (rest : List Char) :
    readSymbol opening (kind.print ++ rest) = .ok (.charClass kind, rest) := by
  simp [CharClass.print, readSymbol, Symbol.ofEscaped?, CharClass.ofLetter?_letter]

theorem unmarked_printListed_append (c : Char) (rest : List Char) :
    Unmarked (printListed c ++ rest) ∧ (printListed c ++ rest).head? ≠ some ']' := by
  rcases printListed_cases c with ⟨written, _⟩ | ⟨written, plain⟩
  · simp [Unmarked, written]
  · simp only [List.mem_cons, List.not_mem_nil, or_false, not_or] at plain
    simp [Unmarked, written, plain]

section Items

variable {opening rest : List Char} {bracket : Bracket}

theorem readBracketItem_char {c : Char} (unmarked : Unmarked rest) :
    readBracketItem opening (printListed c ++ rest) = .ok (.single (.char c), rest) := by
  unfold readBracketItem
  rw [readSymbol_printListed]
  simp only [bind, Except.bind, unmarked.rangeEnd?]
  rfl

theorem readBracketItem_class {kind : CharClass} :
    readBracketItem opening (kind.print ++ rest) = .ok (.single (.charClass kind), rest) := by
  unfold readBracketItem
  rw [readSymbol_print]
  rfl

theorem readBracketItem_range {low high : Char} :
    readBracketItem opening (printListed low ++ '-' :: (printListed high ++ rest)) =
      .ok (.range low high, rest) := by
  have joined :
      rangeEnd? ('-' :: (printListed high ++ rest)) = some (printListed high ++ rest) := by
    rcases printListed_cases high with ⟨written, _⟩ | ⟨written, plain⟩
    · rw [written]
      rfl
    · have inside : high ≠ ']' := by
        rintro rfl
        exact plain (by decide)
      rw [written]
      exact if_neg inside
  unfold readBracketItem
  rw [readSymbol_printListed]
  simp only [bind, Except.bind, joined, readSymbol_printListed]
  rfl

theorem readBracketItems_step {input : List Char} {item : BracketItem} {larger : Bracket}
    (continues : input.head? ≠ some ']') (read : readBracketItem opening input = .ok (item, rest))
    (added : bracket.add item = .ok larger) :
    readBracketItems opening bracket input = readBracketItems opening larger rest := by
  rw [readBracketItems]
  · split
    · next failed =>
      rw [read] at failed
      cases failed
    · next found =>
      rw [read] at found
      cases found
      rw [added]
  · rintro behind rfl
    exact continues rfl

end Items

/-- Reading what is written adds to the members exactly the characters named, whatever stands
before and behind it. -/
structure Lists (written : List Char) (named : Char → Prop) : Prop where
  unmarked : ∀ rest, Unmarked rest → Unmarked (written ++ rest)
  reads : ∀ opening (bracket : Bracket), ∃ members : CharSet,
    (∀ c, members.contains c ↔ bracket.members.contains c ∨ named c) ∧
      ∀ rest, Unmarked rest →
        readBracketItems opening bracket (written ++ rest) =
          readBracketItems opening { bracket with members } rest

namespace Lists

variable {written second : List Char} {named other : Char → Prop} {low high c : Char}

theorem congr (lists : Lists written named) (same : ∀ c, named c ↔ other c) :
    Lists written other := by
  refine ⟨lists.unmarked, ?_⟩
  intro opening bracket
  obtain ⟨members, contains, reads⟩ := lists.reads opening bracket
  refine ⟨members, ?_, reads⟩
  intro c
  rw [contains, same]

theorem nil : Lists [] fun _ => False :=
  ⟨fun _ unmarked => unmarked, fun _ bracket => ⟨bracket.members, by simp, fun _ _ => rfl⟩⟩

theorem append (first : Lists written named) (rest : Lists second other) :
    Lists (written ++ second) fun c => named c ∨ other c := by
  constructor
  · intro behind unmarked
    rw [List.append_assoc]
    exact first.unmarked _ (rest.unmarked _ unmarked)
  · intro opening bracket
    obtain ⟨middle, contains, reads⟩ := first.reads opening bracket
    obtain ⟨members, further, readsOn⟩ := rest.reads opening { bracket with members := middle }
    refine ⟨members, ?_, ?_⟩
    · intro c
      rw [further, contains, or_assoc]
    · intro behind unmarked
      rw [List.append_assoc, reads _ (rest.unmarked _ unmarked)]
      exact readsOn behind unmarked

theorem flatMap {α : Type} {write : α → List Char} {named : α → Char → Prop} {items : List α}
    (each : ∀ item ∈ items, Lists (write item) (named item)) :
    Lists (items.flatMap write) fun c => ∃ item ∈ items, named item c := by
  induction items with
  | nil => exact nil.congr (by simp)
  | cons item items ih =>
    have head := each item (List.mem_cons_self ..)
    have tail := ih fun other member => each other (List.mem_cons_of_mem _ member)
    rw [List.flatMap_cons]
    exact (head.append tail).congr (by simp)

theorem char (fits : c.toNat < 256) : Lists (printListed c) (· = c) := by
  constructor
  · intro rest _
    exact (unmarked_printListed_append c rest).1
  · intro opening bracket
    have inserts : (bracket.members.insert? c).isSome := CharSet.insert?_isSome_iff.mpr fits
    obtain ⟨members, inserted⟩ := Option.isSome_iff_exists.mp inserts
    refine ⟨members, ?_, ?_⟩
    · intro d
      simp [CharSet.contains_insert? inserted]
    · intro rest unmarked
      apply readBracketItems_step (unmarked_printListed_append c rest).2
        (readBracketItem_char unmarked)
      simp only [Bracket.add, Bracket.addChar, inserted]

theorem range (ordered : low ≤ high) (fits : high.toNat < 256) :
    Lists (printListed low ++ '-' :: printListed high) fun c => low ≤ c ∧ c ≤ high := by
  constructor
  · intro rest _
    rw [List.append_assoc]
    exact (unmarked_printListed_append low _).1
  · intro opening bracket
    have inserts : (bracket.members.insertRange? low high).isSome :=
      CharSet.insertRange?_isSome_iff.mpr ⟨ordered, fits⟩
    obtain ⟨members, inserted⟩ := Option.isSome_iff_exists.mp inserts
    refine ⟨members, ?_, ?_⟩
    · intro d
      simp [CharSet.contains_insertRange? inserted]
    · intro rest unmarked
      rw [List.append_assoc]
      apply readBracketItems_step (unmarked_printListed_append low _).2 readBracketItem_range
      simp only [Bracket.add, inserted]
      rw [if_neg (Char.not_lt.mpr ordered)]

theorem run (ordered : low ≤ high) (fits : high.toNat < 256) :
    Lists (CharSet.printRun low high) fun c => low ≤ c ∧ c ≤ high := by
  unfold CharSet.printRun
  split
  · exact range ordered fits
  · have bound : low.toNat ≤ high.toNat := ordered
    have each : ∀ code ∈ List.range' low.toNat (high.toNat + 1 - low.toNat),
        Lists (printListed (Char.ofNat code)) (· = Char.ofNat code) := by
      intro code member
      rw [List.mem_range'_1] at member
      have small : code < 256 := by omega
      exact char (by rw [CharSet.toNat_ofNat small]; exact small)
    refine (flatMap each).congr ?_
    intro c
    change _ ↔ low.toNat ≤ c.toNat ∧ c.toNat ≤ high.toNat
    constructor
    · rintro ⟨code, member, rfl⟩
      rw [List.mem_range'_1] at member
      rw [CharSet.toNat_ofNat (by omega)]
      omega
    · rintro ⟨above, below⟩
      refine ⟨c.toNat, ?_, (Char.ofNat_toNat c).symm⟩
      rw [List.mem_range'_1]
      omega

end Lists

theorem CharSet.runsOf_ordered (chars : List Char) :
    ∀ run ∈ runsOf chars, run.1.toNat ≤ run.2.toNat ∧ run.2 ∈ chars := by
  induction chars with
  | nil => nofun
  | cons c chars ih =>
    rw [runsOf]
    split
    · simp
    · next low high runs found =>
      rw [found, List.forall_mem_cons] at ih
      obtain ⟨⟨ordered, last⟩, others⟩ := ih
      have rest : ∀ run ∈ runs, run.1.toNat ≤ run.2.toNat ∧ run.2 ∈ c :: chars := by
        intro run member
        exact ⟨(others run member).1, List.mem_cons_of_mem c (others run member).2⟩
      split
      · next joins =>
        rw [List.forall_mem_cons]
        exact ⟨⟨by dsimp only at *; omega, List.mem_cons_of_mem c last⟩, rest⟩
      · rw [List.forall_mem_cons, List.forall_mem_cons]
        exact ⟨⟨Nat.le_refl _, List.mem_cons_self ..⟩,
          ⟨ordered, List.mem_cons_of_mem c last⟩, rest⟩

theorem CharSet.mem_runsOf (chars : List Char) (d : Char) :
    (∃ run ∈ runsOf chars, run.1.toNat ≤ d.toNat ∧ d.toNat ≤ run.2.toNat) ↔ d ∈ chars := by
  induction chars with
  | nil => simp [runsOf]
  | cons c chars ih =>
    have here : c.toNat ≤ d.toNat ∧ d.toNat ≤ c.toNat ↔ d = c := by
      rw [← Char.toNat_inj]
      omega
    rw [List.mem_cons, ← ih, runsOf]
    split
    · next unfound =>
      rw [unfound]
      simp [here]
    · next low high runs found =>
      have ordered : low.toNat ≤ high.toNat :=
        (runsOf_ordered chars (low, high) (by simp [found])).1
      rw [found]
      split
      · next joins =>
        simp only [List.exists_mem_cons_iff, ← or_assoc]
        refine or_congr ?_ Iff.rfl
        rw [← here]
        omega
      · simp only [List.exists_mem_cons_iff, here]

theorem Lists.set (members : CharSet) : Lists members.print (members.contains · = true) := by
  have each : ∀ run ∈ members.runs, Lists (CharSet.printRun run.1 run.2)
      fun c => run.1 ≤ c ∧ c ≤ run.2 := by
    intro run member
    obtain ⟨ordered, last⟩ := CharSet.runsOf_ordered _ run member
    exact .run ordered (CharSet.lt_of_contains (CharSet.mem_toList.mp last))
  refine (Lists.flatMap each).congr ?_
  intro c
  rw [← CharSet.mem_toList]
  exact CharSet.mem_runsOf members.toList c

section Brackets

variable {opening rest : List Char}

theorem readBracketItems_classes (bracket : Bracket) (kinds : List CharClass) :
    readBracketItems opening bracket (kinds.flatMap CharClass.print ++ rest) =
      readBracketItems opening { bracket with classes := bracket.classes ++ kinds } rest := by
  induction kinds generalizing bracket with
  | nil =>
    rw [List.append_nil]
    rfl
  | cons kind kinds ih =>
    rw [List.flatMap_cons, List.append_assoc,
      readBracketItems_step (by simp [CharClass.print]) readBracketItem_class rfl, ih]
    simp [Bracket.addClass]

theorem unmarked_classes (kinds : List CharClass) :
    Unmarked (kinds.flatMap CharClass.print ++ ']' :: rest) := by
  cases kinds with
  | nil => simp [Unmarked]
  | cons kind kinds => simp [Unmarked, CharClass.print]

/-- A written set with classes behind it reads as the set and the classes. -/
theorem readBracketItems_print (members : CharSet) (kinds : List CharClass) :
    readBracketItems opening .empty
      (members.print ++ (kinds.flatMap CharClass.print ++ ']' :: rest)) =
        .ok (⟨members, kinds⟩, rest) := by
  obtain ⟨unmarked, reads⟩ := Lists.set members
  obtain ⟨found, contains, readsOn⟩ := reads opening .empty
  have same : found = members := by
    apply CharSet.ext_contains
    intro c
    rw [Bool.eq_iff_iff, contains]
    simp [Bracket.empty, CharSet.contains_empty]
  rw [readsOn _ (unmarked_classes kinds), readBracketItems_classes, same]
  simp [Bracket.empty, readBracketItems]

theorem Predicate.Listed.written {test : Predicate} (listed : test.Listed) :
    ∃ bracket : Bracket, bracket.predicate = test ∧ ∀ opening rest,
      Unmarked (test.printInside ++ ']' :: rest) ∧
        readBracketItems opening .empty (test.printInside ++ ']' :: rest) =
          .ok (bracket, rest) := by
  cases listed with
  | set members =>
    refine ⟨⟨members, []⟩, rfl, ?_⟩
    intro opening rest
    exact ⟨(Lists.set members).unmarked _ (unmarked_classes []),
      readBracketItems_print members []⟩
  | union members kinds beside =>
    refine ⟨⟨members, kinds⟩, ?_, ?_⟩
    · obtain ⟨kind, others, rfl⟩ := List.exists_cons_of_ne_nil beside
      rfl
    · intro opening rest
      have inside : (Predicate.union (.set members :: kinds.map .charClass)).printInside =
          members.print ++ kinds.flatMap CharClass.print := by
        rw [printInside, printAllInside, printInside, printAllInside_eq_flatMap, List.flatMap_map]
        rfl
      rw [inside, List.append_assoc]
      exact ⟨(Lists.set members).unmarked _ (unmarked_classes kinds),
        readBracketItems_print members kinds⟩

theorem readBracket_print {test : Predicate} (listed : test.Listed) :
    readBracket opening (test.printInside ++ ']' :: rest) = .ok (test, rest) := by
  obtain ⟨bracket, same, reads⟩ := listed.written
  obtain ⟨unmarked, read⟩ := reads opening rest
  unfold readBracket
  split
  · next negates =>
    rw [negates] at unmarked
    exact absurd rfl unmarked.2
  · rw [read, ← same]
    rfl

theorem readBracket_print_complement {test : Predicate} (listed : test.Listed) :
    readBracket opening ('^' :: (test.printInside ++ ']' :: rest)) =
      .ok (.complement test, rest) := by
  obtain ⟨bracket, same, reads⟩ := listed.written
  change (readBracketItems opening .empty (test.printInside ++ ']' :: rest) >>= _) = _
  rw [(reads opening rest).2, ← same]
  rfl

end Brackets

end PatternSearch
