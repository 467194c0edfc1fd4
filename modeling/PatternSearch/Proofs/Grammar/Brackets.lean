import PatternSearch.Grammar
import PatternSearch.Proofs.Parse.Brackets

/-! Bracket expressions of the grammar. A derived one reads as what it stands for, every one that
reads is derived, and none is derived in two ways. A reading decides member by member, and whether
a character is the low end of a range is told by the two characters behind it. -/

namespace PatternSearch

namespace Grammar

theorem startsRange_append (text rest : List Char) :
    StartsRange (text ++ ']' :: rest) ↔ StartsRange (text ++ [']']) := by
  unfold StartsRange
  match text with
  | [] => simp
  | [first] => simp
  | first :: second :: text => simp

theorem rangeEnd?_eq_none {text : List Char} : rangeEnd? text = none ↔ ¬StartsRange text := by
  unfold rangeEnd? StartsRange
  split
  · next c rest =>
    simp
  · next other =>
    refine ⟨?_, fun _ => rfl⟩
    rintro _ ⟨c, rest, rfl, _⟩
    exact other c rest rfl

theorem of_rangeEnd? {text beyond : List Char} (found : rangeEnd? text = some beyond) :
    text = '-' :: beyond ∧ beyond.head? ≠ some ']' := by
  unfold rangeEnd? at found
  split at found
  · next c rest =>
    split at found
    · cases found
    · next inside =>
      cases found
      exact ⟨rfl, fun closes => inside (Option.some.inj closes)⟩
  · cases found

theorem mem_asciiPunctuation {c : Char} : c ∈ asciiPunctuation ↔ isPunctuation c = true := by
  have listed : asciiPunctuation.all isPunctuation = true := by decide
  have complete : (List.range 128).all (fun code =>
      !isPunctuation (Char.ofNat code) || asciiPunctuation.contains (Char.ofNat code)) = true := by
    decide
  constructor
  · exact List.all_eq_true.mp listed c
  · intro punctuation
    have ascii : c.toNat < 128 := by
      simp only [isPunctuation, Bool.or_eq_true, Bool.and_eq_true, decide_eq_true_eq] at punctuation
      omega
    have found := List.all_eq_true.mp complete c.toNat (List.mem_range.mpr ascii)
    rw [Char.ofNat_toNat, punctuation] at found
    simpa using found

theorem ofEscaped?_punctuation {c : Char} (punctuation : c ∈ asciiPunctuation) :
    Symbol.ofEscaped? c = some (.char c) := by
  have noLetter : CharClass.ofLetter? c = none := by
    unfold CharClass.ofLetter?
    split
    · exact absurd punctuation (by decide)
    · exact absurd punctuation (by decide)
    · rfl
  simp [Symbol.ofEscaped?, noLetter, mem_asciiPunctuation.mp punctuation]

theorem of_ofEscaped? {c : Char} {symbol : Symbol} (found : Symbol.ofEscaped? c = some symbol) :
    symbol = .char c ∧ c ∈ asciiPunctuation ∨
      ∃ kind : CharClass, symbol = .charClass kind ∧ kind.letter = c := by
  unfold Symbol.ofEscaped? at found
  split at found
  · next kind letter =>
    cases found
    exact .inr ⟨kind, rfl, CharClass.letter_of_ofLetter? letter⟩
  · split at found
    · next punctuation =>
      cases found
      exact .inl ⟨rfl, mem_asciiPunctuation.mpr punctuation⟩
    · cases found

section Members

variable {opening input rest : List Char}

namespace BracketChar

theorem starts (listed : BracketChar) : ∃ c tail, listed.write = c :: tail ∧ c ≠ ']' := by
  cases listed with
  | plain c free => exact ⟨c, [], rfl, free.1⟩
  | escaped c punctuation => exact ⟨'\\', [c], rfl, by decide⟩

theorem reads (listed : BracketChar) (opening rest : List Char) :
    readSymbol opening (listed.write ++ rest) = .ok (.char listed.char, rest) := by
  cases listed with
  | plain c free =>
    change readSymbol opening (c :: rest) = _
    unfold readSymbol
    split
    · next same => cases same
    · next same =>
      cases same
      exact absurd rfl free.2
    · next same =>
      cases same
      exact absurd rfl free.2
    · next same =>
      cases same
      rfl
  | escaped c punctuation =>
    change readSymbol opening ('\\' :: c :: rest) = _
    simp only [readSymbol, ofEscaped?_punctuation punctuation]
    rfl

theorem unique {first second : BracketChar} {behind : List Char}
    (same : first.write ++ rest = second.write ++ behind) : first = second ∧ rest = behind := by
  cases first <;> cases second <;>
    simp only [write, List.cons_append, List.nil_append, List.cons.injEq, true_and] at same
  case plain.plain =>
    obtain ⟨rfl, rfl⟩ := same
    exact ⟨rfl, rfl⟩
  case plain.escaped c free other punctuation => exact absurd same.1 free.2
  case escaped.plain other punctuation c free => exact absurd same.1.symm free.2
  case escaped.escaped =>
    obtain ⟨rfl, rfl⟩ := same
    exact ⟨rfl, rfl⟩

end BracketChar

theorem readSymbol_letter (kind : CharClass) (opening rest : List Char) :
    readSymbol opening ('\\' :: kind.letter :: rest) = .ok (.charClass kind, rest) :=
  readSymbol_print opening kind rest

theorem of_readSymbol {symbol : Symbol} (inside : input.head? ≠ some ']')
    (read : readSymbol opening input = .ok (symbol, rest)) :
    (∃ listed : BracketChar, symbol = .char listed.char ∧ input = listed.write ++ rest) ∨
      ∃ kind : CharClass, symbol = .charClass kind ∧ input = '\\' :: kind.letter :: rest := by
  unfold readSymbol at read
  split at read
  · cases read
  · cases read
  · next c behind =>
    split at read
    · next found escaped =>
      cases read
      rcases of_ofEscaped? escaped with ⟨rfl, punctuation⟩ | ⟨kind, rfl, rfl⟩
      · exact .inl ⟨.escaped c punctuation, rfl, rfl⟩
      · exact .inr ⟨kind, rfl, rfl⟩
    · cases read
  · next c behind single pair =>
    cases read
    have free : c ≠ ']' ∧ c ≠ '\\' := by
      constructor
      · rintro rfl
        exact inside rfl
      · rintro rfl
        cases rest with
        | nil => exact single rfl rfl
        | cons d rest => exact pair d rest rfl rfl
    exact .inl ⟨.plain c free, rfl, rfl⟩

namespace Member

def item : Member → BracketItem
  | char listed _ => .single (.char listed.char)
  | charClass kind => .single (.charClass kind)
  | range low high _ _ => .range low.char high.char
  | dashed low kind _ => .dashed low.char kind

theorem starts (member : Member) : ∃ c tail, member.write = c :: tail ∧ c ≠ ']' := by
  cases member with
  | char listed fits => exact listed.starts
  | charClass kind => exact ⟨'\\', _, rfl, by decide⟩
  | range low high ordered fits =>
    obtain ⟨c, tail, written, inside⟩ := low.starts
    exact ⟨c, _, by rw [write, written]; rfl, inside⟩
  | dashed low kind fits =>
    obtain ⟨c, tail, written, inside⟩ := low.starts
    exact ⟨c, _, by rw [write, written]; rfl, inside⟩

theorem rangeEnd?_of_starts {text : List Char} (starts : ∃ c tail, text = c :: tail ∧ c ≠ ']')
    (rest : List Char) : rangeEnd? ('-' :: (text ++ rest)) = some (text ++ rest) := by
  obtain ⟨c, tail, rfl, inside⟩ := starts
  exact if_neg inside

theorem reads (member : Member) (stands : member.StandsBefore rest) (opening : List Char) :
    readBracketItem opening (member.write ++ rest) = .ok (member.item, rest) := by
  unfold readBracketItem
  cases member with
  | char listed fits =>
    rw [write, listed.reads]
    simp only [bind, Except.bind, rangeEnd?_eq_none.mpr stands]
    rfl
  | charClass kind =>
    change (readSymbol opening ('\\' :: kind.letter :: rest) >>= _) = _
    rw [readSymbol_letter]
    rfl
  | range low high ordered fits =>
    rw [write, List.append_assoc, List.cons_append, low.reads]
    simp only [bind, Except.bind, rangeEnd?_of_starts high.starts, high.reads]
    rfl
  | dashed low kind fits =>
    have starts : ∃ c tail, ['\\', kind.letter] = c :: tail ∧ c ≠ ']' :=
      ⟨'\\', [kind.letter], rfl, by decide⟩
    have joined := rangeEnd?_of_starts starts rest
    rw [write, List.append_assoc, low.reads]
    simp only [bind, Except.bind, List.cons_append, List.nil_append] at joined ⊢
    rw [joined]
    simp only [readSymbol_letter]
    rfl

theorem adds_char (bracket : Bracket) {c : Char} (fits : c.toNat < 256) :
    ∃ set : CharSet, (∀ d, set.contains d = (bracket.members.contains d || d == c)) ∧
      bracket.addChar c = .ok ⟨set, bracket.classes⟩ := by
  obtain ⟨set, inserted⟩ := Option.isSome_iff_exists.mp (CharSet.insert?_isSome_iff.mpr fits)
  exact ⟨set, CharSet.contains_insert? inserted, by rw [Bracket.addChar, inserted]⟩

theorem adds (member : Member) (bracket : Bracket) :
    ∃ set : CharSet,
      (∀ c, set.contains c = (bracket.members.contains c || member.lists c)) ∧
        bracket.add member.item = .ok ⟨set, bracket.classes ++ member.kind?.toList⟩ := by
  cases member with
  | char listed fits =>
    obtain ⟨set, contains, added⟩ := adds_char bracket fits
    exact ⟨set, contains, by simpa [item, Bracket.add, kind?] using added⟩
  | charClass kind =>
    exact ⟨bracket.members, fun c => (Bool.or_false _).symm, rfl⟩
  | range low high ordered fits =>
    obtain ⟨set, inserted⟩ := Option.isSome_iff_exists.mp
      ((@CharSet.insertRange?_isSome_iff bracket.members _ _).mpr ⟨ordered, fits⟩)
    refine ⟨set, CharSet.contains_insertRange? inserted, ?_⟩
    simp only [item, Bracket.add, if_neg (Char.not_lt.mpr ordered), inserted, kind?,
      Option.toList_none, List.append_nil]
  | dashed low kind fits =>
    obtain ⟨first, containsLow, addedLow⟩ := adds_char bracket fits
    obtain ⟨set, contains, added⟩ := adds_char ⟨first, bracket.classes⟩
      (show '-'.toNat < 256 by decide)
    refine ⟨set, ?_, ?_⟩
    · intro c
      rw [contains, containsLow, Bool.or_assoc]
      rfl
    · simp only [item, Bracket.add, addedLow, added, bind, Except.bind]
      rfl

theorem fits_of_addChar {bracket larger : Bracket} {c : Char}
    (added : bracket.addChar c = .ok larger) : c.toNat < 256 := by
  unfold Bracket.addChar at added
  split at added
  · next set inserted =>
    exact CharSet.insert?_isSome_iff.mp (Option.isSome_of_eq_some inserted)
  · cases added

theorem fits_of_addRange {bracket larger : Bracket} {low high : Char}
    (added : bracket.add (.range low high) = .ok larger) : low ≤ high ∧ high.toNat < 256 := by
  simp only [Bracket.add] at added
  split at added
  · cases added
  · split at added
    · next set inserted =>
      exact CharSet.insertRange?_isSome_iff.mp (Option.isSome_of_eq_some inserted)
    · cases added

theorem of_readBracketItem {item : BracketItem} {bracket larger : Bracket}
    (continues : input.head? ≠ some ']')
    (read : readBracketItem opening input = .ok (item, rest))
    (added : bracket.add item = .ok larger) :
    ∃ member : Member, input = member.write ++ rest ∧ member.StandsBefore rest := by
  obtain ⟨⟨symbol, behind⟩, first, decided⟩ := bind_eq_ok.mp read
  rcases of_readSymbol continues first with ⟨low, rfl, rfl⟩ | ⟨kind, rfl, rfl⟩
  · cases ranged : rangeEnd? behind with
    | none =>
      simp only [ranged] at decided
      cases decided
      exact ⟨.char low (fits_of_addChar added), rfl, rangeEnd?_eq_none.mp ranged⟩
    | some beyond =>
      simp only [ranged] at decided
      obtain ⟨rfl, inside⟩ := of_rangeEnd? ranged
      obtain ⟨⟨symbol, further⟩, second, ended⟩ := bind_eq_ok.mp decided
      rcases of_readSymbol inside second with ⟨high, rfl, rfl⟩ | ⟨kind, rfl, rfl⟩
      · cases ended
        obtain ⟨ordered, fits⟩ := fits_of_addRange added
        exact ⟨.range low high ordered fits, by simp [write], trivial⟩
      · cases ended
        obtain ⟨withLow, addedLow, _⟩ := bind_eq_ok.mp added
        exact ⟨.dashed low kind (fits_of_addChar addedLow), by simp [write], trivial⟩
  · cases decided
    exact ⟨.charClass kind, rfl, trivial⟩

/-- No text is derived as two members, each standing where it does. The reader tells the kind. -/
theorem unique {first second : Member} {behind : List Char} (stands : first.StandsBefore rest)
    (other : second.StandsBefore behind) (same : first.write ++ rest = second.write ++ behind) :
    first = second ∧ rest = behind := by
  have read := first.reads stands []
  rw [same, second.reads other [], Except.ok.injEq, Prod.mk.injEq] at read
  obtain ⟨items, rfl⟩ := read
  refine ⟨?_, rfl⟩
  cases first <;> cases second <;>
    simp only [item, reduceCtorEq, BracketItem.single.injEq, BracketItem.dashed.injEq,
      Symbol.charClass.injEq] at items
  case char.char =>
    obtain ⟨rfl, _⟩ := BracketChar.unique same
    rfl
  case charClass.charClass => rw [items]
  case range.range =>
    simp only [write, List.append_assoc, List.cons_append] at same
    obtain ⟨rfl, further⟩ := BracketChar.unique same
    obtain ⟨rfl, _⟩ := BracketChar.unique (List.cons.inj further).2
    rfl
  case dashed.dashed =>
    simp only [write, List.append_assoc] at same
    obtain ⟨rfl, _⟩ := BracketChar.unique same
    rw [items.2]

end Member

theorem setOf_bits (test : Char → Bool) (codes : List Nat) (code : Nat) :
    (codes.foldr (fun code bits =>
      if test (Char.ofNat code) then bits ||| BitVec.twoPow 256 code else bits) 0).getLsbD code =
        (decide (code < 256) && decide (code ∈ codes) && test (Char.ofNat code)) := by
  induction codes with
  | nil => simp
  | cons first codes ih =>
    rw [List.foldr_cons]
    by_cases same : code = first
    · subst same
      split
      · next passes =>
        rw [BitVec.getLsbD_or, ih, BitVec.getLsbD_twoPow]
        simp +contextual [passes]
      · next fails =>
        rw [ih]
        simp [fails]
    · have apart : first ≠ code := fun equal => same equal.symm
      split
      · rw [BitVec.getLsbD_or, ih, BitVec.getLsbD_twoPow]
        simp [same, apart]
      · rw [ih]
        simp [same]

theorem contains_setOf (test : Char → Bool) (c : Char) :
    (setOf test).contains c = (decide (c.toNat < 256) && test c) := by
  rw [CharSet.contains, setOf, setOf_bits, Char.ofNat_toNat]
  by_cases fits : c.toNat < 256
  · simp [fits]
  · simp [fits]

end Members

section Listings

variable {opening input rest : List Char} {members : List Member} {bracket : Bracket}

theorem Member.fits_of_lists {member : Member} {c : Char} (listed : member.lists c = true) :
    c.toNat < 256 := by
  cases member with
  | char low fits =>
    rw [eq_of_beq listed]
    exact fits
  | charClass kind => cases listed
  | range low high ordered fits =>
    simp only [lists, Bool.and_eq_true, decide_eq_true_eq] at listed
    exact Nat.lt_of_le_of_lt listed.2 fits
  | dashed low kind fits =>
    simp only [lists, Bool.or_eq_true, beq_iff_eq] at listed
    rcases listed with rfl | rfl
    · exact fits
    · decide

theorem Member.standsBefore_append (member : Member) (text rest : List Char) :
    member.StandsBefore (text ++ ']' :: rest) ↔ member.StandsBefore (text ++ [']']) := by
  cases member with
  | char low fits => exact not_congr (startsRange_append text rest)
  | _ => exact Iff.rfl

theorem writeMembers_cons (member : Member) (members : List Member) (rest : List Char) :
    writeMembers (member :: members) ++ rest = member.write ++ (writeMembers members ++ rest) := by
  rw [writeMembers, List.flatMap_cons, List.append_assoc]
  rfl

theorem Member.head?_ne (member : Member) (rest : List Char) :
    (member.write ++ rest).head? ≠ some ']' := by
  obtain ⟨c, tail, written, inside⟩ := member.starts
  rw [written]
  exact fun closes => inside (Option.some.inj closes)

/-- Members are read one by one up to the closing bracket, each before the ones behind it. -/
theorem reads_members (apart : Apart members) (opening rest : List Char) (bracket : Bracket) :
    ∃ set : CharSet,
      (∀ c, set.contains c = (bracket.members.contains c || members.any (·.lists c))) ∧
        readBracketItems opening bracket (writeMembers members ++ ']' :: rest) =
          .ok (⟨set, bracket.classes ++ members.filterMap Member.kind?⟩, rest) := by
  induction members generalizing bracket with
  | nil =>
    refine ⟨bracket.members, by simp, ?_⟩
    simp [writeMembers, readBracketItems]
  | cons member members ih =>
    obtain ⟨stands, further⟩ := apart
    obtain ⟨middle, contains, added⟩ := member.adds bracket
    obtain ⟨set, containsAll, reads⟩ := ih further ⟨middle, bracket.classes ++ member.kind?.toList⟩
    refine ⟨set, ?_, ?_⟩
    · intro c
      rw [containsAll, contains, List.any_cons, Bool.or_assoc]
    · rw [writeMembers_cons, readBracketItems_step (member.head?_ne _)
        (member.reads ((member.standsBefore_append _ rest).mpr stands) opening) added, reads,
        List.filterMap_cons]
      cases member.kind? <;> simp

namespace BracketExpr

theorem union_eq (listing : BracketExpr) :
    listing.union = .unionOf (.set (setOf fun c => listing.members.any (·.lists c)) ::
      (listing.members.filterMap Member.kind?).map .charClass) := by
  unfold union
  cases listing.members.filterMap Member.kind? <;> rfl

theorem reads_inside (listing : BracketExpr) (opening rest : List Char) :
    ∃ bracket : Bracket, bracket.predicate = listing.union ∧
      readBracketItems opening .empty (writeMembers listing.members ++ ']' :: rest) =
        .ok (bracket, rest) := by
  obtain ⟨set, contains, read⟩ := reads_members listing.apart opening rest .empty
  have same : set = setOf fun c => listing.members.any (·.lists c) := by
    apply CharSet.ext_contains
    intro c
    rw [contains, contains_setOf, Bracket.empty, CharSet.contains_empty, Bool.false_or]
    cases listed : listing.members.any (·.lists c) with
    | false => rw [Bool.and_false]
    | true =>
      obtain ⟨member, _, lists⟩ := List.any_eq_true.mp listed
      rw [decide_eq_true (Member.fits_of_lists lists), Bool.and_true]
  refine ⟨_, ?_, read⟩
  rw [same, union_eq]
  rfl

theorem head?_ne (listing : BracketExpr) (plain : listing.negated = false) (rest : List Char) :
    (writeMembers listing.members ++ ']' :: rest).head? ≠ some '^' := by
  have bare := listing.bare plain
  cases written : writeMembers listing.members with
  | nil => exact fun marked => absurd (Option.some.inj marked) (by decide)
  | cons c tail =>
    rw [written] at bare
    exact bare

theorem reads (listing : BracketExpr) (opening rest : List Char) :
    readBracket opening ((if listing.negated then ['^'] else []) ++
      (writeMembers listing.members ++ ']' :: rest)) = .ok (listing.predicate, rest) := by
  obtain ⟨bracket, union, read⟩ := listing.reads_inside opening rest
  rw [predicate]
  cases negated : listing.negated with
  | true =>
    change (readBracketItems opening .empty (writeMembers listing.members ++ ']' :: rest) >>= _) = _
    rw [read, ← union]
    rfl
  | false =>
    have bare := listing.head?_ne negated rest
    rw [if_neg (by decide), if_neg (by decide), List.nil_append]
    unfold readBracket
    split
    · next marked =>
      rw [marked] at bare
      exact absurd rfl bare
    · rw [read, ← union]
      rfl

end BracketExpr

theorem members_of_readBracketItems {result : Bracket}
    (read : readBracketItems opening bracket input = .ok (result, rest)) :
    ∃ members, Apart members ∧ input = writeMembers members ++ ']' :: rest := by
  fun_induction readBracketItems opening bracket input with
  | case1 bracket rest =>
    cases read
    exact ⟨[], trivial, rfl⟩
  | case2 => cases read
  | case3 => cases read
  | case4 bracket input continues item after first larger added ih =>
    obtain ⟨members, apart, rfl⟩ := ih read
    have inside : input.head? ≠ some ']' := by
      intro closes
      obtain ⟨tail, rfl⟩ := List.head?_eq_some_iff.mp closes
      exact continues tail rfl
    obtain ⟨member, written, stands⟩ := Member.of_readBracketItem inside first added
    refine ⟨member :: members, ⟨(member.standsBefore_append _ rest).mp stands, apart⟩, ?_⟩
    rw [written, writeMembers_cons]

theorem bracket_of_readBracket {test : Predicate}
    (read : readBracket opening input = .ok (test, rest)) :
    ∃ listing : BracketExpr, '[' :: input = listing.write ++ rest := by
  unfold readBracket at read
  split at read
  · obtain ⟨⟨bracket, behind⟩, items, ended⟩ := bind_eq_ok.mp read
    cases ended
    obtain ⟨members, apart, rfl⟩ := members_of_readBracketItems items
    exact ⟨⟨true, members, apart, nofun⟩, by simp [BracketExpr.write]⟩
  · next unmarked =>
    obtain ⟨⟨bracket, behind⟩, items, ended⟩ := bind_eq_ok.mp read
    cases ended
    obtain ⟨members, apart, rfl⟩ := members_of_readBracketItems items
    refine ⟨⟨false, members, apart, ?_⟩, by simp [BracketExpr.write]⟩
    intro _ marked
    obtain ⟨tail, written⟩ := List.head?_eq_some_iff.mp marked
    exact unmarked (tail ++ ']' :: rest) (by rw [written]; rfl)

theorem members_unique {others : List Member} {behind : List Char} (apart : Apart members)
    (separate : Apart others)
    (same : writeMembers members ++ ']' :: rest = writeMembers others ++ ']' :: behind) :
    members = others ∧ rest = behind := by
  induction members generalizing others with
  | nil =>
    cases others with
    | nil => exact ⟨rfl, (List.cons.inj same).2⟩
    | cons other others =>
      rw [writeMembers_cons] at same
      exact absurd (congrArg List.head? same.symm) (other.head?_ne _)
  | cons member members ih =>
    cases others with
    | nil =>
      rw [writeMembers_cons] at same
      exact absurd (congrArg List.head? same) (member.head?_ne _)
    | cons other others =>
      rw [writeMembers_cons, writeMembers_cons] at same
      obtain ⟨rfl, further⟩ := Member.unique ((member.standsBefore_append _ rest).mpr apart.1)
        ((other.standsBefore_append _ behind).mpr separate.1) same
      obtain ⟨rfl, ended⟩ := ih apart.2 separate.2 further
      exact ⟨rfl, ended⟩

theorem BracketExpr.unique {first second : BracketExpr} {behind : List Char}
    (same : first.write ++ rest = second.write ++ behind) : first = second ∧ rest = behind := by
  simp only [write, List.cons_append, List.append_assoc, List.nil_append, List.cons.injEq,
    true_and] at same
  have marks : first.negated = second.negated := by
    cases one : first.negated <;> cases two : second.negated <;> rw [one, two] at same
    case false.true => exact absurd (congrArg List.head? same) (first.head?_ne one rest)
    case true.false => exact absurd (congrArg List.head? same.symm) (second.head?_ne two behind)
  rw [marks] at same
  obtain ⟨members, ended⟩ :=
    members_unique first.apart second.apart (List.append_cancel_left same)
  cases first
  cases second
  cases marks
  cases members
  exact ⟨rfl, ended⟩

end Listings

end Grammar

end PatternSearch
