import PatternSearch.Proofs.Parse.Faults

/-! What may follow. A reader that stops in front of some character has not looked behind it, so it
reads the same when more text stands behind, and most faults are decided by what is read up to them.
The other faults are those of an end: a number that is missing, bounds or brackets that are not
closed. -/

namespace PatternSearch

def BoundsFault.Settled : BoundsFault → Prop
  | tooLarge | notClosed (some _) | reversed _ _ => True
  | missingNumber | notClosed none => False

/-- The fault stays, whatever follows the pattern. Faulty bounds are told by their message. -/
def Cause.Settled : Cause → Prop
  | unknownEscape _ | unmatchedParen | invalidRange _ _ | danglingQuantifier _ => True
  | invalidRepetition reason =>
      reason = "bound is too large" ∨
        (∃ low high : Nat,
          reason = "minimum " ++ toString low ++ " exceeds maximum " ++ toString high) ∨
        ∃ c : Char, reason = "expected '\x7d', found '" ++ c.toString ++ "'"
  | trailingEscape | unterminatedGroup | unterminatedBracket | unsupportedCharacter _
  | undefinedBackreference _ => False

def Fault.extend (fault : Fault) (more : List Char) : Fault :=
  { fault with site := fault.site ++ more }

section Bounds

theorem ne_append_of_getElem? {text front back : String} (place : Nat)
    (inside : place < front.toList.length)
    (differ : text.toList[place]? ≠ front.toList[place]?) : text ≠ front ++ back := by
  rintro rfl
  rw [String.toList_append, List.getElem?_append_left inside] at differ
  exact differ rfl

theorem BoundsFault.settled_of_reason {fault : BoundsFault}
    (settled : (Cause.invalidRepetition fault.reason).Settled) : fault.Settled := by
  cases fault with
  | tooLarge => exact True.intro
  | reversed low high => exact True.intro
  | missingNumber =>
    rcases settled with large | ⟨low, high, reversed⟩ | ⟨c, found⟩
    · exact absurd large (by decide)
    · rw [String.append_assoc, String.append_assoc] at reversed
      exact absurd reversed (ne_append_of_getElem? 0 (by decide) (by decide))
    · rw [String.append_assoc] at found
      exact absurd found (ne_append_of_getElem? 9 (by decide) (by decide))
  | notClosed found =>
    cases found with
    | some c => exact True.intro
    | none =>
      rcases settled with large | ⟨low, high, reversed⟩ | ⟨c, found⟩
      · exact absurd large (by decide)
      · rw [String.append_assoc, String.append_assoc] at reversed
        exact absurd reversed (ne_append_of_getElem? 0 (by decide) (by decide))
      · rw [String.append_assoc] at found
        exact absurd found (ne_append_of_getElem? 20 (by decide) (by decide))

variable {input rest : List Char} {value low : Nat} {high : Option Nat} {fault : BoundsFault}

theorem decimalValue_le_append (digits others : List Char) :
    decimalValue digits ≤ decimalValue (digits ++ others) := by
  rw [decimalValue, decimalValue, List.foldl_append]
  generalize digits.foldl _ 0 = value
  induction others generalizing value with
  | nil => exact Nat.le_refl value
  | cons digit others ih =>
    rw [List.foldl_cons]
    exact Nat.le_trans (by omega) (ih (10 * value + digitValue digit))

theorem not_digit_of_readNumber {c : Char} (read : readNumber input = .ok (value, c :: rest)) :
    c.isDigit = false := by
  simp only [readNumber] at read
  split at read
  · cases read
  · split at read
    · rw [Except.ok.injEq, Prod.mk.injEq] at read
      have first := List.head?_dropWhile_not Char.isDigit input
      rw [read.2] at first
      exact first
    · cases read

theorem readNumber_append (read : readNumber input = .ok (value, rest)) (ended : rest ≠ [])
    (more : List Char) : readNumber (input ++ more) = .ok (value, rest ++ more) := by
  obtain ⟨c, tail, rfl⟩ := List.exists_cons_of_ne_nil ended
  have plain := not_digit_of_readNumber read
  obtain ⟨numeral, rfl, rfl⟩ := Grammar.numeral_of_readNumber read
  rw [List.append_assoc]
  exact numeral.spells.readNumber plain _

/-- More digits do not make a number smaller. -/
theorem readNumber_error_append (failed : readNumber input = .error fault)
    (settled : fault.Settled) (more : List Char) : readNumber (input ++ more) = .error fault := by
  obtain ⟨others, digits⟩ : ∃ others, (input ++ more).takeWhile Char.isDigit =
      input.takeWhile Char.isDigit ++ others := by
    rw [List.takeWhile_append]
    split
    · next whole =>
      rw [(List.takeWhile_prefix Char.isDigit).eq_of_length whole]
      exact ⟨_, rfl⟩
    · exact ⟨[], (List.append_nil _).symm⟩
  simp only [readNumber] at failed ⊢
  split at failed
  · cases failed
    cases settled
  · next nonempty =>
    split at failed
    · cases failed
    · next large =>
      cases failed
      have larger := decimalValue_le_append (input.takeWhile Char.isDigit) others
      have filled : ¬(input.takeWhile Char.isDigit ++ others).isEmpty := by
        intro empty
        rw [List.isEmpty_iff, List.append_eq_nil_iff] at empty
        exact nonempty (List.isEmpty_iff.mpr empty.1)
      rw [digits, if_neg filled, if_neg (by omega)]

theorem head?_append_of_ne_nil {text : List Char} (nonempty : text ≠ []) (more : List Char) :
    (text ++ more).head? = text.head? := by
  obtain ⟨c, tail, rfl⟩ := List.exists_cons_of_ne_nil nonempty
  rfl

theorem head?_append_ne {c : Char} {text : List Char} (nonempty : text ≠ [])
    (other : text.head? ≠ some c) (more : List Char) : (text ++ more).head? ≠ some c := by
  rw [head?_append_of_ne_nil nonempty]
  exact other

theorem head?_ne_of_ne_cons {c : Char} {text : List Char}
    (other : ∀ tail, text = c :: tail → False) : text.head? ≠ some c := by
  intro same
  obtain ⟨tail, rfl⟩ := List.head?_eq_some_iff.mp same
  exact other tail rfl

theorem readUpperBound_append (read : readUpperBound low input = .ok (high, rest))
    (ended : rest ≠ []) (more : List Char) :
    readUpperBound low (input ++ more) = .ok (high, rest ++ more) := by
  unfold readUpperBound at read
  split at read
  · cases read
    rfl
  · next behind unclosed =>
    obtain ⟨⟨value, after⟩, number, read⟩ := bind_eq_ok.mp read
    cases read
    have nonempty : behind ≠ [] := by
      rintro rfl
      cases number
    have further := head?_append_ne nonempty (head?_ne_of_ne_cons unclosed) more
    rw [List.cons_append, readUpperBound_comma low further, readNumber_append number ended]
    rfl
  · next plain =>
    cases read
    obtain ⟨c, tail, rfl⟩ := List.exists_cons_of_ne_nil ended
    have noComma : c ≠ ',' := by
      rintro rfl
      exact plain tail rfl
    unfold readUpperBound
    split
    · next same => exact absurd (List.cons.inj same).1 noComma
    · next same => exact absurd (List.cons.inj same).1 noComma
    · rfl

theorem readUpperBound_error_append (failed : readUpperBound low input = .error fault)
    (settled : fault.Settled) (more : List Char) :
    readUpperBound low (input ++ more) = .error fault := by
  unfold readUpperBound at failed
  split at failed
  · cases failed
  · next behind unclosed =>
    rcases bind_eq_error.mp failed with number | ⟨⟨value, after⟩, _, failed⟩
    · have nonempty : behind ≠ [] := by
        rintro rfl
        cases number
        cases settled
      have further := head?_append_ne nonempty (head?_ne_of_ne_cons unclosed) more
      rw [List.cons_append, readUpperBound_comma low further, readNumber_error_append number settled]
      rfl
    · cases failed
  · cases failed

theorem readBounds_error_append (failed : readBounds input = .error fault)
    (settled : fault.Settled) (more : List Char) : readBounds (input ++ more) = .error fault := by
  rcases bind_eq_error.mp failed with lower | ⟨⟨least, after⟩, lower, failed⟩
  · rw [readBounds, readNumber_error_append lower settled]
    rfl
  · have lowerEnded : after ≠ [] := by
      rintro rfl
      cases failed
      cases settled
    rcases bind_eq_error.mp failed with upper | ⟨⟨most, behind⟩, upper, failed⟩
    · rw [readBounds, readNumber_append lower lowerEnded]
      change (readUpperBound least (after ++ more) >>= _) = _
      rw [readUpperBound_error_append upper settled]
      rfl
    · have upperEnded : behind ≠ [] := by
        rintro rfl
        cases failed
        cases settled
      obtain ⟨c, tail, rfl⟩ := List.exists_cons_of_ne_nil upperEnded
      rw [readBounds, readNumber_append lower lowerEnded]
      change (readUpperBound least (after ++ more) >>= _) = _
      rw [readUpperBound_append upper upperEnded]
      simp only [bind, Except.bind, List.cons_append] at failed ⊢
      split at failed
      · cases failed
      · next after max same =>
        obtain ⟨rfl, rfl⟩ := List.cons.inj same
        split at failed
        · cases failed
        · next reversed =>
          cases failed
          exact if_neg reversed
      · next unbounded bounded =>
        cases failed
        split
        · next same =>
          obtain ⟨rfl, _⟩ := List.cons.inj same
          exact (unbounded tail rfl rfl).elim
        · next same =>
          obtain ⟨rfl, _⟩ := List.cons.inj same
          exact (bounded tail _ rfl rfl).elim
        · rfl

end Bounds

section Quantifiers

variable {item result : Expr} {input rest beyond : List Char} {fault : Fault} {c : Char} {low : Nat}
  {high : Option Nat}

theorem readQuantifierBounds_append (starts : startsQuantifier c)
    (read : readQuantifierBounds c rest = .ok ((low, high), beyond)) (more : List Char) :
    readQuantifierBounds c (rest ++ more) = .ok ((low, high), beyond ++ more) := by
  obtain ⟨bounds, written⟩ := Grammar.Bounds.of_readQuantifierBounds starts read
  obtain ⟨d, tail, spelled, _, reads⟩ := bounds.reads
  rw [spelled, List.cons_append] at written
  obtain ⟨rfl, rfl⟩ := List.cons.inj written
  rw [List.append_assoc, reads, (ok_unique (reads beyond) read).1]

theorem readQuantifierBounds_error_append (failed : readQuantifierBounds c rest = .error fault)
    (settled : fault.cause.Settled) (more : List Char) :
    readQuantifierBounds c (rest ++ more) = .error (fault.extend more) := by
  unfold readQuantifierBounds at failed ⊢
  split at failed
  · cases failed
  · next noStar =>
    split at failed
    · cases failed
    · next noPlus =>
      split at failed
      · cases failed
      · next notOptional =>
        split at failed
        · cases failed
        · next found =>
          cases failed
          rw [if_neg noStar, if_neg noPlus, if_neg notOptional,
            readBounds_error_append found (BoundsFault.settled_of_reason settled)]
          rfl

theorem readLaziness_append (ended : (readLaziness input).2 ≠ []) (more : List Char) :
    readLaziness (input ++ more) = ((readLaziness input).1, (readLaziness input).2 ++ more) := by
  unfold readLaziness at ended ⊢
  cases input with
  | nil => exact absurd rfl ended
  | cons c tail =>
    by_cases mark : c = '?'
    · subst mark
      rfl
    · simp [mark]

theorem Unquantified.append (free : Unquantified rest) (nonempty : rest ≠ []) (more : List Char) :
    Unquantified (rest ++ more) := by
  unfold Unquantified
  rw [head?_append_of_ne_nil nonempty]
  exact free

theorem unquantified_nil : Unquantified [] := nofun

theorem unquantified_of_quantify (read : quantify item input = .ok (result, rest)) :
    Unquantified rest := by
  unfold quantify at read
  split at read
  · cases read
    exact unquantified_nil
  · split at read
    · obtain ⟨⟨⟨low, high⟩, beyond⟩, _, read⟩ := bind_eq_ok.mp read
      simp only at read
      split at read
      · cases read
      · split at read
        · next second =>
          split at read
          · cases read
          · next plain =>
            cases read
            rw [second]
            exact unquantified_cons (by simpa using plain) _
        · cases read
          exact unquantified_nil
    · next plain =>
      cases read
      exact unquantified_cons (by simpa using plain) _

theorem quantify_append (read : quantify item input = .ok (result, rest)) (ended : rest ≠ [])
    (more : List Char) : quantify item (input ++ more) = .ok (result, rest ++ more) := by
  have free := unquantified_of_quantify read
  have further := free.append ended more
  obtain ⟨suffix, rfl, rigid⟩ := Grammar.suffix_of_quantify read
  rw [List.append_assoc]
  cases able : item.repeatable with
  | true =>
    rw [Grammar.quantify_writeSuffix able further,
      (ok_unique (Grammar.quantify_writeSuffix able free) read).1]
  | false =>
    obtain rfl := rigid able
    rw [← (ok_unique (quantify_unquantified item free) read).1]
    exact quantify_unquantified item further

theorem quantify_error_append (failed : quantify item input = .error fault)
    (settled : fault.cause.Settled) (more : List Char) :
    quantify item (input ++ more) = .error (fault.extend more) := by
  cases input with
  | nil => cases failed
  | cons c after =>
    simp only [quantify, List.cons_append] at failed ⊢
    split at failed
    · next starts =>
      rw [if_pos starts]
      rcases bind_eq_error.mp failed with bounds | ⟨⟨⟨low, high⟩, beyond⟩, bounds, failed⟩
      · rw [readQuantifierBounds_error_append bounds settled]
        rfl
      · rw [readQuantifierBounds_append starts bounds]
        simp only [bind, Except.bind] at failed ⊢
        split at failed
        · next rigid =>
          cases failed
          exact if_pos rigid
        · next able =>
          rw [if_neg able]
          split at failed
          · next d others second =>
            split at failed
            · next again =>
              cases failed
              rw [readLaziness_append (by rw [second]; exact List.cons_ne_nil _ _), second]
              exact if_pos again
            · cases failed
          · cases failed
    · cases failed

end Quantifiers

section Brackets

variable {opening input text rest beyond : List Char} {fault : Fault} {cause : Cause}
  {bracket : Bracket} {symbol : Symbol} {item : BracketItem}

theorem readSymbol_append (inside : input.head? ≠ some ']')
    (read : readSymbol opening input = .ok (symbol, rest)) (longer more : List Char) :
    readSymbol longer (input ++ more) = .ok (symbol, rest ++ more) := by
  rcases Grammar.of_readSymbol inside read with ⟨listed, rfl, rfl⟩ | ⟨kind, rfl, rfl⟩
  · rw [List.append_assoc]
    exact listed.reads longer _
  · exact Grammar.readSymbol_letter kind longer _

theorem readSymbol_error_append (failed : readSymbol opening input = .error fault)
    (settled : fault.cause.Settled) (longer more : List Char) :
    readSymbol longer (input ++ more) = .error (fault.extend more) := by
  unfold readSymbol at failed
  split at failed
  · cases failed
    cases settled
  · cases failed
    cases settled
  · next c behind =>
    split at failed
    · cases failed
    · next unknown =>
      cases failed
      simp only [List.cons_append, readSymbol, unknown]
      rfl
  · cases failed

theorem rangeEnd?_append (found : rangeEnd? text = some beyond) (more : List Char) :
    rangeEnd? (text ++ more) = some (beyond ++ more) := by
  obtain ⟨rfl, inside⟩ := Grammar.of_rangeEnd? found
  cases beyond with
  | nil => cases found
  | cons c behind => exact if_neg (by simpa using inside)

/-- The text goes on far enough to tell whether a range starts with it. -/
def TellsRange (text : List Char) : Prop := text ≠ [] ∧ text ≠ ['-']

theorem rangeEnd?_append_none (none : rangeEnd? text = none) (tells : TellsRange text)
    (more : List Char) : rangeEnd? (text ++ more) = Option.none := by
  rw [Grammar.rangeEnd?_eq_none] at none ⊢
  rintro ⟨c, behind, same, inside⟩
  match text with
  | [] => exact tells.1 rfl
  | [dash] =>
    obtain ⟨rfl, _⟩ := List.cons.inj same
    exact tells.2 rfl
  | dash :: d :: others =>
    obtain ⟨rfl, further⟩ := List.cons.inj same
    obtain ⟨rfl, _⟩ := List.cons.inj further
    exact none ⟨d, others, rfl, inside⟩

/-- Only behind a single character does it matter what follows the item. -/
theorem readBracketItem_append (inside : input.head? ≠ some ']')
    (read : readBracketItem opening input = .ok (item, rest))
    (tells : ∀ symbol, item = .single symbol → TellsRange rest) (longer more : List Char) :
    readBracketItem longer (input ++ more) = .ok (item, rest ++ more) := by
  obtain ⟨⟨symbol, after⟩, first, decided⟩ := bind_eq_ok.mp read
  rw [readBracketItem, readSymbol_append inside first longer more]
  cases symbol with
  | charClass kind =>
    cases decided
    rfl
  | char low =>
    cases ranged : rangeEnd? after with
    | none =>
      simp only [ranged] at decided
      cases decided
      simp only [bind, Except.bind, rangeEnd?_append_none ranged (tells _ rfl) more]
      rfl
    | some beyond =>
      simp only [ranged] at decided
      obtain ⟨⟨last, behind⟩, second, ended⟩ := bind_eq_ok.mp decided
      have further := readSymbol_append (Grammar.of_rangeEnd? ranged).2 second longer more
      simp only [bind, Except.bind, rangeEnd?_append ranged more, further]
      cases last <;> cases ended <;> rfl

theorem readBracketItem_error_append (inside : input.head? ≠ some ']')
    (failed : readBracketItem opening input = .error fault) (settled : fault.cause.Settled)
    (longer more : List Char) :
    readBracketItem longer (input ++ more) = .error (fault.extend more) := by
  rcases bind_eq_error.mp failed with first | ⟨⟨symbol, after⟩, first, failed⟩
  · rw [readBracketItem, readSymbol_error_append first settled]
    rfl
  · rw [readBracketItem, readSymbol_append inside first longer more]
    simp only at failed
    split at failed
    · next low beyond ranged =>
      rcases bind_eq_error.mp failed with second | ⟨⟨last, behind⟩, second, failed⟩
      · simp only [bind, Except.bind, rangeEnd?_append ranged more,
          readSymbol_error_append second settled longer more]
      · cases last <;> cases failed
    · cases failed

theorem range_of_settled (failed : bracket.add item = .error cause) (settled : cause.Settled) :
    ∀ symbol, item ≠ .single symbol := by
  rintro (c | kind) rfl
  · obtain ⟨rfl, _⟩ := addChar_fault failed
    cases settled
  · cases failed

theorem readBracketItems_eq (inside : input.head? ≠ some ']') :
    readBracketItems opening bracket input = (do
      let (item, rest) ← readBracketItem opening input
      let larger ← (bracket.add item).mapError fun cause => ⟨cause, input⟩
      readBracketItems opening larger rest) := by
  rw [readBracketItems]
  · split
    · next failed =>
      rw [failed]
      rfl
    · next item rest read =>
      rw [read]
      change _ = ((bracket.add item).mapError _ >>= _)
      cases bracket.add item <;> rfl
  · rintro behind rfl
    exact inside rfl

/-- An expression that ends where a range could start is not terminated. -/
theorem readBracketItems_untold (bracket : Bracket) (told : ¬TellsRange input) :
    readBracketItems opening bracket input = .error ⟨.unterminatedBracket, opening⟩ := by
  have ended (bracket : Bracket) :
      readBracketItems opening bracket [] = .error ⟨.unterminatedBracket, opening⟩ :=
    readBracketItems_eq nofun
  by_cases nonempty : input = []
  · rw [nonempty]
    exact ended bracket
  · have dash : input = ['-'] := by
      by_contra other
      exact told ⟨nonempty, other⟩
    obtain ⟨set, _, added⟩ := Grammar.Member.adds_char bracket (show '-'.toNat < 256 by decide)
    have read : readBracketItem opening ['-'] = .ok (.single (.char '-'), []) := rfl
    have larger : bracket.add (.single (.char '-')) = .ok ⟨set, bracket.classes⟩ := added
    rw [dash, readBracketItems_step (by decide) read larger]
    exact ended _

theorem readBracketItems_error_append
    (failed : readBracketItems opening bracket input = .error fault) (settled : fault.cause.Settled)
    (longer more : List Char) :
    readBracketItems longer bracket (input ++ more) = .error (fault.extend more) := by
  fun_induction readBracketItems opening bracket input with
  | case1 => cases failed
  | case2 bracket input continues other first =>
    cases failed
    have inside := head?_ne_of_ne_cons continues
    have nonempty : input ≠ [] := by
      rintro rfl
      cases first
      cases settled
    rw [readBracketItems_eq (head?_append_ne nonempty inside more),
      readBracketItem_error_append inside first settled]
    rfl
  | case3 bracket input continues item after first cause refused =>
    cases failed
    have inside := head?_ne_of_ne_cons continues
    have nonempty : input ≠ [] := by
      rintro rfl
      cases first
    have ranged := range_of_settled refused settled
    have read := readBracketItem_append inside first (fun symbol same => (ranged symbol same).elim)
      longer more
    rw [readBracketItems_eq (head?_append_ne nonempty inside more), read]
    change ((bracket.add item).mapError _ >>= _) = _
    rw [refused]
    rfl
  | case4 bracket input continues item after first larger added ih =>
    have inside := head?_ne_of_ne_cons continues
    have nonempty : input ≠ [] := by
      rintro rfl
      cases first
    have tells : TellsRange after := by
      by_contra untold
      rw [readBracketItems_untold larger untold] at failed
      cases failed
      cases settled
    have read := readBracketItem_append inside first (fun _ _ => tells) longer more
    rw [readBracketItems_step (head?_append_ne nonempty inside more) read added]
    exact ih failed

theorem readBracket_error_append (failed : readBracket opening input = .error fault)
    (settled : fault.cause.Settled) (longer more : List Char) :
    readBracket longer (input ++ more) = .error (fault.extend more) := by
  unfold readBracket at failed
  split at failed
  · rcases bind_eq_error.mp failed with items | ⟨⟨bracket, behind⟩, _, failed⟩
    · rw [List.cons_append, readBracket, readBracketItems_error_append items settled]
      rfl
    · cases failed
  · next plain =>
    rcases bind_eq_error.mp failed with items | ⟨⟨bracket, behind⟩, _, failed⟩
    · have read := readBracketItems_error_append items settled longer more
      have nonempty : input ≠ [] := by
        rintro rfl
        rw [readBracketItems_untold _ (fun tells => tells.1 rfl)] at items
        cases items
        cases settled
      have unmarked := head?_append_ne nonempty (head?_ne_of_ne_cons plain) more
      unfold readBracket
      split
      · next marked =>
        rw [marked] at unmarked
        exact absurd rfl unmarked
      · rw [read]
        rfl
    · cases failed

end Brackets

end PatternSearch
