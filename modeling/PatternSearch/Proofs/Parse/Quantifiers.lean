import PatternSearch.Expr.Printer
import PatternSearch.Proofs.Expr.Canonical

/-! Written quantifiers read back. Digits are taken up to the first other character, every
spelling of the bounds gives the bounds, and the mark of a lazy quantifier is its own. -/

namespace PatternSearch

theorem isDigit_printNumber (n : Nat) : ∀ c ∈ printNumber n, c.isDigit := by
  intro c member
  exact Nat.isDigit_of_mem_toDigits (by decide) (by decide) member

theorem decimalValue_printNumber (n : Nat) : decimalValue (printNumber n) = n :=
  Nat.ofDigitChars_ten_toDigits

structure Spells (digits : List Char) (n : Nat) : Prop where
  nonempty : digits ≠ []
  decimal : ∀ c ∈ digits, c.isDigit
  value : decimalValue digits = n
  fits : n < boundLimit

theorem spells_printNumber {n : Nat} (fits : n < boundLimit) : Spells (printNumber n) n :=
  ⟨Nat.toDigits_ne_nil, isDigit_printNumber n, decimalValue_printNumber n, fits⟩

theorem Spells.readNumber {digits : List Char} {n : Nat} (spells : Spells digits n) {c : Char}
    (other : c.isDigit = false) (rest : List Char) :
    readNumber (digits ++ c :: rest) = .ok (n, c :: rest) := by
  have taken : (digits ++ c :: rest).takeWhile Char.isDigit = digits := by
    rw [List.takeWhile_append_of_pos spells.decimal]
    simp [other]
  have behind : (digits ++ c :: rest).dropWhile Char.isDigit = c :: rest := by
    rw [List.dropWhile_append_of_pos spells.decimal]
    simp [other]
  have someDigit : digits.isEmpty = false := by
    simp [spells.nonempty]
  simp only [PatternSearch.readNumber, taken, behind, someDigit, spells.value, if_pos spells.fits]
  rfl

theorem readUpperBound_comma (low : Nat) {input : List Char} (more : input.head? ≠ some '}') :
    readUpperBound low (',' :: input) = (do
      let (high, rest) ← readNumber input
      return (some high, rest)) := by
  unfold readUpperBound
  split
  · next same =>
    cases same
    exact absurd rfl more
  · next same =>
    cases same
    rfl
  · next other =>
    exact absurd rfl (other input)

theorem Spells.head?_append {digits : List Char} {n : Nat} (spells : Spells digits n)
    (rest : List Char) : (digits ++ rest).head? ≠ some '}' := by
  intro closes
  obtain ⟨digit, others, rfl⟩ := List.exists_cons_of_ne_nil spells.nonempty
  have same : digit = '}' := Option.some.inj closes
  have isDigit := spells.decimal digit (List.mem_cons_self ..)
  rw [same] at isDigit
  exact absurd isDigit (by decide)

variable {low high : Nat} {lower upper : List Char}

theorem readBounds_exact (spells : Spells lower low) (rest : List Char) :
    readBounds (lower ++ '}' :: rest) = .ok ((low, some low), rest) := by
  unfold readBounds
  rw [spells.readNumber rfl]
  change (if low ≤ low then _ else _) = _
  rw [if_pos (Nat.le_refl low)]
  rfl

theorem readBounds_unbounded (spells : Spells lower low) (rest : List Char) :
    readBounds (lower ++ ',' :: '}' :: rest) = .ok ((low, none), rest) := by
  unfold readBounds
  rw [spells.readNumber rfl]
  rfl

theorem readBounds_between (spellsLow : Spells lower low) (spellsHigh : Spells upper high)
    (ordered : low ≤ high) (rest : List Char) :
    readBounds (lower ++ ',' :: (upper ++ '}' :: rest)) = .ok ((low, some high), rest) := by
  unfold readBounds
  rw [spellsLow.readNumber rfl]
  change (readUpperBound low (',' :: (upper ++ '}' :: rest)) >>= _) = _
  rw [readUpperBound_comma low (spellsHigh.head?_append _), spellsHigh.readNumber rfl]
  change (if low ≤ high then _ else _) = _
  rw [if_pos ordered]
  rfl

theorem readQuantifierBounds_brace {input : List Char}
    {found : (Nat × Option Nat) × List Char} (read : readBounds input = .ok found) :
    readQuantifierBounds '{' input = .ok found := by
  simp only [readQuantifierBounds, read]
  rfl

theorem readQuantifierBounds_print {low : Nat} {high : Option Nat} {greedy : Bool}
    (bounded : (Quantifier.mk low high greedy).Bounded) :
    ∃ c rest, Quantifier.printBounds low high = c :: rest ∧ startsQuantifier c ∧
      ∀ behind, readQuantifierBounds c (rest ++ behind) = .ok ((low, high), behind) := by
  obtain ⟨lowFits, highFits⟩ := bounded
  unfold Quantifier.printBounds
  split
  · exact ⟨'*', [], rfl, rfl, fun behind => rfl⟩
  · exact ⟨'+', [], rfl, rfl, fun behind => rfl⟩
  · exact ⟨'?', [], rfl, rfl, fun behind => rfl⟩
  · refine ⟨'{', printNumber low ++ [',', '}'], rfl, rfl, ?_⟩
    intro behind
    apply readQuantifierBounds_brace
    rw [List.append_assoc]
    exact readBounds_unbounded (spells_printNumber lowFits) behind
  · next upper _ =>
    obtain ⟨ordered, fits⟩ := highFits upper rfl
    split
    · next exactly =>
      subst exactly
      refine ⟨'{', printNumber low ++ ['}'], rfl, rfl, ?_⟩
      intro behind
      apply readQuantifierBounds_brace
      rw [List.append_assoc]
      exact readBounds_exact (spells_printNumber lowFits) behind
    · refine ⟨'{', printNumber low ++ ',' :: printNumber upper ++ ['}'], rfl, rfl, ?_⟩
      intro behind
      apply readQuantifierBounds_brace
      rw [List.append_assoc, List.append_assoc]
      exact readBounds_between (spells_printNumber lowFits) (spells_printNumber fits) ordered behind

def Unquantified (input : List Char) : Prop := ∀ c ∈ input.head?, startsQuantifier c = false

theorem unquantified_cons {c : Char} (free : startsQuantifier c = false) (rest : List Char) :
    Unquantified (c :: rest) := by
  intro first same
  cases same
  exact free

theorem readLaziness_mark {greedy : Bool} {rest : List Char} (free : Unquantified rest) :
    readLaziness ((if greedy then [] else ['?']) ++ rest) = (greedy, rest) := by
  cases greedy with
  | false => rfl
  | true =>
    change readLaziness rest = (true, rest)
    unfold readLaziness
    split
    · have starts : startsQuantifier '?' = false := free '?' rfl
      exact absurd starts (by decide)
    · rfl

theorem quantify_unquantified (item : Expr) {rest : List Char} (free : Unquantified rest) :
    quantify item rest = .ok (item, rest) := by
  cases rest with
  | nil => rfl
  | cons c rest =>
    have plain : startsQuantifier c = false := free c rfl
    simp only [quantify, plain]
    rfl

theorem quantify_bounds {item : Expr} {c : Char} {tail rest : List Char} {low : Nat}
    {high : Option Nat} {greedy : Bool} (starts : startsQuantifier c)
    (read : ∀ behind, readQuantifierBounds c (tail ++ behind) = .ok ((low, high), behind))
    (able : item.repeatable) (free : Unquantified rest) :
    quantify item (c :: (tail ++ ((if greedy then [] else ['?']) ++ rest))) =
      .ok (.repetition item ⟨low, high, greedy⟩, rest) := by
  simp only [quantify, if_pos starts, read, able, bind, Except.bind, readLaziness_mark free]
  cases rest with
  | nil => rfl
  | cons d rest =>
    have plain : startsQuantifier d = false := free d rfl
    simp only [plain]
    rfl

theorem quantify_print {item : Expr} {quantifier : Quantifier} {rest : List Char}
    (able : item.repeatable) (bounded : quantifier.Bounded) (free : Unquantified rest) :
    quantify item (quantifier.print ++ rest) = .ok (.repetition item quantifier, rest) := by
  obtain ⟨low, high, greedy⟩ := quantifier
  obtain ⟨c, tail, written, starts, read⟩ := readQuantifierBounds_print bounded
  have spelled : (Quantifier.mk low high greedy).print ++ rest =
      c :: (tail ++ ((if greedy then [] else ['?']) ++ rest)) := by
    simp only [Quantifier.print, written, List.cons_append, List.append_assoc]
  rw [spelled]
  exact quantify_bounds starts read able free

end PatternSearch
