import Mathlib.Data.List.TakeWhile
import PatternSearch.Grammar
import PatternSearch.Proofs.Parse.Quantifiers

/-! Quantifiers of the grammar. A derived quantifier reads as what it stands for, every quantifier
that reads is derived, and no text before a character that starts no quantifier is derived in two
ways. -/

namespace PatternSearch

namespace Grammar

theorem Numeral.spells (numeral : Numeral) : Spells numeral.digits numeral.value :=
  ⟨numeral.nonempty, numeral.decimal, rfl, numeral.fits⟩

theorem numeral_of_readNumber {input rest : List Char} {value : Nat}
    (read : readNumber input = .ok (value, rest)) :
    ∃ numeral : Numeral, numeral.value = value ∧ input = numeral.digits ++ rest := by
  simp only [readNumber] at read
  split at read
  · cases read
  · next nonempty =>
    split at read
    · next fits =>
      cases read
      refine ⟨⟨input.takeWhile Char.isDigit, by simpa using nonempty, ?_, fits⟩, rfl, ?_⟩
      · exact fun c member => List.mem_takeWhile_imp member
      · exact List.takeWhile_append_dropWhile.symm
    · cases read

theorem Numeral.unique {first second : Numeral} {c d : Char} {rest behind : List Char}
    (plain : c.isDigit = false) (other : d.isDigit = false)
    (same : first.digits ++ c :: rest = second.digits ++ d :: behind) :
    first = second ∧ c :: rest = d :: behind := by
  have one := first.spells.readNumber plain rest
  rw [same, second.spells.readNumber other behind, Except.ok.injEq, Prod.mk.injEq] at one
  obtain ⟨_, ended⟩ := one
  rw [← ended] at same ⊢
  have digits := List.append_cancel_right same
  cases first
  cases second
  cases digits
  exact ⟨rfl, rfl⟩

namespace Bounds

theorem reads (bounds : Bounds) :
    ∃ c tail, bounds.write = c :: tail ∧ startsQuantifier c ∧
      ∀ behind,
        readQuantifierBounds c (tail ++ behind) = .ok ((bounds.low, bounds.high), behind) := by
  cases bounds with
  | star => exact ⟨'*', [], rfl, rfl, fun behind => rfl⟩
  | plus => exact ⟨'+', [], rfl, rfl, fun behind => rfl⟩
  | optional => exact ⟨'?', [], rfl, rfl, fun behind => rfl⟩
  | exactly count =>
    refine ⟨'{', _, rfl, rfl, ?_⟩
    intro behind
    apply readQuantifierBounds_brace
    rw [List.append_assoc]
    exact readBounds_exact count.spells behind
  | atLeast low =>
    refine ⟨'{', _, rfl, rfl, ?_⟩
    intro behind
    apply readQuantifierBounds_brace
    rw [List.append_assoc]
    exact readBounds_unbounded low.spells behind
  | between low high ordered =>
    refine ⟨'{', _, rfl, rfl, ?_⟩
    intro behind
    apply readQuantifierBounds_brace
    rw [List.append_assoc, List.cons_append, List.append_assoc]
    exact readBounds_between low.spells high.spells ordered behind

theorem upperBound_cases {low : Nat} {high : Option Nat} {input rest : List Char}
    (read : readUpperBound low input = .ok (high, rest)) :
    (high = none ∧ input = ',' :: rest) ∨
      (∃ numeral : Numeral, high = some numeral.value ∧ input = ',' :: (numeral.digits ++ rest)) ∨
        (high = some low ∧ input = rest) := by
  unfold readUpperBound at read
  split at read
  · cases read
    exact .inl ⟨rfl, rfl⟩
  · obtain ⟨⟨value, behind⟩, number, read⟩ := bind_eq_ok.mp read
    obtain ⟨numeral, same, written⟩ := numeral_of_readNumber number
    cases read
    exact .inr (.inl ⟨numeral, by rw [same], by rw [written]⟩)
  · cases read
    exact .inr (.inr ⟨rfl, rfl⟩)

theorem of_readBounds {input rest : List Char} {low : Nat} {high : Option Nat}
    (read : readBounds input = .ok ((low, high), rest)) :
    ∃ bounds : Bounds, '{' :: input = bounds.write ++ rest := by
  obtain ⟨⟨value, after⟩, lower, read⟩ := bind_eq_ok.mp read
  obtain ⟨⟨limit, behind⟩, upper, read⟩ := bind_eq_ok.mp read
  have closed : behind = '}' :: rest ∧ ∀ max ∈ limit, value ≤ max := by
    dsimp only at read
    split at read
    · cases read
      exact ⟨rfl, nofun⟩
    · split at read
      · next ordered =>
        cases read
        refine ⟨rfl, ?_⟩
        rintro max ⟨⟩
        exact ordered
      · cases read
    · cases read
  obtain ⟨rfl, ordered⟩ := closed
  obtain ⟨least, rfl, rfl⟩ := numeral_of_readNumber lower
  rcases upperBound_cases upper with ⟨rfl, rfl⟩ | ⟨most, rfl, rfl⟩ | ⟨rfl, rfl⟩
  · exact ⟨.atLeast least, by simp [write]⟩
  · exact ⟨.between least most (ordered _ rfl), by simp [write]⟩
  · exact ⟨.exactly least, by simp [write]⟩

theorem of_readQuantifierBounds {c : Char} {input rest : List Char} {low : Nat}
    {high : Option Nat} (starts : startsQuantifier c)
    (read : readQuantifierBounds c input = .ok ((low, high), rest)) :
    ∃ bounds : Bounds, c :: input = bounds.write ++ rest := by
  unfold readQuantifierBounds at read
  split at read
  · next star =>
    cases read
    exact ⟨.star, by rw [star]; rfl⟩
  · split at read
    · next plus =>
      cases read
      exact ⟨.plus, by rw [plus]; rfl⟩
    · split at read
      · next optional =>
        cases read
        exact ⟨.optional, by rw [optional]; rfl⟩
      · next star plus optional =>
        have brace : c = '{' := by
          simpa [startsQuantifier, star, plus, optional] using starts
        split at read
        · next found =>
          cases read
          exact brace ▸ of_readBounds found
        · cases read

/-- No text is derived as two bounds. The first character tells the kind, and for bounds in braces
the character behind the first number does. -/
theorem unique {first second : Bounds} {rest behind : List Char}
    (same : first.write ++ rest = second.write ++ behind) : first = second ∧ rest = behind := by
  have opened : ∀ {digits other : Numeral} {c d : Char} {tail further : List Char},
      c.isDigit = false → d.isDigit = false →
        digits.digits ++ c :: tail = other.digits ++ d :: further → c = d := by
    intro digits other c d tail further plain distinct equal
    exact (List.cons.inj (Numeral.unique plain distinct equal).2).1
  cases first <;> cases second <;>
    simp only [write, List.cons_append, List.append_assoc, List.nil_append, List.cons.injEq,
      true_and, false_and, reduceCtorEq, Char.reduceEq] at same ⊢
  case star.star | plus.plus | optional.optional => exact same
  case exactly.atLeast | exactly.between | atLeast.exactly | between.exactly =>
    exact absurd (opened rfl rfl same) (by decide)
  case exactly.exactly =>
    obtain ⟨rfl, ended⟩ := Numeral.unique rfl rfl same
    exact ⟨rfl, (List.cons.inj ended).2⟩
  case atLeast.atLeast =>
    obtain ⟨rfl, ended⟩ := Numeral.unique rfl rfl same
    exact ⟨rfl, (List.cons.inj (List.cons.inj ended).2).2⟩
  case atLeast.between low other high ordered =>
    have ended := (List.cons.inj (Numeral.unique rfl rfl same).2).2
    exact high.spells.head?_append _ (congrArg List.head? ended.symm)
  case between.atLeast low high ordered other =>
    have ended := (List.cons.inj (Numeral.unique rfl rfl same).2).2
    exact high.spells.head?_append _ (congrArg List.head? ended)
  case between.between =>
    obtain ⟨rfl, ended⟩ := Numeral.unique rfl rfl same
    obtain ⟨rfl, closed⟩ := Numeral.unique rfl rfl (List.cons.inj ended).2
    exact ⟨rfl, (List.cons.inj closed).2⟩

end Bounds

section Suffixes

variable {suffix : Option Suffix} {item result : Expr} {rest input : List Char}

theorem startsQuantifier_writeSuffix (suffix : Suffix) (rest : List Char) :
    ¬Unquantified (suffix.write ++ rest) := by
  obtain ⟨c, tail, written, starts, _⟩ := suffix.bounds.reads
  rw [Suffix.write, written]
  intro free
  have plain := free c rfl
  rw [starts] at plain
  cases plain

theorem quantify_writeSuffix (able : item.repeatable) (free : Unquantified rest) :
    quantify item (writeSuffix suffix ++ rest) = .ok (repeated item suffix, rest) := by
  cases suffix with
  | none => exact quantify_unquantified item free
  | some suffix =>
    obtain ⟨c, tail, written, starts, read⟩ := suffix.bounds.reads
    rw [writeSuffix, Suffix.write, written, List.append_assoc, List.cons_append]
    exact quantify_bounds starts read able free

theorem readLaziness_written (input : List Char) :
    (if (readLaziness input).1 then [] else ['?']) ++ (readLaziness input).2 = input := by
  unfold readLaziness
  split <;> rfl

theorem suffix_of_quantify (read : quantify item input = .ok (result, rest)) :
    ∃ suffix, input = writeSuffix suffix ++ rest ∧ (item.repeatable = false → suffix = none) := by
  unfold quantify at read
  split at read
  · cases read
    exact ⟨none, rfl, fun _ => rfl⟩
  · next c after =>
    split at read
    · next starts =>
      obtain ⟨⟨⟨low, high⟩, beyond⟩, found, read⟩ := bind_eq_ok.mp read
      obtain ⟨bounds, written⟩ := Bounds.of_readQuantifierBounds starts found
      simp only at read
      split at read
      · cases read
      · next able =>
        have ended : (readLaziness beyond).2 = rest := by
          split at read
          · split at read
            · cases read
            · cases read
              rfl
          · next none =>
            cases read
            exact none
        have marks := readLaziness_written beyond
        rw [ended] at marks
        refine ⟨some ⟨bounds, (readLaziness beyond).1⟩, ?_, ?_⟩
        · rw [written, writeSuffix, Suffix.write, List.append_assoc, marks]
        · intro rigid
          rw [rigid] at able
          exact absurd rfl able
    · cases read
      exact ⟨none, rfl, fun _ => rfl⟩

theorem suffix_unique {other : Option Suffix} {behind : List Char} (free : Unquantified rest)
    (unbound : Unquantified behind)
    (same : writeSuffix suffix ++ rest = writeSuffix other ++ behind) :
    suffix = other ∧ rest = behind := by
  cases suffix with
  | none =>
    cases other with
    | none => exact ⟨rfl, same⟩
    | some other =>
      change rest = other.write ++ behind at same
      rw [same] at free
      exact absurd free (startsQuantifier_writeSuffix other behind)
  | some suffix =>
    cases other with
    | none =>
      change suffix.write ++ rest = behind at same
      rw [← same] at unbound
      exact absurd unbound (startsQuantifier_writeSuffix suffix rest)
    | some other =>
      obtain ⟨bounds, greedy⟩ := suffix
      obtain ⟨others, eager⟩ := other
      simp only [writeSuffix, Suffix.write, List.append_assoc] at same
      obtain ⟨rfl, marks⟩ := Bounds.unique same
      have read : readLaziness ((if greedy then [] else ['?']) ++ rest) = (greedy, rest) :=
        readLaziness_mark free
      rw [marks, readLaziness_mark unbound] at read
      cases read
      exact ⟨rfl, rfl⟩

end Suffixes

end Grammar

end PatternSearch
