import PatternSearch.Proofs.Grammar.Brackets
import PatternSearch.Proofs.Parse.RoundTrip

/-! Atoms of the grammar that are no groups. A derived one reads as what it stands for, every one
that reads is derived unless it is an anchor, and none is derived in two ways. -/

namespace PatternSearch

namespace Grammar

theorem readEscape_digit {c : Char} (digit : '1' ≤ c ∧ c ≤ '9') :
    readEscape c = some (.backreference (named c)) :=
  if_pos digit

theorem readEscape_letter (kind : CharClass) :
    readEscape kind.letter = some (.predicate (.charClass kind)) := by
  cases kind <;> rfl

theorem not_digit_of_punctuation {c : Char} (punctuation : c ∈ asciiPunctuation) :
    ¬('1' ≤ c ∧ c ≤ '9') := by
  rintro ⟨low, high⟩
  have above : '1'.toNat ≤ c.toNat := low
  have below : c.toNat ≤ '9'.toNat := high
  have one : '1'.toNat = 49 := rfl
  have nine : '9'.toNat = 57 := rfl
  rw [mem_asciiPunctuation] at punctuation
  simp only [isPunctuation, Bool.or_eq_true, Bool.and_eq_true, decide_eq_true_eq] at punctuation
  omega

theorem readEscape_punctuation {c : Char} (punctuation : c ∈ asciiPunctuation) :
    readEscape c = some (.literal c) := by
  rw [readEscape, if_neg (not_digit_of_punctuation punctuation),
    ofEscaped?_punctuation punctuation]

namespace Leaf

theorem readsBack_escape {c : Char} {item : Expr} (read : readEscape c = some item) :
    ReadsBack item ['\\', c] := by
  refine ⟨'\\', [c], rfl, by decide, rfl, ?_⟩
  intro rest
  simp [readAtom, read]

theorem readsBack (leaf : Leaf) : ReadsBack leaf.tree leaf.write := by
  cases leaf with
  | any => exact ⟨'.', [], rfl, by decide, rfl, fun rest => rfl⟩
  | bracket listing =>
    refine ⟨'[', _, rfl, by decide, rfl, ?_⟩
    intro rest
    rw [List.append_assoc, List.append_assoc]
    change (readBracket _ _ >>= _) = _
    rw [List.cons_append, List.nil_append, listing.reads]
    rfl
  | reference digit nonzero => exact readsBack_escape (readEscape_digit nonzero)
  | charClass kind => exact readsBack_escape (readEscape_letter kind)
  | escaped c punctuation => exact readsBack_escape (readEscape_punctuation punctuation)
  | plain c free =>
    simp only [reserved, List.mem_cons, List.not_mem_nil, or_false, not_or] at free
    have unquantified : startsQuantifier c = false := by simp [startsQuantifier, free]
    refine ⟨c, [], rfl, by simp [free], unquantified, ?_⟩
    intro rest
    simp [readAtom, tree, Expr.literal, free, unquantified]

theorem simple (leaf : Leaf) : leaf.tree.Simple := by
  obtain ⟨c, tail, _, _, _, reads⟩ := leaf.readsBack
  exact readAtom_simple (reads [])

theorem repeatable (leaf : Leaf) : leaf.tree.repeatable := by
  cases leaf <;> rfl

theorem head?_ne (leaf : Leaf) (rest : List Char) :
    ∀ c ∈ ['^', '$', '('], (leaf.write ++ rest).head? ≠ some c := by
  simp only [List.forall_mem_cons, List.not_mem_nil, false_imp_iff, implies_true, and_true]
  cases leaf with
  | plain c free =>
    simp only [reserved, List.mem_cons, List.not_mem_nil, or_false, not_or] at free
    simp [write, free]
  | _ => simp [write, BracketExpr.write]

end Leaf

theorem leaf_of_readEscape {c : Char} {item : Expr} (read : readEscape c = some item) :
    ∃ leaf : Leaf, ['\\', c] = leaf.write := by
  unfold readEscape at read
  split at read
  · next digit => exact ⟨.reference c digit, rfl⟩
  · split at read
    · next kind escaped =>
      rcases of_ofEscaped? escaped with ⟨same, _⟩ | ⟨other, _, rfl⟩
      · cases same
      · exact ⟨.charClass other, rfl⟩
    · next literal escaped =>
      rcases of_ofEscaped? escaped with ⟨_, punctuation⟩ | ⟨other, same, _⟩
      · exact ⟨.escaped c punctuation, rfl⟩
      · cases same
    · cases read

theorem leaf_of_readAtom {c : Char} {item : Expr} {rest beyond : List Char}
    (outside : c ∉ ['|', '(', ')']) (read : readAtom c rest = .ok (item, beyond)) :
    ((c = '^' ∨ c = '$') ∧ beyond = rest ∧ item.repeatable = false) ∨
      ∃ leaf : Leaf, c :: rest = leaf.write ++ beyond := by
  unfold readAtom at read
  split at read
  · next backslash =>
    subst backslash
    split at read
    · cases read
    · split at read
      · next escaped =>
        cases read
        obtain ⟨leaf, written⟩ := leaf_of_readEscape escaped
        exact .inr ⟨leaf, by rw [← written]; rfl⟩
      · cases read
  · next noEscape =>
    split at read
    · next opening =>
      subst opening
      obtain ⟨⟨test, behind⟩, bracket, ended⟩ := bind_eq_ok.mp read
      cases ended
      obtain ⟨listing, written⟩ := bracket_of_readBracket bracket
      exact .inr ⟨.bracket listing, written⟩
    · next noBracket =>
      split at read
      · cases read
      · next noQuantifier =>
        split at read
        · next start =>
          cases read
          exact .inl ⟨.inl start, rfl, rfl⟩
        · next noStart =>
          split at read
          · next finish =>
            cases read
            exact .inl ⟨.inr finish, rfl, rfl⟩
          · next noEnd =>
            split at read
            · next dot =>
              cases read
              exact .inr ⟨.any, by rw [dot]; rfl⟩
            · next noDot =>
              cases read
              have free : c ∉ reserved := by
                simp only [List.mem_cons, List.not_mem_nil, or_false, not_or] at outside
                simp only [startsQuantifier, Bool.or_eq_true, decide_eq_true_eq, not_or]
                  at noQuantifier
                simp [reserved, outside, noQuantifier, noEscape, noBracket, noStart, noEnd, noDot]
              exact .inr ⟨.plain c free, rfl⟩

theorem Leaf.eq_of_write {first second : Leaf} (written : first.write = second.write)
    (trees : first.tree = second.tree) : first = second := by
  cases first <;> cases second <;>
    simp only [write, BracketExpr.write, tree, List.cons.injEq, List.append_eq_nil_iff,
      reduceCtorEq, Char.reduceEq, true_and, and_true, and_false, false_and,
      Expr.predicate.injEq, Predicate.char.injEq, Predicate.charClass.injEq] at written trees ⊢
  case bracket.bracket listing other =>
    have same : listing.write ++ [] = other.write ++ [] := by
      rw [BracketExpr.write, written]
      rfl
    rw [(BracketExpr.unique same).1]
  case plain.bracket c free listing => exact free (by rw [written.1]; decide)
  case charClass.charClass => rw [trees]
  case reference.reference | escaped.escaped | plain.plain =>
    subst written
    rfl

/-- No text is derived as two atoms. The reader tells how long the atom is and what it stands
for, which leaves one derivation of its text. -/
theorem Leaf.unique {first second : Leaf} {rest behind : List Char}
    (same : first.write ++ rest = second.write ++ behind) : first = second ∧ rest = behind := by
  obtain ⟨c, tail, one, _, _, reads⟩ := first.readsBack
  obtain ⟨d, others, two, _, _, readsOther⟩ := second.readsBack
  have texts := same
  rw [one, two, List.cons_append, List.cons_append, List.cons.injEq] at texts
  obtain ⟨rfl, texts⟩ := texts
  have read := reads rest
  rw [texts, readsOther behind, Except.ok.injEq, Prod.mk.injEq] at read
  obtain ⟨trees, rfl⟩ := read
  exact ⟨Leaf.eq_of_write (List.append_cancel_right same) trees.symm, rfl⟩

end Grammar

end PatternSearch
