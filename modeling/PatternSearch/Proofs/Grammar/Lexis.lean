import PatternSearch.Lexis
import PatternSearch.Proofs.Grammar.Leaves

/-! What is exposed in derived texts. An atom that is no group exposes its first character only, for
what it is written with else stands behind a backslash or in brackets, and a quantifier exposes all
of its characters, none of which is a parenthesis or a backslash. -/

namespace PatternSearch

namespace Grammar

/-- In a bracket expression nothing of the text is exposed, and the expression goes on behind it. -/
structure Hidden (text : List Char) : Prop where
  inside : Cover.bracket.past text = .bracket
  nothing : exposed .bracket text = []

namespace Hidden

variable {text rest : List Char}

theorem nil : Hidden [] := ⟨rfl, rfl⟩

theorem append (first : Hidden text) (second : Hidden rest) : Hidden (text ++ rest) where
  inside := by
    rw [Cover.past_append, first.inside, second.inside]
  nothing := by
    rw [exposed_append, first.inside, first.nothing, second.nothing]
    rfl

theorem char {c : Char} (free : c ≠ ']' ∧ c ≠ '\\') : Hidden [c] := by
  have stays : Cover.bracket.after c = .bracket := by
    rw [Cover.after, if_neg free.2, if_neg free.1]
  exact ⟨stays, rfl⟩

theorem escape (c : Char) : Hidden ['\\', c] := ⟨rfl, rfl⟩

/-- A bracket expression exposes its opening bracket only. -/
theorem exposed_enclosed (hidden : Hidden text) :
    Exposes ('[' :: (text ++ [']'])) ∧ exposed .bare ('[' :: (text ++ [']'])) = ['['] := by
  constructor
  · change Cover.bracket.past (text ++ [']']) = .bare
    rw [Cover.past_append, hidden.inside]
    rfl
  · change '[' :: exposed .bracket (text ++ [']']) = _
    rw [exposed_append, hidden.inside, hidden.nothing]
    rfl

end Hidden

theorem BracketChar.hidden (listed : BracketChar) : Hidden listed.write := by
  cases listed with
  | plain c free => exact .char free
  | escaped c punctuation => exact .escape c

theorem Member.hidden (member : Member) : Hidden member.write := by
  have dash : Hidden ['-'] := .char (by decide)
  cases member with
  | char listed fits => exact listed.hidden
  | charClass kind => exact .escape _
  | range low high ordered fits => exact low.hidden.append (dash.append high.hidden)
  | dashed low kind fits => exact low.hidden.append (dash.append (.escape _))

theorem hidden_writeMembers (members : List Member) : Hidden (writeMembers members) := by
  induction members with
  | nil => exact .nil
  | cons member members ih => exact member.hidden.append ih

theorem BracketExpr.exposed_write (listing : BracketExpr) :
    Exposes listing.write ∧ exposed .bare listing.write = ['['] := by
  have mark : Hidden (if listing.negated then ['^'] else []) := by
    cases listing.negated with
    | false => exact .nil
    | true => exact .char (by decide)
  exact (mark.append (hidden_writeMembers listing.members)).exposed_enclosed

theorem Leaf.exposed_write (leaf : Leaf) :
    Exposes leaf.write ∧ ∃ c tail, leaf.write = c :: tail ∧ exposed .bare leaf.write = [c] := by
  cases leaf with
  | any => exact ⟨rfl, '.', [], rfl, rfl⟩
  | bracket listing =>
    obtain ⟨exposes, shown⟩ := listing.exposed_write
    exact ⟨exposes, '[', _, rfl, shown⟩
  | reference digit nonzero => exact ⟨rfl, '\\', _, rfl, rfl⟩
  | charClass kind => exact ⟨rfl, '\\', _, rfl, rfl⟩
  | escaped c punctuation => exact ⟨rfl, '\\', _, rfl, rfl⟩
  | plain c free =>
    have ordinary : ∀ d ∈ [c], d ≠ '\\' ∧ d ≠ '[' := by
      simp only [reserved, List.mem_cons, List.not_mem_nil, or_false, not_or] at free
      simp [free]
    obtain ⟨exposes, shown⟩ := exposed_ordinary ordinary
    exact ⟨exposes, c, [], rfl, shown⟩

theorem Leaf.flat (leaf : Leaf) : Flat leaf.write := by
  obtain ⟨exposes, c, tail, written, shown⟩ := leaf.exposed_write
  obtain ⟨d, others, spelled, structural, _⟩ := leaf.readsBack
  obtain ⟨rfl, _⟩ := List.cons.inj (written.symm.trans spelled)
  simp only [List.mem_cons, List.not_mem_nil, or_false, not_or] at structural
  refine ⟨exposes, ?_, ?_⟩ <;> rw [shown, List.mem_singleton]
  · exact Ne.symm structural.2.1
  · exact Ne.symm structural.2.2

theorem Leaf.backreferences_write (leaf : Leaf) (rest : List Char) :
    backreferences .bare (leaf.write ++ rest) =
      (leaf.tree.references.map fun group => ⟨group, leaf.write ++ rest⟩) ++
        backreferences .bare rest := by
  have silent : '\\' ∉ exposed .bare leaf.write → leaf.tree.references = [] →
      backreferences .bare (leaf.write ++ rest) =
        (leaf.tree.references.map fun group => ⟨group, leaf.write ++ rest⟩) ++
          backreferences .bare rest := by
    intro quiet nothing
    rw [backreferences_append quiet, leaf.exposed_write.1, nothing]
    rfl
  have escape (c : Char) : backreferences .bare ('\\' :: c :: rest) =
      (referenceAt? ('\\' :: c :: rest)).toList ++ backreferences .bare rest := rfl
  cases leaf with
  | any => exact silent (by decide) rfl
  | bracket listing =>
    apply silent _ rfl
    change '\\' ∉ exposed .bare listing.write
    rw [listing.exposed_write.2]
    decide
  | reference digit nonzero =>
    change backreferences .bare ('\\' :: digit :: rest) = _
    rw [escape, referenceAt?, if_pos nonzero]
    rfl
  | charClass kind =>
    change backreferences .bare ('\\' :: kind.letter :: rest) = _
    rw [escape]
    cases kind <;> rfl
  | escaped c punctuation =>
    change backreferences .bare ('\\' :: c :: rest) = _
    rw [escape, referenceAt?, if_neg (not_digit_of_punctuation punctuation)]
    rfl
  | plain c free =>
    obtain ⟨_, d, tail, written, shown⟩ := (Leaf.plain c free).exposed_write
    obtain ⟨rfl, _⟩ := List.cons.inj written
    apply silent _ rfl
    rw [shown, List.mem_singleton]
    rintro rfl
    exact free (by decide)

def Ordinary (c : Char) : Prop := c ∉ ['\\', '[', '(', ')']

theorem ordinary_digit {c : Char} (digit : c.isDigit) : Ordinary c := by
  intro special
  simp only [List.mem_cons, List.not_mem_nil, or_false] at special
  rcases special with rfl | rfl | rfl | rfl <;> exact absurd digit (by decide)

theorem Bounds.ordinary (bounds : Bounds) : ∀ c ∈ bounds.write, Ordinary c := by
  have mark : ∀ c ∈ ['*', '+', '?', '{', ',', '}'], Ordinary c := by
    simp [Ordinary]
  have opens : Ordinary '{' := mark _ (by decide)
  have separates : Ordinary ',' := mark _ (by decide)
  have closes : Ordinary '}' := mark _ (by decide)
  have number (numeral : Numeral) : ∀ c ∈ numeral.digits, Ordinary c :=
    fun c member => ordinary_digit (numeral.decimal c member)
  cases bounds with
  | star | plus | optional => exact List.forall_mem_singleton.mpr (mark _ (by decide))
  | exactly count =>
    simp only [write, List.forall_mem_cons, List.forall_mem_append]
    exact ⟨opens, number count, closes, nofun⟩
  | atLeast low =>
    simp only [write, List.forall_mem_cons, List.forall_mem_append]
    exact ⟨opens, number low, separates, closes, nofun⟩
  | between low high ordered =>
    simp only [write, List.forall_mem_cons, List.forall_mem_append]
    exact ⟨opens, number low, separates, number high, closes, nofun⟩

theorem ordinary_writeSuffix (suffix : Option Suffix) : ∀ c ∈ writeSuffix suffix, Ordinary c := by
  cases suffix with
  | none => exact fun c member => nomatch member
  | some suffix =>
    intro c member
    rcases List.mem_append.mp member with bounds | lazy
    · exact suffix.bounds.ordinary c bounds
    · split at lazy
      · cases lazy
      · rw [List.mem_singleton.mp lazy]
        unfold Ordinary
        decide

theorem exposed_of_ordinary {text : List Char} (ordinary : ∀ c ∈ text, Ordinary c) :
    Exposes text ∧ exposed .bare text = text := by
  apply exposed_ordinary
  intro c member
  have plain := ordinary c member
  simp only [Ordinary, List.mem_cons, not_or] at plain
  exact ⟨plain.1, plain.2.1⟩

theorem flat_of_ordinary {text : List Char} (ordinary : ∀ c ∈ text, Ordinary c) : Flat text := by
  obtain ⟨exposes, shown⟩ := exposed_of_ordinary ordinary
  refine ⟨exposes, ?_, ?_⟩ <;> rw [shown] <;> intro member <;>
    exact ordinary _ member (by decide)

theorem flat_writeSuffix (suffix : Option Suffix) : Flat (writeSuffix suffix) :=
  flat_of_ordinary (ordinary_writeSuffix suffix)

end Grammar

end PatternSearch
