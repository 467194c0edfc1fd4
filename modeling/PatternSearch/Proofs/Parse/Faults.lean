import PatternSearch.Proofs.Grammar.Lexis
import PatternSearch.Proofs.Grammar.Quantifiers

/-! Where a fault is found. Every reader that fails points at a rest of its input, and how that rest
starts tells the cause. What is only known at the end of a pattern is told by the whole of it: the
groups and the backreferences that a reading notes are those that the text exposes. -/

namespace PatternSearch

/-- What a pattern shows from the site of a fault on. The fault of a backreference is told by the
whole pattern: it opens too few groups, but enough for the backreferences before. -/
def Cause.Marks (source site : List Char) : Cause → Prop
  | unknownEscape c => ∃ rest, site = '\\' :: c :: rest
  | trailingEscape => site = ['\\']
  | unterminatedGroup => ∃ rest, site = '(' :: rest
  | unmatchedParen => ∃ rest, site = ')' :: rest
  | unterminatedBracket => ∃ rest, site = '[' :: rest
  | invalidRange low high =>
      high < low ∧ ((∃ rest, site = low :: rest) ∨ ∃ rest, site = '\\' :: low :: rest)
  | unsupportedCharacter c => 256 ≤ c.toNat ∧ c ∈ site
  | danglingQuantifier c => c ∈ ['*', '+', '?', '{'] ∧ ∃ rest, site = c :: rest
  | invalidRepetition _ => ∃ rest, site = '{' :: rest
  | undefinedBackreference group =>
      (∃ digit rest, site = '\\' :: digit :: rest ∧ ('1' ≤ digit ∧ digit ≤ '9') ∧
        digitValue digit = group) ∧
      opened source < group ∧
      ∃ earlier later, backreferences .bare source = earlier ++ ⟨group, site⟩ :: later ∧
        ∀ other ∈ earlier, other.group ≤ opened source

theorem Cause.Marks.ne_nil {cause : Cause} {source site : List Char}
    (marks : cause.Marks source site) : site ≠ [] := by
  rintro rfl
  cases cause <;> simp [Marks] at marks

structure Fault.Within (source : List Char) (fault : Fault) (text : List Char) : Prop where
  suffix : fault.site <:+ text
  marks : fault.cause.Marks source fault.site

theorem Fault.Within.mono {fault : Fault} {source text longer : List Char}
    (within : fault.Within source text) (contained : text <:+ longer) :
    fault.Within source longer :=
  ⟨within.suffix.trans contained, within.marks⟩

section Brackets

def Spelt (c : Char) (text : List Char) : Prop :=
  (∃ rest, text = c :: rest) ∨ ∃ rest, text = '\\' :: c :: rest

theorem Spelt.mem {c : Char} {text : List Char} (spelt : Spelt c text) : c ∈ text := by
  rcases spelt with ⟨rest, rfl⟩ | ⟨rest, rfl⟩ <;> simp

variable {source opening input rest tail : List Char} {fault : Fault} {cause : Cause}
  {bracket : Bracket} {c : Char}

theorem readSymbol_spelt (read : readSymbol opening input = .ok (.char c, rest)) :
    Spelt c input := by
  unfold readSymbol at read
  split at read
  · cases read
  · cases read
  · split at read
    · next escaped =>
      cases read
      rcases Grammar.of_ofEscaped? escaped with ⟨same, _⟩ | ⟨kind, same, _⟩
      · cases same
        exact .inr ⟨_, rfl⟩
      · cases same
    · cases read
  · cases read
    exact .inl ⟨_, rfl⟩

theorem readSymbol_fault (contained : input <:+ '[' :: tail)
    (failed : readSymbol ('[' :: tail) input = .error fault) :
    fault.Within source ('[' :: tail) := by
  unfold readSymbol at failed
  split at failed
  · cases failed
    exact ⟨List.suffix_rfl, tail, rfl⟩
  · cases failed
    exact ⟨List.suffix_rfl, tail, rfl⟩
  · split at failed <;> cases failed
    exact ⟨contained, _, rfl⟩
  · cases failed

theorem readBracketItem_fault (contained : input <:+ '[' :: tail)
    (failed : readBracketItem ('[' :: tail) input = .error fault) :
    fault.Within source ('[' :: tail) := by
  rcases bind_eq_error.mp failed with first | ⟨⟨symbol, after⟩, first, failed⟩
  · exact readSymbol_fault contained first
  · simp only at failed
    split at failed
    · next low beyond found =>
      have further := (rangeEnd?_suffix found).trans (readSymbol_suffix first).1
      rcases bind_eq_error.mp failed with last | ⟨⟨highSymbol, behind⟩, last, failed⟩
      · exact readSymbol_fault (further.trans contained) last
      · simp only at failed
        split at failed <;> cases failed
    · cases failed

theorem addChar_fault (failed : bracket.addChar c = .error cause) :
    cause = .unsupportedCharacter c ∧ 256 ≤ c.toNat := by
  unfold Bracket.addChar at failed
  split at failed
  · cases failed
  · next refused =>
    cases failed
    have wide : ¬c.toNat < 256 := by
      rw [← @CharSet.insert?_isSome_iff bracket.members, refused]
      decide
    exact ⟨rfl, by omega⟩

theorem addRange_fault {low high : Char} (spelt : Spelt low input) (member : high ∈ input)
    (failed : bracket.add (.range low high) = .error cause) : cause.Marks source input := by
  simp only [Bracket.add] at failed
  split at failed
  · next reversed =>
    cases failed
    exact ⟨reversed, spelt⟩
  · next ordered =>
    split at failed
    · cases failed
    · next refused =>
      cases failed
      have wide : ¬(low ≤ high ∧ high.toNat < 256) := by
        rw [← @CharSet.insertRange?_isSome_iff bracket.members, refused]
        decide
      have above : 256 ≤ high.toNat :=
        Nat.le_of_not_lt fun below => wide ⟨Char.not_lt.mp ordered, below⟩
      split
      · exact ⟨above, member⟩
      · next lowWide => exact ⟨by omega, spelt.mem⟩

theorem add_fault {item : BracketItem} (read : readBracketItem opening input = .ok (item, rest))
    (failed : bracket.add item = .error cause) : cause.Marks source input := by
  obtain ⟨⟨symbol, after⟩, first, decided⟩ := bind_eq_ok.mp read
  cases symbol with
  | charClass kind =>
    cases decided
    cases failed
  | char low =>
    have spelt := readSymbol_spelt first
    cases ranged : rangeEnd? after with
    | none =>
      simp only [ranged] at decided
      cases decided
      obtain ⟨rfl, wide⟩ := addChar_fault failed
      exact ⟨wide, spelt.mem⟩
    | some beyond =>
      simp only [ranged] at decided
      obtain ⟨⟨last, behind⟩, second, ended⟩ := bind_eq_ok.mp decided
      cases last with
      | char high =>
        cases ended
        have further := (rangeEnd?_suffix ranged).trans (readSymbol_suffix first).1
        exact addRange_fault spelt (further.subset (readSymbol_spelt second).mem) failed
      | charClass kind =>
        cases ended
        rcases bind_eq_error.mp failed with lowRefused | ⟨withLow, _, failed⟩
        · obtain ⟨rfl, wide⟩ := addChar_fault lowRefused
          exact ⟨wide, spelt.mem⟩
        · rcases bind_eq_error.mp failed with dashRefused | ⟨withDash, _, failed⟩
          · exact absurd (addChar_fault dashRefused).2 (by decide)
          · cases failed

theorem readBracketItems_fault (contained : input <:+ '[' :: tail)
    (failed : readBracketItems ('[' :: tail) bracket input = .error fault) :
    fault.Within source ('[' :: tail) := by
  fun_induction readBracketItems ('[' :: tail) bracket input with
  | case1 => cases failed
  | case2 bracket input _ other first =>
    cases failed
    exact readBracketItem_fault contained first
  | case3 bracket input _ item after first cause refused =>
    cases failed
    exact ⟨contained, add_fault first refused⟩
  | case4 bracket input _ item after first larger added ih =>
    exact ih ((readBracketItem_suffix first).1.trans contained) failed

theorem readBracket_fault (failed : readBracket ('[' :: tail) tail = .error fault) :
    fault.Within source ('[' :: tail) := by
  unfold readBracket at failed
  have whole : tail <:+ '[' :: tail := List.suffix_cons _ _
  split at failed
  · rcases bind_eq_error.mp failed with items | ⟨⟨bracket, behind⟩, _, failed⟩
    · exact readBracketItems_fault ((List.suffix_cons _ _).trans whole) items
    · cases failed
  · rcases bind_eq_error.mp failed with items | ⟨⟨bracket, behind⟩, _, failed⟩
    · exact readBracketItems_fault whole items
    · cases failed

end Brackets

section Items

variable {progress : Progress} {item : Expr} {source input rest : List Char} {fault : Fault}
  {c : Char}

theorem mem_of_startsQuantifier (starts : startsQuantifier c) : c ∈ ['*', '+', '?', '{'] := by
  simpa [startsQuantifier, or_assoc] using starts

theorem readQuantifierBounds_fault (starts : startsQuantifier c)
    (failed : readQuantifierBounds c rest = .error fault) : fault.Within source (c :: rest) := by
  unfold readQuantifierBounds at failed
  split at failed
  · cases failed
  · split at failed
    · cases failed
    · split at failed
      · cases failed
      · next star plus optional =>
        have brace : c = '{' := by
          simpa [startsQuantifier, star, plus, optional] using starts
        split at failed <;> cases failed
        exact ⟨List.suffix_rfl, rest, by rw [brace]⟩

theorem quantify_fault (failed : quantify item input = .error fault) :
    fault.Within source input := by
  unfold quantify at failed
  split at failed
  · cases failed
  · next c after =>
    split at failed
    · next starts =>
      rcases bind_eq_error.mp failed with bounds | ⟨⟨⟨low, high⟩, beyond⟩, bounds, failed⟩
      · exact readQuantifierBounds_fault starts bounds
      · have contained : (readLaziness beyond).2 <:+ c :: after :=
          (readLaziness_suffix beyond).trans
            ((readQuantifierBounds_suffix bounds).trans (List.suffix_cons _ _))
        simp only at failed
        split at failed
        · cases failed
          exact ⟨List.suffix_rfl, mem_of_startsQuantifier starts, after, rfl⟩
        · split at failed
          · next d others second =>
            split at failed
            · next again =>
              cases failed
              rw [second] at contained
              exact ⟨by rw [second]; exact contained, mem_of_startsQuantifier again, others, second⟩
            · cases failed
          · cases failed
    · cases failed

theorem readAtom_fault (failed : readAtom c rest = .error fault) :
    fault.Within source (c :: rest) := by
  unfold readAtom at failed
  split at failed
  · next backslash =>
    subst backslash
    split at failed
    · cases failed
      exact ⟨List.suffix_rfl, rfl⟩
    · split at failed <;> cases failed
      exact ⟨List.suffix_rfl, _, rfl⟩
  · split at failed
    · next opening =>
      subst opening
      rcases bind_eq_error.mp failed with bracket | ⟨⟨test, behind⟩, _, failed⟩
      · exact readBracket_fault bracket
      · cases failed
    · split at failed
      · next starts =>
        cases failed
        exact ⟨List.suffix_rfl, mem_of_startsQuantifier starts, rest, rfl⟩
      · split at failed
        · cases failed
        · split at failed
          · cases failed
          · split at failed <;> cases failed

namespace Progress

theorem step_fault (failed : progress.step c rest = .error fault) :
    fault.Within source (c :: rest) := by
  unfold step at failed
  split at failed
  · cases failed
  · split at failed
    · cases failed
    · split at failed
      · next closes =>
        subst closes
        split at failed
        · cases failed
          exact ⟨List.suffix_rfl, rest, rfl⟩
        · rcases bind_eq_error.mp failed with closed | ⟨⟨item, behind⟩, _, failed⟩
          · exact (quantify_fault closed).mono (List.suffix_cons _ _)
          · cases failed
      · rcases bind_eq_error.mp failed with first | ⟨⟨atom, after⟩, first, failed⟩
        · exact readAtom_fault first
        · rcases bind_eq_error.mp failed with quantified | ⟨⟨item, behind⟩, _, failed⟩
          · exact (quantify_fault quantified).mono
              ((readAtom_suffix first).trans (List.suffix_cons _ _))
          · cases failed

theorem readAll_fault (failed : progress.readAll input = .error fault) :
    fault.Within source input := by
  fun_induction Progress.readAll progress input with
  | case1 => cases failed
  | case2 progress c rest other stepped =>
    cases failed
    exact step_fault stepped
  | case3 progress c rest next beyond stepped ih =>
    exact (ih failed).mono ((step_suffix stepped).trans (List.suffix_cons _ _))

end Progress

end Items

section Notes

variable {progress next last : Progress} {atom : Expr} {c : Char}
  {source text input rest beyond : List Char}

theorem opened_append_flat (flat : Flat text) (rest : List Char) :
    opened (text ++ rest) = opened rest := by
  rw [flat.exposes.opened_append, flat.opened_eq, Nat.zero_add]

theorem backreferences_append_ordinary (ordinary : ∀ c ∈ text, Grammar.Ordinary c)
    (rest : List Char) : backreferences .bare (text ++ rest) = backreferences .bare rest := by
  obtain ⟨exposes, shown⟩ := Grammar.exposed_of_ordinary ordinary
  have quiet : '\\' ∉ exposed .bare text := by
    rw [shown]
    exact fun member => ordinary _ member (by decide)
  rw [backreferences_append quiet, exposes]

namespace Progress

/-- Between two stages of a reading as many groups are opened as the text between exposes, and the
backreferences that it exposes are noted. -/
structure Notes (progress : Progress) (input : List Char) (next : Progress) (rest : List Char) :
    Prop where
  groups : progress.groups + opened input = next.groups + opened rest
  references : progress.references.toList ++ backreferences .bare input =
    next.references.toList ++ backreferences .bare rest

theorem Notes.trans {middle : Progress} (first : progress.Notes input middle rest)
    (second : middle.Notes rest last beyond) : progress.Notes input last beyond :=
  ⟨first.groups.trans second.groups, first.references.trans second.references⟩

theorem notes_ordinary (ordinary : ∀ c ∈ text, Grammar.Ordinary c)
    (groups : next.groups = progress.groups) (references : next.references = progress.references) :
    progress.Notes (text ++ rest) next rest where
  groups := by
    rw [opened_append_flat (Grammar.flat_of_ordinary ordinary), groups]
  references := by
    rw [backreferences_append_ordinary ordinary, references]

theorem notes_character (ordinary : Grammar.Ordinary c) (groups : next.groups = progress.groups)
    (references : next.references = progress.references) :
    progress.Notes (c :: rest) next rest := by
  have each : ∀ d ∈ [c], Grammar.Ordinary d := List.forall_mem_singleton.mpr ordinary
  exact notes_ordinary each groups references

theorem toList_noteReference (simple : atom.Simple) (progress : Progress) (site : List Char) :
    (progress.noteReference atom site).references.toList =
      progress.references.toList ++ atom.references.map fun group => ⟨group, site⟩ := by
  cases simple with
  | backreference => exact Array.toList_push
  | _ => exact (List.append_nil _).symm

theorem notes_atom (progress : Progress) {after : List Char} (outside : c ∉ ['|', '(', ')'])
    (first : readAtom c rest = .ok (atom, after)) :
    progress.Notes (c :: rest) (progress.noteReference atom (c :: rest)) after := by
  have simple := readAtom_simple first
  rcases Grammar.leaf_of_readAtom outside first with ⟨anchor, rfl, rigid⟩ | ⟨leaf, spelled⟩
  · have plain : Grammar.Ordinary c := by
      rcases anchor with rfl | rfl <;> unfold Grammar.Ordinary <;> decide
    apply notes_character plain groups_noteReference
    cases simple with
    | backreference => cases rigid
    | _ => rfl
  · obtain ⟨d, tail, written, _, _, reads⟩ := leaf.readsBack
    rw [written, List.cons_append] at spelled
    obtain ⟨rfl, rfl⟩ := List.cons.inj spelled
    have same : leaf.tree = atom := (ok_unique (reads after) first).1
    have whole : c :: (tail ++ after) = leaf.write ++ after := by
      rw [written]
      rfl
    constructor
    · rw [groups_noteReference, whole, opened_append_flat leaf.flat]
    · rw [toList_noteReference simple, whole, leaf.backreferences_write, same, List.append_assoc]

theorem StepsTo.notes (stepped : progress.StepsTo c rest next beyond) :
    progress.Notes (c :: rest) next beyond := by
  cases stepped with
  | bar => exact notes_character (by unfold Grammar.Ordinary; decide) rfl rfl
  | opening =>
    constructor
    · change progress.groups + List.count '(' ('(' :: exposed .bare rest) =
        progress.groups + 1 + List.count '(' (exposed .bare rest)
      rw [List.count_cons_self]
      omega
    · rfl
  | closing innermost closed =>
    obtain ⟨suffix, written, _⟩ := Grammar.suffix_of_quantify closed
    have paren : progress.Notes (')' :: rest) progress rest := ⟨rfl, rfl⟩
    rw [written] at paren ⊢
    exact paren.trans (notes_ordinary (Grammar.ordinary_writeSuffix suffix) rfl rfl)
  | atom outside first quantified =>
    obtain ⟨suffix, written, _⟩ := Grammar.suffix_of_quantify quantified
    have noted := notes_atom progress outside first
    rw [written] at noted
    exact noted.trans (notes_ordinary (Grammar.ordinary_writeSuffix suffix) rfl rfl)

theorem notes_readAll (read : progress.readAll input = .ok last) :
    progress.Notes input last [] := by
  fun_induction Progress.readAll progress input with
  | case1 progress =>
    cases read
    exact ⟨rfl, rfl⟩
  | case2 => cases read
  | case3 progress c rest next beyond stepped ih => exact (stepsTo stepped).notes.trans (ih read)

def PendingIn (source : List Char) (progress : Progress) : Prop :=
  ∀ group ∈ progress.pending, group.site <:+ source ∧ ∃ rest, group.site = '(' :: rest

theorem StepsTo.pendingIn (stepped : progress.StepsTo c rest next beyond)
    (contained : c :: rest <:+ source) (held : PendingIn source progress) :
    PendingIn source next := by
  cases stepped with
  | bar => exact held
  | opening => exact List.forall_mem_cons.mpr ⟨⟨contained, _, rfl⟩, held⟩
  | closing innermost closed =>
    intro other member
    exact held other (by rw [innermost]; exact List.mem_cons_of_mem _ member)
  | atom outside first quantified =>
    intro other member
    rw [Progress.addItem, pending_noteReference] at member
    exact held other member

theorem pendingIn_readAll (contained : input <:+ source) (held : PendingIn source progress)
    (read : progress.readAll input = .ok last) : PendingIn source last := by
  fun_induction Progress.readAll progress input with
  | case1 progress =>
    cases read
    exact held
  | case2 => cases read
  | case3 progress c rest next beyond stepped ih =>
    exact ih ((step_suffix stepped).trans ((List.suffix_cons _ _).trans contained))
      ((stepsTo stepped).pendingIn contained held) read

end Progress

theorem site_of_mem_backreferences {reference : Reference} {cover : Cover}
    (member : reference ∈ backreferences cover text) :
    reference.site <:+ text ∧ ∃ digit rest, reference.site = '\\' :: digit :: rest ∧
      ('1' ≤ digit ∧ digit ≤ '9') ∧ digitValue digit = reference.group := by
  induction text generalizing cover with
  | nil => cases member
  | cons c text ih =>
    rcases List.mem_append.mp member with here | later
    · split at here
      · rw [Option.mem_toList] at here
        unfold referenceAt? at here
        split at here
        · next digit rest same =>
          split at here
          · next nonzero =>
            cases here
            rw [← same]
            exact ⟨List.suffix_rfl, digit, rest, same, nonzero, rfl⟩
          · cases here
        · cases here
      · cases here
    · obtain ⟨contained, shape⟩ := ih later
      exact ⟨contained.trans (List.suffix_cons _ _), shape⟩

/-- A fault that is only found at the end of a pattern is an open group, or the first
backreference to a group that the pattern does not open. -/
theorem Progress.finish_fault {fault : Fault} (read : Progress.start.readAll source = .ok last)
    (failed : last.finish = .error fault) : fault.Within source source := by
  unfold Progress.finish at failed
  split at failed
  · next group pending innermost =>
    cases failed
    have none : Progress.start.PendingIn source := fun group member => nomatch member
    obtain ⟨contained, marks⟩ := pendingIn_readAll List.suffix_rfl none read group
      (by rw [innermost]; exact List.mem_cons_self ..)
    exact ⟨contained, marks⟩
  · split at failed
    · next reference undefined =>
      cases failed
      have notes := notes_readAll read
      have groups : opened source = last.groups := by
        simpa [Progress.start, opened, exposed] using notes.groups
      have references : backreferences .bare source = last.references.toList := by
        simpa [Progress.start, backreferences] using notes.references
      rw [← Array.find?_toList, ← references, ← groups] at undefined
      obtain ⟨above, earlier, later, split, defined⟩ :=
        List.find?_eq_some_iff_append.mp undefined
      obtain ⟨contained, shape⟩ :=
        site_of_mem_backreferences (List.mem_of_find?_eq_some undefined)
      refine ⟨contained, shape, of_decide_eq_true above, earlier, later, split, ?_⟩
      intro other member
      simpa using defined other member
    · cases failed

end Notes

theorem parse_eq_error {source : String} {error : ParseError} :
    parse source = .error error ↔
      ∃ fault, parseChars source.toList = .error fault ∧ fault.within source.toList = error := by
  unfold parse
  cases parseChars source.toList with
  | error fault => simp [Except.mapError]
  | ok parsed => simp [Except.mapError]

theorem parseChars_fault {source : List Char} {fault : Fault}
    (failed : parseChars source = .error fault) : fault.Within source source := by
  rcases bind_eq_error.mp failed with stopped | ⟨last, read, ended⟩
  · exact Progress.readAll_fault stopped
  · exact Progress.finish_fault read ended

/-- Wherever a pattern is at fault, the error points at a character of it, and what stands there
shows the fault. -/
theorem parse_error_marks {source : String} {error : ParseError}
    (failed : parse source = .error error) :
    error.position < source.toList.length ∧
      error.cause.Marks source.toList (source.toList.drop error.position) := by
  obtain ⟨⟨cause, site⟩, found, rfl⟩ := parse_eq_error.mp failed
  obtain ⟨⟨before, split⟩, marks⟩ := parseChars_fault found
  rw [← split] at marks ⊢
  rw [Fault.within_append, List.drop_left]
  have nonempty := List.length_pos_of_ne_nil marks.ne_nil
  exact ⟨by simpa using nonempty, marks⟩

/-- An escaped parenthesis and one in a bracket open no groups, so the second backreference is the
first at fault. -/
theorem parse_error_marks_hidden :
    parse "[(]\\((a)\\1\\2\\3" = .error ⟨.undefinedBackreference 2, 10⟩ ∧
      (Cause.undefinedBackreference 2).Marks "[(]\\((a)\\1\\2\\3".toList "\\2\\3".toList := by
  have failed : parse "[(]\\((a)\\1\\2\\3" = .error ⟨.undefinedBackreference 2, 10⟩ := by
    decide +kernel
  exact ⟨failed, (parse_error_marks failed).2⟩

end PatternSearch
