import PatternSearch.Proofs.Grammar.Composition
import PatternSearch.Proofs.Parse.Continuations

/-! The first fault decides. A fault that does not come from the end of a pattern stays when more
text stands behind the pattern. A backreference to a group that does not open is found last, when
everything else is in order, so enough groups behind the pattern mend it. -/

namespace PatternSearch

section Steps

variable {progress next : Progress} {atom : Expr} {c : Char} {input rest beyond : List Char}
  {fault : Fault}

theorem readAtom_append (outside : c ∉ ['|', '(', ')']) (read : readAtom c rest = .ok (atom, beyond))
    (more : List Char) : readAtom c (rest ++ more) = .ok (atom, beyond ++ more) := by
  rcases Grammar.leaf_of_readAtom outside read with ⟨anchor, rfl, rigid⟩ | ⟨leaf, spelled⟩
  · rcases anchor with rfl | rfl <;> cases read <;> rfl
  · obtain ⟨d, tail, written, _, _, reads⟩ := leaf.readsBack
    rw [written, List.cons_append] at spelled
    obtain ⟨rfl, rfl⟩ := List.cons.inj spelled
    rw [List.append_assoc, reads, (ok_unique (reads beyond) read).1]

theorem readAtom_error_append (failed : readAtom c rest = .error fault)
    (settled : fault.cause.Settled) (more : List Char) :
    readAtom c (rest ++ more) = .error (fault.extend more) := by
  unfold readAtom at failed ⊢
  split at failed
  · next backslash =>
    rw [if_pos backslash]
    split at failed
    · cases failed
      cases settled
    · split at failed
      · cases failed
      · next unknown =>
        cases failed
        simp only [List.cons_append, unknown]
        rfl
  · next noEscape =>
    rw [if_neg noEscape]
    split at failed
    · next opening =>
      rw [if_pos opening]
      rcases bind_eq_error.mp failed with bracket | ⟨⟨test, behind⟩, _, failed⟩
      · rw [readBracket_error_append bracket settled]
        rfl
      · cases failed
    · next noBracket =>
      rw [if_neg noBracket]
      split at failed
      · next starts =>
        cases failed
        exact if_pos starts
      · split at failed
        · cases failed
        · split at failed
          · cases failed
          · split at failed <;> cases failed

namespace Progress

def extend (progress : Progress) (more : List Char) : Progress :=
  { progress with
    pending := progress.pending.map fun group => { group with site := group.site ++ more }
    references := progress.references.map fun reference =>
      { reference with site := reference.site ++ more } }

theorem extend_noteReference (progress : Progress) (atom : Expr) (site more : List Char) :
    (progress.noteReference atom site).extend more =
      (progress.extend more).noteReference atom (site ++ more) := by
  cases atom with
  | backreference group => simp [noteReference, extend, addReference]
  | _ => rfl

theorem pending_extend {group : OpenGroup} {pending : List OpenGroup}
    (innermost : progress.pending = group :: pending) (more : List Char) :
    (progress.extend more).pending = { group with site := group.site ++ more } ::
      pending.map fun group => { group with site := group.site ++ more } := by
  rw [extend, innermost, List.map_cons]

theorem step_append (stepped : progress.step c rest = .ok (next, beyond)) (ended : beyond ≠ [])
    (more : List Char) :
    (progress.extend more).step c (rest ++ more) = .ok (next.extend more, beyond ++ more) := by
  cases stepsTo stepped with
  | bar => rfl
  | opening => rfl
  | closing innermost closed =>
    have read := quantify_append closed ended more
    simp only [step, Char.reduceEq, if_true, if_false, pending_extend innermost]
    change (quantify (.group _ progress.level.close) (rest ++ more) >>= _) = _
    rw [read]
    rfl
  | atom outside first quantified =>
    have further := quantify_append quantified ended more
    simp only [List.mem_cons, List.not_mem_nil, or_false, not_or] at outside
    obtain ⟨bar, opening, closing⟩ := outside
    have read := readAtom_append (by simp [bar, opening, closing]) first more
    simp only [step, if_neg bar, if_neg opening, if_neg closing, read, further, bind, Except.bind]
    rw [← List.cons_append, ← extend_noteReference]
    rfl

theorem step_error_append (failed : progress.step c rest = .error fault)
    (settled : fault.cause.Settled) (more : List Char) :
    (progress.extend more).step c (rest ++ more) = .error (fault.extend more) := by
  unfold step at failed
  split at failed
  · cases failed
  · next noBar =>
    split at failed
    · cases failed
    · next noOpening =>
      split at failed
      · next closes =>
        rw [step, if_neg noBar, if_neg noOpening, if_pos closes]
        split at failed
        · next outermost =>
          cases failed
          simp only [extend, outermost, List.map_nil]
          rfl
        · next group pending innermost =>
          rcases bind_eq_error.mp failed with closed | ⟨⟨item, behind⟩, _, failed⟩
          · simp only [pending_extend innermost]
            change (quantify (.group _ progress.level.close) (rest ++ more) >>= _) = _
            rw [quantify_error_append closed settled]
            rfl
          · cases failed
      · next noClosing =>
        rw [step, if_neg noBar, if_neg noOpening, if_neg noClosing]
        rcases bind_eq_error.mp failed with first | ⟨⟨atom, after⟩, first, failed⟩
        · rw [readAtom_error_append first settled]
          rfl
        · rw [readAtom_append (by simp [noBar, noOpening, noClosing]) first]
          rcases bind_eq_error.mp failed with quantified | ⟨⟨item, behind⟩, _, failed⟩
          · change (quantify atom (after ++ more) >>= _) = _
            rw [quantify_error_append quantified settled]
            rfl
          · cases failed

theorem readAll_error (failed : progress.step c rest = .error fault) :
    progress.readAll (c :: rest) = .error fault := by
  rw [readAll]
  split
  · next found =>
    rw [failed] at found
    cases found
    rfl
  · next stepped =>
    rw [failed] at stepped
    cases stepped

/-- A fault that stays is met before the text ends, so no step before it has come to the end. -/
theorem readAll_error_append (failed : progress.readAll input = .error fault)
    (settled : fault.cause.Settled) (more : List Char) :
    (progress.extend more).readAll (input ++ more) = .error (fault.extend more) := by
  fun_induction Progress.readAll progress input with
  | case1 => cases failed
  | case2 progress c rest other stepped =>
    cases failed
    exact readAll_error (step_error_append stepped settled more)
  | case3 progress c rest next beyond stepped ih =>
    have ended : beyond ≠ [] := by
      rintro rfl
      rw [readAll] at failed
      cases failed
    rw [List.cons_append, readAll_step (step_append stepped ended more)]
    exact ih failed

end Progress

end Steps

/-- A fault that stays is found by a step, for those that the end of a pattern shows do not stay. -/
theorem readAll_of_settled {source : List Char} {fault : Fault}
    (failed : parseChars source = .error fault) (settled : fault.cause.Settled) :
    Progress.start.readAll source = .error fault := by
  rcases bind_eq_error.mp failed with stopped | ⟨last, _, ended⟩
  · exact stopped
  · unfold Progress.finish at ended
    split at ended
    · cases ended
      cases settled
    · split at ended <;> cases ended
      cases settled

theorem parse_append_of_settled {source : String} {error : ParseError}
    (failed : parse source = .error error) (settled : error.cause.Settled) (rest : String) :
    parse (source ++ rest) = .error error := by
  obtain ⟨fault, found, rfl⟩ := parse_eq_error.mp failed
  have read := Progress.readAll_error_append (readAll_of_settled found settled) settled rest.toList
  have fresh : Progress.start.extend rest.toList = .start := by
    simp [Progress.extend, Progress.start]
  rw [fresh] at read
  refine parse_eq_error.mpr ⟨fault.extend rest.toList, ?_, ?_⟩
  · rw [String.toList_append]
    exact bind_eq_error.mpr (.inl read)
  · simp [Fault.within, Fault.extend, Nat.add_sub_add_right]

section Mending

namespace Grammar

def Branch.hollow : Nat → Branch
  | 0 => .nil
  | count + 1 => .cons (.group (.single .nil) none) (hollow count)

theorem Branch.groups_hollow (count : Nat) : (hollow count).groups = count := by
  induction count with
  | zero => rfl
  | succ count ih =>
    rw [hollow, groups, ih]
    exact Nat.add_comm 1 count

theorem Branch.write_hollow (count : Nat) :
    (hollow count).write = (String.join (List.replicate count "()")).toList := by
  induction count with
  | zero => rfl
  | succ count ih =>
    rw [hollow, write, ih, List.replicate_succ, String.toList_join, String.toList_join,
      List.flatMap_cons]
    rfl

mutual

theorem Body.references_le : ∀ (body : Body), ∀ group ∈ body.references, group ≤ 9
  | .single branch => branch.references_le
  | .bar branch others => List.forall_mem_append.mpr ⟨branch.references_le, others.references_le⟩

theorem Branch.references_le : ∀ (branch : Branch), ∀ group ∈ branch.references, group ≤ 9
  | .nil => nofun
  | .cons item items => List.forall_mem_append.mpr ⟨item.references_le, items.references_le⟩

theorem Item.references_le : ∀ (item : Item), ∀ group ∈ item.references, group ≤ 9
  | .atStart => nofun
  | .atEnd => nofun
  | .leaf leaf _ => by
    cases leaf with
    | reference digit nonzero =>
      exact List.forall_mem_singleton.mpr (digitValue_digit nonzero.1 nonzero.2).2
    | _ => exact nofun
  | .group body _ => body.references_le

end

end Grammar

/-- A backreference is only found undefined when all of the pattern can be derived. -/
theorem body_of_undefined {source : List Char} {fault : Fault} {group : Nat}
    (failed : parseChars source = .error fault)
    (undefined : fault.cause = .undefinedBackreference group) :
    ∃ body : Grammar.Body, body.write = source := by
  rcases bind_eq_error.mp failed with stopped | ⟨last, read, ended⟩
  · -- What a step reports does not depend on the rest of the pattern, as this cause does.
    have marks := (@Progress.readAll_fault _ [] _ _ stopped).marks
    rw [undefined] at marks
    obtain ⟨_, _, earlier, later, split, _⟩ := marks
    cases earlier <;> cases split
  · apply Grammar.body_of_readAll read
    unfold Progress.finish at ended
    split at ended
    · cases ended
      cases undefined
    · assumption

theorem parse_mended {source : String} {group position : Nat}
    (failed : parse source = .error ⟨.undefinedBackreference group, position⟩) :
    ∃ parsed, parse (source ++ String.join (List.replicate 9 "()")) = .ok parsed := by
  obtain ⟨fault, found, same⟩ := parse_eq_error.mp failed
  obtain ⟨body, written⟩ := body_of_undefined found (congrArg ParseError.cause same)
  let mended := body.append (.single (.hollow 9))
  refine ⟨_, parse_of_body mended ?_ ?_⟩
  · rw [String.toList_append, ← written, body.write_append, Grammar.Body.write,
      Grammar.Branch.write_hollow]
  · intro reference member
    have digit := mended.references_le reference member
    rw [body.groups_append, Grammar.Body.groups, Grammar.Branch.groups_hollow]
    omega

end Mending

/-- The first fault decides: whatever follows a pattern, a fault that no end could have caused stays
where it is, and an undefined backreference is the only thing wrong with a pattern, for nine groups
behind it define whatever a digit can name. -/
theorem parse_error_settled :
    (∀ (source rest : String) (error : ParseError), parse source = .error error →
      error.cause.Settled → parse (source ++ rest) = .error error) ∧
    ∀ (source : String) (group position : Nat),
      parse source = .error ⟨.undefinedBackreference group, position⟩ →
        ∃ parsed, parse (source ++ String.join (List.replicate 9 "()")) = .ok parsed :=
  ⟨fun _ rest _ failed settled => parse_append_of_settled failed settled rest,
    fun _ _ _ failed => parse_mended failed⟩

/-- The bounds are reversed whatever follows, and the second group is there once it is opened. -/
theorem parse_error_settled_bounds :
    parse "(a){3,1}" = .error ⟨.invalidRepetition "minimum 3 exceeds maximum 1", 3⟩ ∧
      parse "(a){3,1}[)" = .error ⟨.invalidRepetition "minimum 3 exceeds maximum 1", 3⟩ ∧
      parse "(a)\\2" = .error ⟨.undefinedBackreference 2, 3⟩ ∧
      ∃ parsed, parse "(a)\\2()()()()()()()()()" = .ok parsed := by
  have reversed : parse "(a){3,1}" =
      .error ⟨.invalidRepetition "minimum 3 exceeds maximum 1", 3⟩ := by decide +kernel
  have undefined : parse "(a)\\2" = .error ⟨.undefinedBackreference 2, 3⟩ := by decide +kernel
  have settled : (Cause.invalidRepetition "minimum 3 exceeds maximum 1").Settled :=
    .inr (.inl ⟨3, 1, by decide⟩)
  exact ⟨reversed, parse_error_settled.1 "(a){3,1}" "[)" _ reversed settled, undefined,
    parse_error_settled.2 "(a)\\2" 2 3 undefined⟩

end PatternSearch
