import PatternSearch.Proofs.Parse.Advance
import PatternSearch.Proofs.Parse.Readers
import PatternSearch.Proofs.Parse.Settled

/-! The routines read a pattern as the pass from left to right does. What the routines have called
but not finished is on the stack of open groups, so an alternation starts on a fresh level and ends
when that level can be closed. -/

namespace PatternSearch

def Progress.cursor (progress : Progress) (pattern rest : List Char) : Cursor where
  position := pattern.length - rest.length
  groups := progress.groups
  references := progress.references.toList.map fun reference =>
    (reference.group, pattern.length - reference.site.length)

namespace Descent

variable {pattern input rest : List Char} {progress next : Progress} {c : Char} {item : Expr}
  {limit : Nat} {inner : Routine Expr}

theorem cursor_eq_before (progress : Progress) :
    progress.cursor pattern rest = (progress.cursor pattern rest).before pattern rest := rfl

theorem cursor_addReference (reference : Reference) :
    (progress.addReference reference).cursor pattern rest =
      (progress.cursor pattern rest).addReference reference.group
        (pattern.length - reference.site.length) := by
  simp [Progress.cursor, Progress.addReference, Cursor.addReference]

theorem escape_reads (contained : '\\' :: rest <:+ pattern) :
    escape pattern (progress.cursor pattern ('\\' :: rest)) =
      answer (Fault.within · pattern)
        (fun item => (progress.noteReference item ('\\' :: rest)).cursor pattern)
        (readAtom '\\' rest) := by
  have behind := (List.suffix_cons '\\' rest).trans contained
  unfold escape
  rw [cursor_eq_before, bind_position, bind_advance_before contained, bind_current,
    current_before behind]
  cases rest with
  | nil => rfl
  | cons d beyond =>
    simp only [List.head?_cons]
    rw [bind_advance_before behind]
    unfold readAtom
    rw [if_pos rfl]
    dsimp only
    cases readEscape d with
    | none => rfl
    | some item =>
      cases item with
      | backreference group =>
        simp only [answer, Progress.noteReference, cursor_addReference]
        rfl
      | _ => rfl

theorem atom_reads (inner : Routine Expr) (enough : pattern.length < limit)
    (progress : Progress) (contained : c :: rest <:+ pattern) (other : c ≠ '(') :
    atom pattern limit inner (progress.cursor pattern (c :: rest)) =
      answer (Fault.within · pattern)
        (fun item => (progress.noteReference item (c :: rest)).cursor pattern)
        (readAtom c rest) := by
  rw [cursor_eq_before, atom, bind_position, bind_current, current_before contained,
    List.head?_cons]
  dsimp only
  by_cases backslash : c = '\\'
  · subst backslash
    exact escape_reads contained
  · unfold readAtom
    rw [if_neg backslash, if_neg backslash]
    by_cases opening : c = '['
    · subst opening
      rw [if_pos rfl, if_pos rfl, bracket_before _ enough contained]
      cases readBracket ('[' :: rest) rest <;> rfl
    · rw [if_neg opening, if_neg opening, if_neg other]
      by_cases starts : startsQuantifier c
      · rw [if_pos starts, if_pos starts]
        rfl
      · rw [if_neg starts, if_neg starts, bind_advance_before contained]
        split_ifs <;> rfl

theorem atom_opening (limit : Nat) (contained : '(' :: rest <:+ pattern) :
    atom pattern limit inner (progress.cursor pattern ('(' :: rest)) =
      group pattern inner (progress.cursor pattern ('(' :: rest)) := by
  rw [cursor_eq_before, atom, bind_position, bind_current, current_before contained]
  rfl

/-- The reading has got from the one to the other, and the cursor stands where it is now. -/
structure Lands (pattern : List Char) (progress : Progress) (input : List Char) (after : Cursor)
    (next : Progress) (rest : List Char) : Prop where
  same : progress.readAll input = next.readAll rest
  contained : rest <:+ input
  cursor : after = next.cursor pattern rest
  pending : next.pending = progress.pending

def Refuses (pattern : List Char) (progress : Progress) (input : List Char)
    (error : ParseError) : Prop :=
  ∃ fault : Fault, (progress.readAll input >>= Progress.finish) = .error fault ∧
    fault.within pattern = error

theorem Refuses.of_readAll {error : ParseError} (refuses : Refuses pattern next rest error)
    (same : progress.readAll input = next.readAll rest) : Refuses pattern progress input error := by
  unfold Refuses
  rw [same]
  exact refuses

theorem ends_of_readAll {α : Type} {outcome : Except Stop (α × Cursor)}
    {post : α → Cursor → Prop} (ended : Ends outcome post (Refuses pattern next rest))
    (same : progress.readAll input = next.readAll rest) :
    Ends outcome post (Refuses pattern progress input) :=
  ended.mono (fun _ _ holds => holds) fun _ refuses => refuses.of_readAll same

theorem refuses_of_step {fault : Fault} (failed : progress.step c rest = .error fault) :
    Refuses pattern progress (c :: rest) (fault.within pattern) := by
  refine ⟨fault, ?_, rfl⟩
  rw [Progress.readAll_error failed]
  rfl

theorem step_closing {innermost : OpenGroup} {others : List OpenGroup}
    (pending : progress.pending = innermost :: others) (rest : List Char) :
    progress.step ')' rest =
      quantify (.group innermost.index progress.level.close) rest >>= fun (item, beyond) =>
        .ok ({ progress with level := innermost.outer.addItem item, pending := others },
          beyond) := by
  simp only [Progress.step, pending, Char.reduceEq, if_false, if_true]
  rfl

theorem step_atom (progress : Progress) (outside : c ≠ '|' ∧ c ≠ '(' ∧ c ≠ ')') (rest : List Char) :
    progress.step c rest = readAtom c rest >>= fun (atom, after) =>
      quantify atom after >>= fun (item, beyond) =>
        .ok ((progress.noteReference atom (c :: rest)).addItem item, beyond) := by
  obtain ⟨bar, opening, closing⟩ := outside
  simp only [Progress.step, if_neg bar, if_neg opening, if_neg closing]
  rfl

theorem Lands.refl : Lands pattern progress input (progress.cursor pattern input) progress input :=
  ⟨rfl, List.suffix_rfl, rfl, rfl⟩

theorem Lands.trans {middle last : Cursor} {further : Progress} {final : List Char}
    (first : Lands pattern progress input middle next rest)
    (second : Lands pattern next rest last further final) :
    Lands pattern progress input last further final :=
  ⟨first.same.trans second.same, second.contained.trans first.contained, second.cursor,
    second.pending.trans first.pending⟩

theorem lands_step (pattern : List Char) {beyond : List Char}
    (stepped : progress.step c rest = .ok (next, beyond))
    (pending : next.pending = progress.pending) :
    Lands pattern progress (c :: rest) (next.cursor pattern beyond) next beyond :=
  ⟨Progress.readAll_step stepped, (Progress.step_suffix stepped).trans (List.suffix_cons _ _), rfl,
    pending⟩

def Reaches (pattern : List Char) (progress : Progress) (input : List Char)
    (condition : Progress → List Char → Prop) (after : Cursor) : Prop :=
  ∃ next rest, Lands pattern progress input after next rest ∧ condition next rest

theorem Lands.reaches {middle after : Cursor} {condition : Progress → List Char → Prop}
    (lands : Lands pattern progress input middle next rest)
    (reaches : Reaches pattern next rest condition after) :
    Reaches pattern progress input condition after := by
  obtain ⟨last, left, further, holds⟩ := reaches
  exact ⟨last, left, lands.trans further, holds⟩

def ItemReads (pattern : List Char) (progress : Progress) (c : Char) (rest : List Char)
    (item : Expr) : Cursor → Prop :=
  Reaches pattern progress (c :: rest) fun next beyond =>
    beyond <:+ rest ∧ next.level = progress.level.addItem item

def StopsBranch (rest : List Char) : Prop :=
  ∀ c ∈ rest.head?, c = '|' ∨ c = ')'

def BranchEnds (pattern : List Char) (progress : Progress) (input : List Char) (branch : Expr) :
    Cursor → Prop :=
  Reaches pattern progress input fun next rest =>
    next.level.endBranch.branches = progress.level.branches.push branch ∧ StopsBranch rest

def LevelCloses (pattern : List Char) (progress : Progress) (input : List Char) (expr : Expr) :
    Cursor → Prop :=
  Reaches pattern progress input fun next rest =>
    next.level.close = expr ∧ ∀ c ∈ rest.head?, c = ')'

def ReadsLevel (pattern : List Char) (routine : Routine Expr) (input : List Char) : Prop :=
  ∀ progress : Progress, progress.level = .empty → input <:+ pattern →
    Ends (routine (progress.cursor pattern input)) (LevelCloses pattern progress input)
      (Refuses pattern progress input)

/-- The closing parenthesis is left to a step that reads the quantifier with it. -/
theorem group_reads (progress : Progress) (contained : '(' :: rest <:+ pattern)
    (level : ReadsLevel pattern inner rest) :
    Ends (group pattern inner (progress.cursor pattern ('(' :: rest)))
      (fun item after => ∃ (next : Progress) (beyond : List Char),
        progress.readAll ('(' :: rest) = next.readAll (')' :: beyond) ∧ ')' :: beyond <:+ rest ∧
        after = next.cursor pattern beyond ∧
        next.pending = ⟨progress.groups + 1, '(' :: rest, progress.level⟩ :: progress.pending ∧
        item = .group (progress.groups + 1) next.level.close)
      (Refuses pattern progress ('(' :: rest)) := by
  have behind := (List.suffix_cons '(' rest).trans contained
  have opened : progress.step '(' rest = .ok (progress.openGroup ('(' :: rest), rest) := rfl
  have same := Progress.readAll_step opened
  unfold group
  rw [cursor_eq_before, bind_position, bind_advance_before contained, bind_openGroup]
  have read := level (progress.openGroup ('(' :: rest)) rfl behind
  refine (ends_of_readAll read same).bind ?_
  rintro expr after ⟨next, last, lands, rfl, ended⟩
  have inside := lands.contained.trans behind
  rw [lands.cursor, cursor_eq_before next]
  cases last with
  | nil =>
    -- The group is still on the stack, in front of those around it.
    rw [bind_eat_other inside (by simp)]
    refine ⟨⟨.unterminatedGroup, '(' :: rest⟩, ?_, rfl⟩
    rw [same, lands.same, Progress.readAll]
    change next.finish = _
    rw [Progress.finish, lands.pending]
    rfl
  | cons d beyond =>
    obtain rfl : d = ')' := ended d rfl
    rw [bind_eat_same inside]
    exact ⟨next, beyond, same.trans lands.same, lands.contained, rfl, lands.pending, rfl⟩

theorem quantified_group (enough : pattern.length < limit) (progress : Progress)
    (contained : '(' :: rest <:+ pattern) (level : ReadsLevel pattern inner rest) :
    Ends (quantified pattern limit inner (progress.cursor pattern ('(' :: rest)))
      (ItemReads pattern progress '(' rest) (Refuses pattern progress ('(' :: rest)) := by
  have read := group_reads progress contained level
  rw [← atom_opening limit contained] at read
  refine read.bind ?_
  rintro item after ⟨next, beyond, same, inside, rfl, pending, rfl⟩
  have behind := ((List.suffix_cons _ _).trans inside).trans
    ((List.suffix_cons _ _).trans contained)
  have stepped := step_closing pending beyond
  rw [cursor_eq_before, repeated_before _ enough behind]
  cases closed : quantify (.group (progress.groups + 1) next.level.close) beyond with
  | error fault =>
    rw [closed] at stepped
    exact (refuses_of_step stepped).of_readAll same
  | ok found =>
    rw [closed] at stepped
    have contained := (quantify_suffix closed).trans ((List.suffix_cons _ _).trans inside)
    exact ⟨_, found.2, ⟨same.trans (Progress.readAll_step stepped),
      contained.trans (List.suffix_cons _ _), rfl, rfl⟩, contained, rfl⟩

theorem quantified_atom (inner : Routine Expr) (enough : pattern.length < limit)
    (progress : Progress) (contained : c :: rest <:+ pattern)
    (outside : c ≠ '|' ∧ c ≠ '(' ∧ c ≠ ')') :
    Ends (quantified pattern limit inner (progress.cursor pattern (c :: rest)))
      (ItemReads pattern progress c rest) (Refuses pattern progress (c :: rest)) := by
  have read := atom_reads inner enough progress contained outside.2.1
  have stepped := step_atom progress outside rest
  unfold quantified
  cases first : readAtom c rest with
  | error fault =>
    rw [first] at read stepped
    rw [bind_stopped read]
    exact refuses_of_step stepped
  | ok found =>
    obtain ⟨atom, after⟩ := found
    rw [first] at read stepped
    have shorter := readAtom_suffix first
    rw [bind_found read]
    dsimp only
    rw [cursor_eq_before,
      repeated_before _ enough (shorter.trans ((List.suffix_cons _ _).trans contained))]
    cases quantified : quantify atom after with
    | error fault =>
      simp only [bind, Except.bind, quantified] at stepped
      exact refuses_of_step stepped
    | ok found =>
      simp only [bind, Except.bind, quantified] at stepped
      refine ⟨(progress.noteReference atom (c :: rest)).addItem found.1, found.2,
        lands_step pattern stepped ?_, (quantify_suffix quantified).trans shorter, ?_⟩
      · exact Progress.pending_noteReference
      · exact congrArg (Level.addItem · found.1) Progress.level_noteReference

theorem quantified_reads (enough : pattern.length < limit) (progress : Progress)
    (contained : c :: rest <:+ pattern) (outside : c ≠ '|' ∧ c ≠ ')')
    (level : ReadsLevel pattern inner rest) :
    Ends (quantified pattern limit inner (progress.cursor pattern (c :: rest)))
      (ItemReads pattern progress c rest) (Refuses pattern progress (c :: rest)) := by
  by_cases opening : c = '('
  · subst opening
    exact quantified_group enough progress contained level
  · exact quantified_atom inner enough progress contained ⟨outside.1, opening, outside.2⟩

section Level

variable (enough : pattern.length < limit)
  (levels : ∀ shorter : List Char, shorter.length < input.length →
    ReadsLevel pattern inner shorter)
include enough levels

theorem itemTurn_reads (progress : Progress) (contained : input <:+ pattern) :
    Ends (itemTurn pattern limit inner progress.level.items (progress.cursor pattern input))
      (Turn.Holds
        (fun read => Reaches pattern progress input fun next rest =>
          rest.length < input.length ∧ read = next.level.items ∧
            next.level.branches = progress.level.branches)
        (BranchEnds pattern progress input))
      (Refuses pattern progress input) := by
  unfold itemTurn
  rw [cursor_eq_before, bind_current, current_before contained]
  cases input with
  | nil => exact ⟨progress, [], .refl, rfl, nofun⟩
  | cons c rest =>
    dsimp only [List.head?_cons]
    split
    · next ended =>
      exact ⟨progress, c :: rest, .refl, rfl, by simpa [StopsBranch] using ended⟩
    · next outside =>
      simp only [Bool.or_eq_true, decide_eq_true_eq, not_or] at outside
      have level := levels rest (Nat.lt_succ_self _)
      refine (quantified_reads enough progress contained outside level).bind ?_
      rintro item after ⟨next, beyond, lands, inside, level⟩
      refine ⟨next, beyond, lands, Nat.lt_succ_of_le inside.length_le, ?_, ?_⟩
      · rw [level]
        rfl
      · rw [level]
        rfl

theorem sequence_reads (progress : Progress) (contained : input <:+ pattern)
    (fresh : progress.level.items = #[]) :
    Ends (sequence pattern limit inner (progress.cursor pattern input))
      (BranchEnds pattern progress input) (Refuses pattern progress input) := by
  let ready (left : Nat) (read : Array Expr) : Cursor → Prop :=
    Reaches pattern progress input fun next rest => rest.length = left ∧
      read = next.level.items ∧ next.level.branches = progress.level.branches
  have first : ready input.length #[] (progress.cursor pattern input) :=
    ⟨progress, input, .refl, rfl, fresh.symm, rfl⟩
  refine loop_ends ready ?_ first (Nat.lt_of_le_of_lt contained.length_le enough)
  rintro left read start ⟨next, rest, lands, rfl, rfl, branches⟩
  have shorter := lands.contained.length_le
  have turned := itemTurn_reads enough (fun other less => levels other (by omega)) next
    (lands.contained.trans contained)
  rw [lands.cursor]
  refine (ends_of_readAll turned lands.same).imp ?_
  rintro (read | branch) after reaches
  · obtain ⟨last, beyond, further, fewer, items, same⟩ := reaches
    exact ⟨_, fewer, last, beyond, lands.trans further, rfl, items, same.trans branches⟩
  · obtain ⟨last, beyond, further, ended, stops⟩ := reaches
    exact ⟨last, beyond, lands.trans further, branches ▸ ended, stops⟩

theorem branchTurn_reads (progress : Progress) (contained : input <:+ pattern)
    (stops : StopsBranch input) :
    Ends (branchTurn pattern limit inner progress.level.endBranch.branches
        (progress.cursor pattern input))
      (Turn.Holds
        (fun read => Reaches pattern progress input fun next rest =>
          rest.length < input.length ∧ read = next.level.endBranch.branches ∧
            StopsBranch rest)
        (LevelCloses pattern progress input))
      (Refuses pattern progress input) := by
  unfold branchTurn
  rw [cursor_eq_before]
  by_cases bar : input.head? = some '|'
  · obtain ⟨tail, rfl⟩ := List.head?_eq_some_iff.mp bar
    have behind := (List.suffix_cons '|' tail).trans contained
    have stepped : progress.step '|' tail = .ok (progress.endBranch, tail) := rfl
    have lands := lands_step pattern stepped rfl
    rw [bind_eat_same contained, if_pos rfl]
    have read := sequence_reads enough
      (fun other less => levels other (Nat.lt_succ_of_lt less)) progress.endBranch behind rfl
    refine (ends_of_readAll read lands.same).bind ?_
    rintro branch after ⟨next, beyond, further, ended, stops⟩
    exact ⟨next, beyond, lands.trans further, Nat.lt_succ_of_le further.contained.length_le,
      ended.symm, stops⟩
  · rw [bind_eat_other contained bar]
    refine ⟨progress, input, .refl, rfl, fun c first => ?_⟩
    rcases stops c first with rfl | closing
    · exact absurd first bar
    · exact closing

theorem branches_read (progress : Progress) (contained : input <:+ pattern)
    (stops : StopsBranch input) :
    Ends (loop (branchTurn pattern limit inner) limit progress.level.endBranch.branches
        (progress.cursor pattern input))
      (LevelCloses pattern progress input) (Refuses pattern progress input) := by
  let ready (left : Nat) (read : Array Expr) : Cursor → Prop :=
    Reaches pattern progress input fun next rest => rest.length = left ∧
      read = next.level.endBranch.branches ∧ StopsBranch rest
  have first : ready input.length progress.level.endBranch.branches
      (progress.cursor pattern input) := ⟨progress, input, .refl, rfl, rfl, stops⟩
  refine loop_ends ready ?_ first (Nat.lt_of_le_of_lt contained.length_le enough)
  rintro left read start ⟨next, rest, lands, rfl, rfl, stops⟩
  have shorter := lands.contained.length_le
  have turned := branchTurn_reads enough (fun other less => levels other (by omega)) next
    (lands.contained.trans contained) stops
  rw [lands.cursor]
  refine (ends_of_readAll turned lands.same).imp ?_
  rintro (read | expr) after reaches
  · obtain ⟨last, beyond, further, fewer, branches, stops⟩ := reaches
    exact ⟨_, fewer, last, beyond, lands.trans further, rfl, branches, stops⟩
  · exact lands.reaches reaches

theorem alternation_reads : ReadsLevel pattern (alternation pattern limit inner) input := by
  intro progress fresh contained
  have read := sequence_reads enough levels progress contained (congrArg Level.items fresh)
  unfold alternation
  refine read.bind ?_
  rintro branch after ⟨next, rest, lands, ended, stops⟩
  have fewer := lands.contained.length_le
  have further := branches_read enough (fun other less => levels other (by omega)) next
    (lands.contained.trans contained) stops
  rw [ended, fresh] at further
  rw [lands.cursor]
  exact (ends_of_readAll further lands.same).imp fun _ _ closes => lands.reaches closes

end Level

theorem nested_reads (enough : pattern.length < limit) {depth : Nat}
    (deep : input.length < depth) : ReadsLevel pattern (nested pattern limit depth) input := by
  induction depth generalizing input with
  | zero => exact absurd deep (Nat.not_lt_zero _)
  | succ depth ih =>
    exact alternation_reads enough fun shorter less => ih (by omega)

theorem wholePattern_reads (enough : pattern.length < limit) :
    Ends (wholePattern pattern limit .start) (fun parsed _ => parseChars pattern = .ok parsed)
      fun error => ∃ fault : Fault, parseChars pattern = .error fault ∧
        fault.within pattern = error := by
  have first : Cursor.start = Progress.start.cursor pattern pattern := by
    simp [Cursor.start, Progress.cursor, Progress.start]
  have read := nested_reads enough enough Progress.start rfl List.suffix_rfl
  unfold wholePattern
  rw [first]
  refine read.bind ?_
  rintro expr after ⟨next, rest, lands, rfl, closing⟩
  have outermost : next.pending = [] := lands.pending
  rw [lands.cursor, cursor_eq_before, bind_current, current_before lands.contained]
  cases rest with
  | cons d beyond =>
    obtain rfl : d = ')' := closing d rfl
    have stuck : next.step ')' beyond = .error ⟨.unmatchedParen, ')' :: beyond⟩ := by
      simp only [Progress.step, outermost, Char.reduceEq, if_false, if_true]
    exact (refuses_of_step stuck).of_readAll lands.same
  | nil =>
    have whole : parseChars pattern = next.finish := by
      rw [parseChars, lands.same, Progress.readAll]
      rfl
    have same : (next.cursor pattern []).references.find?
          ((next.cursor pattern []).groups < ·.1) =
        (next.references.find? (next.groups < ·.group)).map fun reference =>
          (reference.group, pattern.length - reference.site.length) := by
      rw [Progress.cursor, List.find?_map, ← Array.find?_toList]
      rfl
    rw [if_neg (by simp), bind_get, ← cursor_eq_before, same]
    cases undefined : next.references.find? (next.groups < ·.group) with
    | none =>
      refine whole.trans ?_
      rw [Progress.finish, outermost, undefined]
      rfl
    | some reference =>
      refine ⟨⟨.undefinedBackreference reference.group, reference.site⟩, whole.trans ?_, rfl⟩
      rw [Progress.finish, outermost, undefined]

/-- The routines come to the result of the one pass. -/
theorem parse_eq (enough : pattern.length < limit) :
    parse pattern limit = (PatternSearch.parse (String.ofList pattern)).mapError .refused := by
  have read := wholePattern_reads enough
  have result : PatternSearch.parse (String.ofList pattern) =
      (parseChars pattern).mapError (·.within pattern) := by
    rw [PatternSearch.parse, String.toList_ofList]
  rw [result]
  change (·.1) <$> wholePattern pattern limit .start = _
  revert read
  rcases wholePattern pattern limit .start with (error | _ | _) | ⟨parsed, last⟩
  · rintro ⟨fault, failed, rfl⟩
    rw [failed]
    rfl
  · exact False.elim
  · exact False.elim
  · intro (read : parseChars pattern = .ok parsed)
    rw [read]
    rfl

/-- Every routine ends within limits above the length of the pattern, in front of what it has not
read, and has only opened groups and met backreferences. A quantified item and each turn of the
loops over a bracket and over the digits of a bound pass a character. So a pattern is read to its
end or to a fault, and no character is taken from behind its end. -/
theorem routines_advance (pattern : List Char) (limit : Nat) (enough : pattern.length < limit) :
    (∀ (start : Cursor) (depth : Nat), start.position ≤ pattern.length →
      pattern.length - start.position ≤ depth →
      (∀ (α : Type) (routine : Routine α),
        Called pattern limit (nested pattern limit depth) start α routine →
          Leading pattern routine start) ∧
      (∀ c, pattern[start.position]? = some c →
        Passing pattern (quantified pattern limit (nested pattern limit depth)) start) ∧
      (∀ opening read, Passing pattern (bracketTurn pattern opening read) start) ∧
      ∀ opening value, Proceeding pattern (digitTurn pattern opening value) start) ∧
    parse pattern limit = (PatternSearch.parse (String.ofList pattern)).mapError .refused := by
  refine ⟨fun start depth inside deep => ⟨?_, ?_, ?_, ?_⟩, parse_eq enough⟩
  · exact fun α routine called => called.leading enough (groupsEnd_nested enough deep) inside
  · exact fun c there => quantified_passing enough (groupsEnd_nested enough deep) there
  · exact fun opening read => bracketTurn_passing opening read
  · exact fun opening value => digitTurn_proceeding inside opening value

theorem routines_advance_repeated_reference :
    Called "(a)\\1{2}".toList 9 (nested "(a)\\1{2}".toList 9 8) .start Expr
        (alternation "(a)\\1{2}".toList 9 (nested "(a)\\1{2}".toList 9 8)) ∧
      Leading "(a)\\1{2}".toList
        (alternation "(a)\\1{2}".toList 9 (nested "(a)\\1{2}".toList 9 8)) .start ∧
      Passing "(a)\\1{2}".toList
        (quantified "(a)\\1{2}".toList 9 (nested "(a)\\1{2}".toList 9 8)) .start ∧
      (alternation "(a)\\1{2}".toList 9 (nested "(a)\\1{2}".toList 9 8) .start).map Prod.snd =
        .ok ⟨8, 1, [(1, 3)]⟩ := by
  have advance := (routines_advance "(a)\\1{2}".toList 9 (by decide)).1 .start 8 (by decide)
    (by decide)
  exact ⟨.alternation, advance.1 _ _ .alternation, advance.2.1 '(' rfl, rfl⟩

end Descent

end PatternSearch
