import PatternSearch.Proofs.Parse.Continuations
import PatternSearch.Proofs.Parse.Routines

/-! Routines and readers. A routine that calls no alternation does in the pattern what a reader
does on the rest of the pattern: it takes the same characters for the same result, and it refuses
the pattern where the reader finds its fault. -/

namespace PatternSearch

def Cursor.before (cursor : Cursor) (pattern rest : List Char) : Cursor :=
  cursor.moveTo (pattern.length - rest.length)

namespace Descent

section Rests

variable {pattern input rest : List Char} {cursor : Cursor} {c : Char}

theorem getElem?_rest (contained : input <:+ pattern) (offset : Nat) :
    pattern[pattern.length - input.length + offset]? = input[offset]? := by
  obtain ⟨front, rfl⟩ := contained
  rw [List.length_append, Nat.add_sub_cancel, List.getElem?_append_right (Nat.le_add_right _ _),
    Nat.add_sub_cancel_left]

theorem current_before (contained : input <:+ pattern) :
    pattern[(cursor.before pattern input).position]? = input.head? :=
  (getElem?_rest contained 0).trans List.head?_eq_getElem?.symm

theorem peek_before (contained : input <:+ pattern) :
    pattern[(cursor.before pattern input).position + 1]? = input[1]? :=
  getElem?_rest contained 1

theorem pass_before (contained : c :: rest <:+ pattern) :
    (cursor.before pattern (c :: rest)).moveTo
      ((cursor.before pattern (c :: rest)).position + 1) = cursor.before pattern rest := by
  have bound := contained.length_le
  rw [List.length_cons] at bound
  have same : pattern.length - (rest.length + 1) + 1 = pattern.length - rest.length := by omega
  simp only [Cursor.before, Cursor.moveTo, List.length_cons, same]

theorem bind_advance_before {α : Type} (contained : c :: rest <:+ pattern)
    (next : Unit → Routine α) :
    (advance >>= next) (cursor.before pattern (c :: rest)) =
      next () (cursor.before pattern rest) := by
  rw [bind_advance, pass_before contained]

theorem bind_eat_same {α : Type} (contained : c :: rest <:+ pattern) (next : Bool → Routine α) :
    (eat pattern c >>= next) (cursor.before pattern (c :: rest)) =
      next true (cursor.before pattern rest) := by
  rw [bind_eat, current_before contained, if_pos List.head?_cons, pass_before contained]

theorem bind_eat_other {α : Type} (contained : input <:+ pattern) (other : input.head? ≠ some c)
    (next : Bool → Routine α) :
    (eat pattern c >>= next) (cursor.before pattern input) =
      next false (cursor.before pattern input) := by
  rw [bind_eat, current_before contained, if_neg other]

end Rests

/-- What a routine makes of what a reader finds: the cursor stands in front of what is left, and
a fault is told by its place. -/
def answer {α ε : Type} (located : ε → ParseError) (cursor : α → List Char → Cursor) :
    Except ε (α × List Char) → Except Stop (α × Cursor)
  | .ok (value, rest) => .ok (value, cursor value rest)
  | .error fault => .error (.refused (located fault))

section Answer

variable {α β ε : Type} {pattern : List Char} {located : ε → ParseError}
  {first : Routine α} {next : α → Routine β} {start : Cursor}
  {cursor : α → List Char → Cursor} {last : β → List Char → Cursor}

theorem answer_bind {read : Except ε (α × List Char)}
    {further : α × List Char → Except ε (β × List Char)}
    (answered : first start = answer located cursor read)
    (step : ∀ value rest, read = .ok (value, rest) →
      next value (cursor value rest) = answer located last (further (value, rest))) :
    (first >>= next) start = answer located last (read >>= further) := by
  cases read with
  | error fault => exact bind_stopped answered next
  | ok found => exact (bind_found answered next).trans (step found.1 found.2 rfl)

end Answer

/-! Bounds. -/

section Bounds

variable {pattern input rest : List Char} {limit : Nat} (cursor : Cursor) (opening : Nat)

def boundsError (opening : Nat) (fault : BoundsFault) : ParseError :=
  ⟨.invalidRepetition fault.reason, opening⟩

theorem digitTurn_digit {c : Char} (contained : c :: rest <:+ pattern) (digit : c.isDigit)
    (value : Nat) :
    digitTurn pattern opening value (cursor.before pattern (c :: rest)) =
      if 10 * value + digitValue c < boundLimit then
        .ok (.again (10 * value + digitValue c), cursor.before pattern rest)
      else .error (.refused (boundsError opening .tooLarge)) := by
  unfold digitTurn
  rw [bind_current, current_before contained, List.head?_cons, Option.filter_some_pos digit]
  dsimp only
  split
  · rw [bind_advance_before contained]
    rfl
  · rfl

theorem digitTurn_other (contained : input <:+ pattern)
    (other : input.head?.filter Char.isDigit = none) (value : Nat) :
    digitTurn pattern opening value (cursor.before pattern input) =
      .ok (.leave value, cursor.before pattern input) := by
  unfold digitTurn
  rw [bind_current, current_before contained, other]
  rfl

theorem loop_digits (contained : input <:+ pattern) (enough : input.length ≤ limit)
    (read : List Char) (fits : decimalValue read < boundLimit) :
    loop (digitTurn pattern opening) (limit + 1) (decimalValue read)
        (cursor.before pattern input) =
      answer (boundsError opening) (fun _ => cursor.before pattern)
        (if decimalValue (read ++ input.takeWhile Char.isDigit) < boundLimit then
          .ok (decimalValue (read ++ input.takeWhile Char.isDigit), input.dropWhile Char.isDigit)
        else .error .tooLarge) := by
  induction input generalizing read limit with
  | nil =>
    rw [List.takeWhile_nil, List.append_nil, if_pos fits, List.dropWhile_nil]
    exact loop_leave limit (digitTurn_other cursor opening contained rfl _)
  | cons c rest ih =>
    by_cases digit : c.isDigit
    · have value : 10 * decimalValue read + digitValue c = decimalValue (read ++ [c]) := by
        rw [decimalValue, decimalValue, List.foldl_append]
        rfl
      have turned := digitTurn_digit cursor opening contained digit (decimalValue read)
      rw [value] at turned
      rw [List.takeWhile_cons_of_pos digit, List.dropWhile_cons_of_pos digit,
        List.append_cons]
      by_cases small : decimalValue (read ++ [c]) < boundLimit
      · obtain ⟨fewer, rfl⟩ := Nat.exists_eq_add_one.mpr (Nat.zero_lt_of_lt enough)
        rw [if_pos small] at turned
        rw [loop_again _ turned]
        exact ih ((List.suffix_cons c rest).trans contained) (Nat.le_of_succ_le_succ enough)
          (read ++ [c]) small
      · have larger := decimalValue_le_append (read ++ [c]) (rest.takeWhile Char.isDigit)
        rw [if_neg small] at turned
        rw [loop_stopped _ turned, if_neg (by omega)]
        rfl
    · rw [List.takeWhile_cons_of_neg digit, List.dropWhile_cons_of_neg digit, List.append_nil,
        if_pos fits]
      exact loop_leave limit (digitTurn_other cursor opening contained (by simp [digit]) _)

theorem quantifier_other (contained : input <:+ pattern) (free : Unquantified input) :
    quantifier pattern limit (cursor.before pattern input) =
      .ok (none, cursor.before pattern input) := by
  unfold quantifier
  rw [bind_current, current_before contained]
  cases first : input.head? with
  | none => rfl
  | some c =>
    have other := free c first
    simp only [startsQuantifier, Bool.or_eq_false_iff, decide_eq_false_iff_not] at other
    obtain ⟨⟨⟨noStar, noPlus⟩, noMark⟩, noBrace⟩ := other
    simp only [noStar, noPlus, noMark, noBrace, if_false]
    rfl

theorem complete_before (contained : input <:+ pattern) (item : Expr) :
    complete pattern item (cursor.before pattern input) =
      answer (Fault.within · pattern) (fun _ => cursor.before pattern)
        (match input with
        | d :: _ =>
            if startsQuantifier d then .error ⟨.danglingQuantifier d, input⟩
            else .ok (item, input)
        | [] => .ok (item, [])) := by
  unfold complete
  rw [bind_current, current_before contained]
  cases input with
  | nil => rfl
  | cons d rest =>
    by_cases starts : startsQuantifier d
    · simp only [List.head?_cons, Option.filter_some_pos starts, if_pos starts]
      rfl
    · have plain := eq_false_of_ne_true starts
      simp only [List.head?_cons, Option.filter_some_neg plain, if_neg starts]
      rfl

theorem bind_eat_lazy {α : Type} (contained : input <:+ pattern) (next : Bool → Routine α) :
    (eat pattern '?' >>= next) (cursor.before pattern input) =
      next (!(readLaziness input).1) (cursor.before pattern (readLaziness input).2) := by
  by_cases mark : input.head? = some '?'
  · obtain ⟨tail, rfl⟩ := List.head?_eq_some_iff.mp mark
    exact bind_eat_same contained next
  · rw [bind_eat_other contained mark]
    unfold readLaziness
    split
    · exact absurd rfl mark
    · rfl

section Limit

variable (enough : pattern.length < limit)
include enough

theorem number_before (contained : input <:+ pattern) :
    number pattern limit opening (cursor.before pattern input) =
      answer (boundsError opening) (fun _ => cursor.before pattern) (readNumber input) := by
  obtain ⟨turns, rfl⟩ := Nat.exists_eq_add_one.mpr (Nat.zero_lt_of_lt enough)
  have bound := contained.length_le
  have looped := loop_digits cursor opening contained (bound.trans (Nat.le_of_lt_succ enough)) []
    (by decide)
  rw [show decimalValue [] = 0 from rfl, List.nil_append] at looped
  have parted : _ = input.length :=
    congrArg List.length (@List.takeWhile_append_dropWhile _ Char.isDigit input)
  rw [List.length_append] at parted
  unfold number readNumber
  rw [bind_position]
  dsimp only
  -- The position tells whether the loop has passed a digit.
  by_cases none : input.takeWhile Char.isDigit = []
  · rw [none, List.length_nil, Nat.zero_add] at parted
    rw [none, if_pos (by decide), (List.dropWhile_suffix _).eq_of_length parted] at looped
    rw [bind_found looped, bind_position, if_pos rfl, none]
    rfl
  · have some := List.length_pos_iff.mpr none
    rw [if_neg (by simpa using none)]
    by_cases small : decimalValue (input.takeWhile Char.isDigit) < boundLimit
    · rw [if_pos small] at looped
      rw [bind_found looped, bind_position, if_pos small, if_neg]
      · rfl
      · simp only [Cursor.before, Cursor.moveTo]
        omega
    · rw [if_neg small] at looped
      rw [bind_stopped looped, if_neg small]
      rfl

theorem upperBound_before (contained : input <:+ pattern) (low : Nat) :
    upperBound pattern limit opening low (cursor.before pattern input) =
      answer (boundsError opening) (fun _ => cursor.before pattern)
        (readUpperBound low input) := by
  unfold upperBound
  cases input with
  | nil =>
    rw [bind_eat_other contained (by simp)]
    rfl
  | cons c rest =>
    by_cases comma : c = ','
    · subst comma
      have behind := (List.suffix_cons ',' rest).trans contained
      rw [bind_eat_same contained, if_pos rfl, bind_current, current_before behind]
      by_cases closing : rest.head? = some '}'
      · rw [if_pos closing]
        obtain ⟨tail, rfl⟩ := List.head?_eq_some_iff.mp closing
        rfl
      · rw [if_neg closing, readUpperBound_comma low closing]
        exact answer_bind (number_before cursor opening enough behind) fun _ _ _ => rfl
    · rw [bind_eat_other contained (by simpa using comma), if_neg Bool.false_ne_true]
      unfold readUpperBound
      split
      · next same =>
        cases same
        exact absurd rfl comma
      · next same =>
        cases same
        exact absurd rfl comma
      · rfl

theorem bounds_before (contained : '{' :: rest <:+ pattern) :
    bounds pattern limit (cursor.before pattern ('{' :: rest)) =
      answer (boundsError (pattern.length - ('{' :: rest).length)) (fun _ => cursor.before pattern)
        (readBounds rest) := by
  have inside := (List.suffix_cons '{' rest).trans contained
  unfold bounds readBounds
  rw [bind_position, bind_advance_before contained]
  refine answer_bind (number_before cursor _ enough inside) fun low after lower => ?_
  have afterInside := (readNumber_suffix lower).trans inside
  refine answer_bind (upperBound_before cursor _ enough afterInside low) fun high behind upper => ?_
  have behindInside := (readUpperBound_suffix upper).trans afterInside
  dsimp only
  by_cases closing : behind.head? = some '}'
  · obtain ⟨tail, rfl⟩ := List.head?_eq_some_iff.mp closing
    rw [bind_eat_same behindInside]
    cases high with
    | none => rfl
    | some max =>
      simp only [if_true]
      by_cases ordered : low ≤ max
      · rw [if_neg (Nat.not_lt.mpr ordered), if_pos ordered]
        rfl
      · rw [if_pos (Nat.not_le.mp ordered), if_neg ordered]
        rfl
  · rw [bind_eat_other behindInside closing, if_neg Bool.false_ne_true, bind_current,
      current_before behindInside]
    split
    · exact absurd rfl closing
    · exact absurd rfl closing
    · rfl

theorem quantifier_starts {c : Char} (contained : c :: rest <:+ pattern)
    (starts : startsQuantifier c) :
    quantifier pattern limit (cursor.before pattern (c :: rest)) =
      answer (Fault.within · pattern) (fun _ => cursor.before pattern)
        (readQuantifierBounds c rest >>= fun found => .ok (some found.1, found.2)) := by
  unfold quantifier
  rw [bind_current, current_before contained, List.head?_cons]
  have listed := mem_of_startsQuantifier starts
  simp only [List.mem_cons, List.not_mem_nil, or_false] at listed
  rcases listed with rfl | rfl | rfl | rfl
  · exact bind_advance_before contained _
  · exact bind_advance_before contained _
  · exact bind_advance_before contained _
  · have answered := bounds_before cursor enough contained
    unfold readQuantifierBounds
    cases found : readBounds rest with
    | ok read =>
      rw [found] at answered
      exact bind_found answered _
    | error fault =>
      rw [found] at answered
      exact bind_stopped answered _

theorem repeated_before (contained : input <:+ pattern) (item : Expr) :
    repeated pattern limit item (cursor.before pattern input) =
      answer (Fault.within · pattern) (fun _ => cursor.before pattern) (quantify item input) := by
  unfold repeated quantify
  rw [bind_position]
  cases input with
  | nil =>
    rw [bind_found (quantifier_other cursor contained unquantified_nil)]
    rfl
  | cons c rest =>
    by_cases starts : startsQuantifier c
    · have quantified := quantifier_starts cursor enough contained starts
      simp only [if_pos starts]
      cases bounds : readQuantifierBounds c rest with
      | error fault =>
        rw [bounds] at quantified
        rw [bind_stopped quantified]
        rfl
      | ok found =>
        obtain ⟨⟨low, high⟩, beyond⟩ := found
        rw [bounds] at quantified
        rw [bind_found quantified]
        have inside := (readQuantifierBounds_suffix bounds).trans
          ((List.suffix_cons c rest).trans contained)
        by_cases able : item.repeatable
        · have lazy := (readLaziness_suffix beyond).trans inside
          simp only [able, if_true]
          rw [bind_eat_lazy cursor inside, complete_before cursor lazy, Bool.not_not]
          simp only [bind, Except.bind]
          rcases readLaziness beyond with ⟨greedy, _ | ⟨d, tail⟩⟩ <;> rfl
        · simp only [able]
          rw [if_neg Bool.false_ne_true, bind_charAt (current_before contained)]
          rfl
    · have free := unquantified_cons (eq_false_of_ne_true starts) rest
      rw [bind_found (quantifier_other cursor contained free)]
      simp only [if_neg starts]
      rfl

end Limit

end Bounds

/-! Brackets. -/

section Brackets

variable {pattern input rest : List Char} {limit : Nat} (cursor : Cursor)
  (opening : List Char)

theorem member_before (contained : input <:+ pattern) :
    member pattern (pattern.length - opening.length) (cursor.before pattern input) =
      answer (Fault.within · pattern) (fun _ => cursor.before pattern)
        (readSymbol opening input) := by
  unfold member
  rw [bind_position, bind_current, current_before contained]
  cases input with
  | nil => rfl
  | cons c rest =>
    have behind := (List.suffix_cons c rest).trans contained
    simp only [List.head?_cons]
    rw [bind_advance_before contained]
    by_cases backslash : c = '\\'
    · subst backslash
      rw [if_pos rfl, bind_current, current_before behind]
      cases rest with
      | nil => rfl
      | cons escaped tail =>
        simp only [List.head?_cons, readSymbol]
        rw [bind_advance_before behind]
        cases Symbol.ofEscaped? escaped with
        | none => rfl
        | some symbol => rfl
    · rw [if_neg backslash]
      unfold readSymbol
      split
      · next same => cases same
      · next same =>
        cases same
        exact absurd rfl backslash
      · next same =>
        cases same
        exact absurd rfl backslash
      · next same =>
        cases same
        rfl

theorem startsRange_eq (input : List Char) :
    (input.head? == some '-' && input[1]? != none && input[1]? != some ']') =
      (rangeEnd? input).isSome := by
  rcases input with _ | ⟨c, _ | ⟨d, rest⟩⟩
  · rfl
  · simp [rangeEnd?]
  · rw [Bool.eq_iff_iff]
    by_cases dash : c = '-'
    · by_cases closing : d = ']' <;> simp [rangeEnd?, dash, closing]
    · simp [rangeEnd?, dash]

theorem bind_startsRange_before {α : Type} (contained : input <:+ pattern)
    (next : Bool → Routine α) :
    (startsRange pattern >>= next) (cursor.before pattern input) =
      next (rangeEnd? input).isSome (cursor.before pattern input) := by
  rw [bind_startsRange, current_before contained, peek_before contained, startsRange_eq]

theorem bracketItem_before (contained : input <:+ pattern) :
    bracketItem pattern (pattern.length - opening.length) (cursor.before pattern input) =
      answer (Fault.within · pattern) (fun _ => cursor.before pattern)
        (readBracketItem opening input) := by
  unfold bracketItem readBracketItem
  refine answer_bind (member_before cursor opening contained) fun first rest read => ?_
  have inside := (readSymbol_suffix read).1.trans contained
  cases first with
  | charClass kind => rfl
  | char low =>
    dsimp only
    rw [bind_startsRange_before cursor inside]
    cases range : rangeEnd? rest with
    | none => rfl
    | some beyond =>
      obtain ⟨rfl, _⟩ := Grammar.of_rangeEnd? range
      rw [Option.isSome_some, if_pos rfl, bind_advance_before inside]
      have behind := (List.suffix_cons '-' beyond).trans inside
      refine answer_bind (member_before cursor opening behind) fun last rest read => ?_
      cases last <;> rfl

theorem bracketTurn_other (contained : input <:+ pattern) (other : input.head? ≠ some ']')
    (bracket : Bracket) :
    bracketTurn pattern (pattern.length - opening.length) bracket (cursor.before pattern input) =
      answer (Fault.within · pattern) (fun _ => cursor.before pattern)
        (readBracketItem opening input >>= fun (item, rest) =>
          (bracket.add item).mapError (Fault.mk · input) >>= fun larger =>
            .ok (.again larger, rest)) := by
  unfold bracketTurn
  rw [bind_position, bind_current, current_before contained]
  cases input with
  | nil => rfl
  | cons c rest =>
    have inside : c ≠ ']' := by simpa using other
    simp only [List.head?_cons, if_neg inside]
    refine answer_bind (bracketItem_before cursor opening contained) fun item rest _ => ?_
    dsimp only
    cases bracket.add item <;> rfl

theorem loop_brackets (contained : input <:+ pattern) (enough : input.length ≤ limit)
    (bracket : Bracket) :
    loop (bracketTurn pattern (pattern.length - opening.length)) (limit + 1) bracket
        (cursor.before pattern input) =
      answer (Fault.within · pattern) (fun _ => cursor.before pattern)
        (readBracketItems opening bracket input) := by
  fun_induction readBracketItems opening bracket input generalizing limit with
  | case1 bracket rest =>
    refine loop_leave limit ?_
    unfold bracketTurn
    rw [bind_position, bind_current, current_before contained]
    exact bind_advance_before contained _
  | case2 bracket input inside fault failed =>
    refine loop_stopped limit ?_
    rw [bracketTurn_other cursor opening contained (head?_ne_of_ne_cons inside), failed]
    rfl
  | case3 bracket input inside item rest read cause failed =>
    refine loop_stopped limit ?_
    rw [bracketTurn_other cursor opening contained (head?_ne_of_ne_cons inside), read]
    simp only [bind, Except.bind, failed]
    rfl
  | case4 bracket input inside item rest read larger added ih =>
    have behind := (readBracketItem_suffix read).1.trans contained
    have turned :=
      bracketTurn_other cursor opening contained (head?_ne_of_ne_cons inside) bracket
    rw [read] at turned
    simp only [bind, Except.bind, added] at turned
    have shorter := (readBracketItem_suffix read).2
    obtain ⟨fewer, rfl⟩ := Nat.exists_eq_add_one.mpr (Nat.zero_lt_of_lt (shorter.trans_le enough))
    exact (loop_again _ turned).trans (ih behind (by omega))

theorem bracket_before (enough : pattern.length < limit)
    (contained : '[' :: rest <:+ pattern) :
    bracket pattern limit (cursor.before pattern ('[' :: rest)) =
      answer (Fault.within · pattern) (fun _ => cursor.before pattern)
        (readBracket ('[' :: rest) rest >>= fun (test, beyond) =>
          .ok (.predicate test, beyond)) := by
  obtain ⟨turns, rfl⟩ := Nat.exists_eq_add_one.mpr (Nat.zero_lt_of_lt enough)
  have inside := (List.suffix_cons '[' rest).trans contained
  unfold bracket readBracket
  rw [bind_position, bind_advance_before contained]
  split
  · next tail =>
    have behind := (List.suffix_cons '^' tail).trans inside
    have looped := loop_brackets cursor ('[' :: '^' :: tail) behind
      (behind.length_le.trans (Nat.le_of_lt_succ enough)) .empty
    rw [bind_eat_same inside, bind_assoc]
    exact answer_bind looped fun _ _ _ => rfl
  · next other =>
    have looped := loop_brackets cursor ('[' :: rest) inside
      (inside.length_le.trans (Nat.le_of_lt_succ enough)) .empty
    rw [bind_eat_other inside (head?_ne_of_ne_cons other), bind_assoc]
    exact answer_bind looped fun _ _ _ => rfl

end Brackets

end Descent

end PatternSearch
