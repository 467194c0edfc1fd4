import PatternSearch.Parse.Bracket
import PatternSearch.Parse.Progress
import PatternSearch.Parse.Repetition

/-! Reading a pattern in one pass from left to right. `Progress.readAll` continues a reading,
so what the rest of a pattern reads as depends on the characters before it only through a
`Progress`. Every step leaves a suffix of its input, which is why reading ends. -/

namespace PatternSearch

def readEscape (c : Char) : Option Expr :=
  if '1' ≤ c ∧ c ≤ '9' then some (.backreference (digitValue c))
  else match Symbol.ofEscaped? c with
    | some (.charClass kind) => some (.predicate (.charClass kind))
    | some (.char literal) => some (.literal literal)
    | none => none

def readAtom (c : Char) (rest : List Char) : Except Fault (Expr × List Char) :=
  if c = '\\' then
    match rest with
    | [] => .error ⟨.trailingEscape, [c]⟩
    | d :: beyond =>
        match readEscape d with
        | some item => .ok (item, beyond)
        | none => .error ⟨.unknownEscape d, c :: rest⟩
  else if c = '[' then do
    let (test, beyond) ← readBracket (c :: rest) rest
    return (.predicate test, beyond)
  else if startsQuantifier c then .error ⟨.danglingQuantifier c, c :: rest⟩
  else if c = '^' then .ok (.atStart, rest)
  else if c = '$' then .ok (.atEnd, rest)
  else if c = '.' then .ok (.predicate .any, rest)
  else .ok (.literal c, rest)

namespace Progress

/-- Backreferences are checked when the pattern ends, for a group may open behind them. -/
def noteReference (progress : Progress) (item : Expr) (site : List Char) : Progress :=
  match item with
  | .backreference group => progress.addReference ⟨group, site⟩
  | _ => progress

/-- Reads one separator, parenthesis or item with its quantifier; a closing parenthesis takes
the quantifier of its group along. -/
def step (progress : Progress) (c : Char) (rest : List Char) :
    Except Fault (Progress × List Char) :=
  if c = '|' then .ok (progress.endBranch, rest)
  else if c = '(' then .ok (progress.openGroup (c :: rest), rest)
  else if c = ')' then
    match progress.pending with
    | [] => .error ⟨.unmatchedParen, c :: rest⟩
    | group :: pending => do
        let (item, beyond) ← quantify (.group group.index progress.level.close) rest
        return ({ progress with level := group.outer.addItem item, pending }, beyond)
  else do
    let (item, beyond) ← readAtom c rest
    let noted := progress.noteReference item (c :: rest)
    let (item, beyond) ← quantify item beyond
    return (noted.addItem item, beyond)

end Progress

theorem readAtom_suffix {c : Char} {rest beyond : List Char} {item : Expr}
    (read : readAtom c rest = .ok (item, beyond)) : beyond <:+ rest := by
  unfold readAtom at read
  split at read
  · split at read
    · cases read
    · split at read <;> cases read
      exact List.suffix_cons _ _
  · split at read
    · obtain ⟨⟨test, behind⟩, bracket, read⟩ := bind_eq_ok.mp read
      cases read
      exact (readBracket_suffix bracket).1
    · split at read
      · cases read
      · split at read
        · cases read
          exact List.suffix_rfl
        · split at read
          · cases read
            exact List.suffix_rfl
          · split at read <;> cases read <;> exact List.suffix_rfl

theorem Progress.step_suffix {progress next : Progress} {c : Char} {rest beyond : List Char}
    (read : progress.step c rest = .ok (next, beyond)) : beyond <:+ rest := by
  unfold step at read
  split at read
  · cases read
    exact List.suffix_rfl
  · split at read
    · cases read
      exact List.suffix_rfl
    · split at read
      · split at read
        · cases read
        · obtain ⟨⟨item, behind⟩, closed, read⟩ := bind_eq_ok.mp read
          cases read
          exact quantify_suffix closed
      · obtain ⟨⟨atom, after⟩, first, read⟩ := bind_eq_ok.mp read
        obtain ⟨⟨item, behind⟩, quantified, read⟩ := bind_eq_ok.mp read
        cases read
        exact (quantify_suffix quantified).trans (readAtom_suffix first)

def Progress.readAll (progress : Progress) (input : List Char) : Except Fault Progress :=
  match input with
  | [] => .ok progress
  | c :: rest =>
      match _read : progress.step c rest with
      | .error fault => .error fault
      | .ok (next, beyond) => next.readAll beyond
termination_by input.length
decreasing_by
  have bound := (Progress.step_suffix _read).length_le
  simp only [List.length_cons]
  omega

def parseChars (pattern : List Char) : Except Fault Parsed := do
  let progress ← Progress.start.readAll pattern
  progress.finish

def parse (pattern : String) : Except ParseError Parsed :=
  (parseChars pattern.toList).mapError (·.within pattern.toList)

end PatternSearch
