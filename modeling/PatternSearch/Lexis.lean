import PatternSearch.Parse.Progress
import PatternSearch.Parse.Repetition

/-! Which characters of a pattern are exposed: neither behind a backslash nor in a bracket
expression. A scan from left to right tells them without reading the pattern. Exposed parentheses
open and close groups, and an exposed backslash before a digit is a backreference; this holds of
every text, whether or not it reads as a pattern. -/

namespace PatternSearch

inductive Cover where
  | bare
  | escape
  | bracket
  | bracketEscape
deriving DecidableEq

namespace Cover

def after : Cover → Char → Cover
  | bare, c => if c = '\\' then escape else if c = '[' then bracket else bare
  | escape, _ => bare
  | bracket, c => if c = '\\' then bracketEscape else if c = ']' then bare else bracket
  | bracketEscape, _ => bracket

def past (cover : Cover) (text : List Char) : Cover := text.foldl after cover

theorem past_append (cover : Cover) (text rest : List Char) :
    cover.past (text ++ rest) = (cover.past text).past rest :=
  List.foldl_append

end Cover

/-- The exposed characters of a text that starts under the cover. -/
def exposed (cover : Cover) : List Char → List Char
  | [] => []
  | c :: text =>
      (if cover = .bare then [c] else []) ++ exposed (cover.after c) text

theorem exposed_append (cover : Cover) (text rest : List Char) :
    exposed cover (text ++ rest) = exposed cover text ++ exposed (cover.past text) rest := by
  induction text generalizing cover with
  | nil => rfl
  | cons c text ih =>
    rw [List.cons_append, exposed, exposed, ih, List.append_assoc]
    rfl

def Exposes (text : List Char) : Prop := Cover.bare.past text = .bare

instance (text : List Char) : Decidable (Exposes text) := inferInstanceAs (Decidable (_ = _))

def opened (text : List Char) : Nat := (exposed .bare text).count '('

/-- How many parentheses are open at the end, unless one closes where none is open. -/
def depthAfter (depth : Nat) : List Char → Option Nat
  | [] => some depth
  | c :: text =>
      if c = '(' then depthAfter (depth + 1) text
      else if c = ')' then if depth = 0 then none else depthAfter (depth - 1) text
      else depthAfter depth text

/-- The parentheses of the text pair up. So a parenthesis before it is matched by one behind it. -/
structure Balanced (text : List Char) : Prop where
  exposes : Exposes text
  level : depthAfter 0 (exposed .bare text) = some 0

instance (text : List Char) : Decidable (Balanced text) :=
  decidable_of_iff (Exposes text ∧ depthAfter 0 (exposed .bare text) = some 0)
    ⟨fun ⟨exposes, level⟩ => ⟨exposes, level⟩, fun ⟨exposes, level⟩ => ⟨exposes, level⟩⟩

structure Flat (text : List Char) : Prop where
  exposes : Exposes text
  noOpening : '(' ∉ exposed .bare text
  noClosing : ')' ∉ exposed .bare text

def referenceAt? : List Char → Option Reference
  | '\\' :: digit :: rest =>
      if '1' ≤ digit ∧ digit ≤ '9' then some ⟨digitValue digit, '\\' :: digit :: rest⟩ else none
  | _ => none

/-- The backreferences in their order. Each is an exposed backslash and a digit other than zero. -/
def backreferences (cover : Cover) : List Char → List Reference
  | [] => []
  | c :: text =>
      (if cover = .bare then (referenceAt? (c :: text)).toList else []) ++
        backreferences (cover.after c) text

section Scanning

variable {text rest : List Char} {c : Char}

theorem Exposes.append (first : Exposes text) (second : Exposes rest) :
    Exposes (text ++ rest) := by
  rw [Exposes, Cover.past_append, first]
  exact second

/-- Behind a text that exposes what follows the scan starts anew. -/
theorem Exposes.exposed_append (exposes : Exposes text) (rest : List Char) :
    exposed .bare (text ++ rest) = exposed .bare text ++ exposed .bare rest := by
  rw [PatternSearch.exposed_append, exposes]

theorem Exposes.opened_append (exposes : Exposes text) (rest : List Char) :
    opened (text ++ rest) = opened text + opened rest := by
  rw [opened, exposes.exposed_append, List.count_append]
  rfl

theorem exposes_of_append (first : Exposes text) (both : Exposes (text ++ rest)) :
    Exposes rest := by
  rw [Exposes, Cover.past_append, first] at both
  exact both

theorem exposed_ordinary (ordinary : ∀ c ∈ text, c ≠ '\\' ∧ c ≠ '[') :
    Exposes text ∧ exposed .bare text = text := by
  induction text with
  | nil => exact ⟨rfl, rfl⟩
  | cons c text ih =>
    obtain ⟨⟨noEscape, noBracket⟩, others⟩ := List.forall_mem_cons.mp ordinary
    have stays : Cover.bare.after c = .bare := by
      rw [Cover.after, if_neg noEscape, if_neg noBracket]
    obtain ⟨exposes, all⟩ := ih others
    constructor
    · rw [Exposes, Cover.past, List.foldl_cons, stays]
      exact exposes
    · rw [exposed, stays, all]
      rfl

theorem backreferences_append {cover : Cover} (quiet : '\\' ∉ exposed cover text)
    (rest : List Char) :
    backreferences cover (text ++ rest) = backreferences (cover.past text) rest := by
  induction text generalizing cover with
  | nil => rfl
  | cons c text ih =>
    rw [exposed, List.mem_append, not_or] at quiet
    obtain ⟨here, later⟩ := quiet
    rw [List.cons_append, backreferences, ih later]
    have nothing : (if cover = .bare then (referenceAt? (c :: (text ++ rest))).toList else []) =
        [] := by
      split
      · next bare =>
        rw [if_pos bare, List.mem_singleton] at here
        unfold referenceAt?
        split
        · next same => exact absurd (List.cons.inj same).1.symm here
        · rfl
      · rfl
    rw [nothing]
    rfl

end Scanning

section Depths

theorem depthAfter_append (depth : Nat) (text rest : List Char) :
    depthAfter depth (text ++ rest) = (depthAfter depth text).bind (depthAfter · rest) := by
  fun_induction depthAfter depth text with
  | case1 => rfl
  | case2 depth text ih => exact ih
  | case3 => rfl
  | case4 depth text nonzero _ ih =>
    change (if depth = 0 then none else depthAfter (depth - 1) (text ++ rest)) = _
    rw [if_neg nonzero, ih]
  | case5 depth c text noOpening noClosing ih =>
    rw [List.cons_append, depthAfter, if_neg noOpening, if_neg noClosing, ih]

theorem depthAfter_add {depth final : Nat} {text : List Char}
    (level : depthAfter depth text = some final) (more : Nat) :
    depthAfter (depth + more) text = some (final + more) := by
  fun_induction depthAfter depth text with
  | case1 =>
    cases level
    rfl
  | case2 depth text ih =>
    change depthAfter (depth + more + 1) text = _
    rw [Nat.add_right_comm, ih level]
  | case3 => cases level
  | case4 depth text nonzero _ ih =>
    have around : depth + more ≠ 0 := by omega
    have inner : depth + more - 1 = depth - 1 + more := by omega
    change (if depth + more = 0 then none else depthAfter (depth + more - 1) text) = _
    rw [if_neg around, inner, ih level]
  | case5 depth c text noOpening noClosing ih =>
    rw [depthAfter, if_neg noOpening, if_neg noClosing, ih level]

variable {text rest : List Char}

theorem depthAfter_plain (noOpening : '(' ∉ text) (noClosing : ')' ∉ text) (depth : Nat) :
    depthAfter depth text = some depth := by
  induction text with
  | nil => rfl
  | cons c text ih =>
    rw [List.mem_cons, not_or] at noOpening noClosing
    rw [depthAfter, if_neg (Ne.symm noOpening.1), if_neg (Ne.symm noClosing.1)]
    exact ih noOpening.2 noClosing.2

theorem Flat.balanced (flat : Flat text) : Balanced text :=
  ⟨flat.exposes, depthAfter_plain flat.noOpening flat.noClosing 0⟩

theorem Flat.opened_eq (flat : Flat text) : opened text = 0 :=
  List.count_eq_zero.mpr flat.noOpening

theorem Flat.append (first : Flat text) (second : Flat rest) : Flat (text ++ rest) where
  exposes := first.exposes.append second.exposes
  noOpening := by
    rw [first.exposes.exposed_append, List.mem_append, not_or]
    exact ⟨first.noOpening, second.noOpening⟩
  noClosing := by
    rw [first.exposes.exposed_append, List.mem_append, not_or]
    exact ⟨first.noClosing, second.noClosing⟩

theorem Balanced.append (first : Balanced text) (second : Balanced rest) :
    Balanced (text ++ rest) where
  exposes := first.exposes.append second.exposes
  level := by
    rw [first.exposes.exposed_append, depthAfter_append, first.level]
    exact second.level

theorem Balanced.enclose (inside : Balanced text) (behind : Balanced rest) :
    Balanced ('(' :: (text ++ ')' :: rest)) where
  exposes := inside.exposes.append behind.exposes
  level := by
    have shown : exposed .bare ('(' :: (text ++ ')' :: rest)) =
        '(' :: (exposed .bare text ++ ')' :: exposed .bare rest) := by
      change '(' :: exposed .bare (text ++ ')' :: rest) = _
      rw [inside.exposes.exposed_append]
      rfl
    have within : depthAfter 1 (exposed .bare text) = some 1 := depthAfter_add inside.level 1
    rw [shown]
    change depthAfter 1 (exposed .bare text ++ ')' :: exposed .bare rest) = _
    rw [depthAfter_append, within]
    exact behind.level

theorem Balanced.unique {inside other behind : List Char} (first : Balanced inside)
    (second : Balanced other) (same : inside ++ ')' :: rest = other ++ ')' :: behind) :
    inside = other ∧ rest = behind := by
  -- The longer of two texts would go on with a parenthesis that closes nothing.
  have apart : ∀ {shorter longer : List Char}, Balanced shorter → Balanced longer →
      ∀ tail, longer ≠ shorter ++ ')' :: tail := by
    rintro shorter longer one two tail rfl
    have level := two.level
    rw [one.exposes.exposed_append, depthAfter_append, one.level] at level
    cases level
  rcases List.append_eq_append_iff.mp same with ⟨between, split, ended⟩ | ⟨between, split, ended⟩
  · cases between with
    | nil => exact ⟨by simpa using split.symm, (List.cons.inj ended).2⟩
    | cons c between =>
      cases ended
      exact absurd split (apart first second between)
  · cases between with
    | nil => exact ⟨by simpa using split, (List.cons.inj ended).2.symm⟩
    | cons c between =>
      cases ended
      exact absurd split (apart second first between)

end Depths

end PatternSearch
