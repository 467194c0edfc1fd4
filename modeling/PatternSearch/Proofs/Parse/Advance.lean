import PatternSearch.Proofs.Parse.Routines

/-! Every routine comes to an end and moves on. Loops end since each turn that asks for another one
passes a character, and groups end since an alternation in one starts behind its opening
parenthesis. So what is left of the pattern stays below the limits, which the inductions are on. -/

namespace PatternSearch

structure Cursor.Leads (pattern : List Char) (before after : Cursor) : Prop where
  forward : before.position ≤ after.position
  inside : after.position ≤ pattern.length
  groups : before.groups ≤ after.groups
  references : before.references <+: after.references

namespace Cursor.Leads

variable {pattern : List Char} {before between after : Cursor} {c : Char}

theorem refl (inside : before.position ≤ pattern.length) : before.Leads pattern before :=
  ⟨Nat.le_refl _, inside, Nat.le_refl _, List.prefix_rfl⟩

theorem trans (first : before.Leads pattern between) (second : between.Leads pattern after) :
    before.Leads pattern after :=
  ⟨Nat.le_trans first.forward second.forward, second.inside,
    Nat.le_trans first.groups second.groups, first.references.trans second.references⟩

theorem pass (there : pattern[before.position]? = some c) :
    before.Leads pattern (before.moveTo (before.position + 1)) :=
  ⟨Nat.le_succ _, (List.getElem?_eq_some_iff.mp there).1, Nat.le_refl _, List.prefix_rfl⟩

theorem openGroup (led : before.Leads pattern after) : before.Leads pattern after.openGroup :=
  ⟨led.forward, led.inside, Nat.le_succ_of_le led.groups, led.references⟩

theorem addReference (led : before.Leads pattern after) (group position : Nat) :
    before.Leads pattern (after.addReference group position) :=
  ⟨led.forward, led.inside, led.groups, led.references.trans (List.prefix_append _ _)⟩

end Cursor.Leads

structure Cursor.Passes (pattern : List Char) (before after : Cursor) : Prop
    extends before.Leads pattern after where
  further : before.position < after.position

namespace Cursor.Passes

variable {pattern : List Char} {before between after : Cursor}

theorem trans_leads (passed : before.Passes pattern between)
    (led : between.Leads pattern after) : before.Passes pattern after :=
  ⟨passed.toLeads.trans led, Nat.lt_of_lt_of_le passed.further led.forward⟩

theorem of_pass {c : Char} (there : pattern[before.position]? = some c)
    (led : (before.moveTo (before.position + 1)).Leads pattern after) :
    before.Passes pattern after :=
  ⟨(Leads.pass there).trans led, led.forward⟩

theorem fewer (passed : before.Passes pattern after) :
    pattern.length - after.position < pattern.length - before.position := by
  have := passed.further
  have := passed.inside
  omega

end Cursor.Passes

namespace Descent

variable {α σ : Type} {pattern : List Char} {start : Cursor} {c : Char}

def Leading (pattern : List Char) (routine : Routine α) (start : Cursor) : Prop :=
  Ends (routine start) (fun _ after => start.Leads pattern after) fun _ => True

def Passing (pattern : List Char) (routine : Routine α) (start : Cursor) : Prop :=
  Ends (routine start) (fun _ after => start.Passes pattern after) fun _ => True

theorem Passing.leading {routine : Routine α} (passing : Passing pattern routine start) :
    Leading pattern routine start :=
  Ends.imp passing fun _ _ passed => passed.toLeads

def Proceeding (pattern : List Char) (turn : Routine (Turn σ α)) (start : Cursor) : Prop :=
  Ends (turn start) (fun next after => start.Leads pattern after ∧
    (next.continues → start.position < after.position)) fun _ => True

theorem Passing.proceeding {turn : Routine (Turn σ α)} (passing : Passing pattern turn start) :
    Proceeding pattern turn start :=
  Ends.imp passing fun _ _ passed => ⟨passed.toLeads, fun _ => passed.further⟩

/-- A loop ends within a limit above the number of characters that are left. -/
theorem loop_leading {turn : σ → Routine (Turn σ α)} {limit : Nat}
    (turns : ∀ state later, start.Leads pattern later → Proceeding pattern (turn state) later)
    (state : σ) (inside : start.position ≤ pattern.length)
    (enough : pattern.length - start.position < limit) :
    Leading pattern (loop turn limit state) start := by
  let ready (left : Nat) (_ : σ) (later : Cursor) : Prop :=
    start.Leads pattern later ∧ pattern.length - later.position = left
  refine loop_ends ready ?_ ⟨.refl inside, rfl⟩ enough
  rintro _ state later ⟨led, rfl⟩
  refine (turns state later led).imp ?_
  rintro (next | result) after ⟨onward, passed⟩
  · exact ⟨_, Cursor.Passes.fewer ⟨onward, passed rfl⟩, led.trans onward, rfl⟩
  · exact led.trans onward

/-! Bounds. -/

theorem digitTurn_proceeding (inside : start.position ≤ pattern.length) (opening value : Nat) :
    Proceeding pattern (digitTurn pattern opening value) start := by
  unfold Proceeding digitTurn
  rw [bind_current]
  cases found : pattern[start.position]?.filter Char.isDigit with
  | none => exact ⟨.refl inside, nofun⟩
  | some digit =>
    have there := (Option.filter_eq_some_iff.mp found).1
    dsimp only
    split
    · exact ⟨.pass there, fun _ => Nat.lt_succ_self _⟩
    · trivial

theorem complete_leading (item : Expr) (inside : start.position ≤ pattern.length) :
    Leading pattern (complete pattern item) start := by
  unfold Leading complete
  rw [bind_current]
  cases pattern[start.position]?.filter startsQuantifier with
  | none => exact .refl inside
  | some second => trivial

section Bounds

variable {limit : Nat} (enough : pattern.length < limit)
include enough

theorem number_leading (opening : Nat) (inside : start.position ≤ pattern.length) :
    Leading pattern (number pattern limit opening) start := by
  unfold Leading number
  rw [bind_position]
  have looped := loop_leading
    (fun value _ led => digitTurn_proceeding led.inside opening value) 0 inside
    (Nat.lt_of_le_of_lt (Nat.sub_le _ _) enough)
  refine looped.bind fun value after led => ?_
  rw [bind_position]
  split
  · trivial
  · exact led

theorem upperBound_leading (opening low : Nat) (inside : start.position ≤ pattern.length) :
    Leading pattern (upperBound pattern limit opening low) start := by
  unfold Leading upperBound
  rw [bind_eat]
  split
  · next comma =>
    have passed := Cursor.Leads.pass comma
    rw [if_pos rfl, bind_current]
    split
    · exact passed
    · exact (number_leading enough opening passed.inside).bind fun _ _ led => passed.trans led
  · exact .refl inside

theorem bounds_passing (there : pattern[start.position]? = some '{') :
    Passing pattern (bounds pattern limit) start := by
  unfold Passing bounds
  rw [bind_position, bind_advance]
  have inside := (Cursor.Leads.pass there).inside
  refine (number_leading enough _ inside).bind fun low middle first => ?_
  refine (upperBound_leading enough _ low first.inside).bind fun high last second => ?_
  have led := first.trans second
  rw [bind_eat]
  split
  · next closing =>
    have passed := Cursor.Passes.of_pass there (led.trans (.pass closing))
    rw [if_pos rfl]
    split
    · exact passed
    · split
      · trivial
      · exact passed
  · trivial

theorem quantifier_ends (inside : start.position ≤ pattern.length) :
    Ends (quantifier pattern limit start) (fun found after => start.Leads pattern after ∧
      (found.isSome → start.position < after.position)) fun _ => True := by
  unfold quantifier
  rw [bind_current]
  cases there : pattern[start.position]? with
  | none => exact ⟨.refl inside, nofun⟩
  | some c =>
    dsimp only
    split
    · exact ⟨.pass there, fun _ => Nat.lt_succ_self _⟩
    · split
      · exact ⟨.pass there, fun _ => Nat.lt_succ_self _⟩
      · split
        · exact ⟨.pass there, fun _ => Nat.lt_succ_self _⟩
        · split
          · next opening =>
            refine (bounds_passing enough (opening ▸ there)).bind fun _ _ passed => ?_
            exact ⟨passed.toLeads, fun _ => passed.further⟩
          · exact ⟨.refl inside, nofun⟩

theorem repeated_leading (item : Expr) (inside : start.position ≤ pattern.length) :
    Leading pattern (repeated pattern limit item) start := by
  unfold Leading repeated
  rw [bind_position]
  refine (quantifier_ends enough inside).bind ?_
  rintro (_ | ⟨low, high⟩) middle ⟨led, passed⟩
  · exact led
  · dsimp only
    split
    · rw [bind_eat]
      split
      · next lazy =>
        have further := led.trans (.pass lazy)
        exact (complete_leading _ further.inside).imp fun _ _ rest => further.trans rest
      · exact (complete_leading _ led.inside).imp fun _ _ rest => led.trans rest
    · -- The quantifier has passed a character, so the one it started at is there.
      have there := Nat.lt_of_lt_of_le (passed rfl) led.inside
      rw [bind_charAt (List.getElem?_eq_getElem there)]
      trivial

end Bounds

/-! Brackets and escapes. -/

theorem member_passing (opening : Nat) : Passing pattern (member pattern opening) start := by
  unfold Passing member
  rw [bind_position, bind_current]
  cases there : pattern[start.position]? with
  | none => trivial
  | some c =>
    have passed := Cursor.Leads.pass there
    dsimp only
    rw [bind_advance]
    split
    · rw [bind_current]
      cases behind : pattern[(start.moveTo (start.position + 1)).position]? with
      | none => trivial
      | some escaped =>
        dsimp only
        rw [bind_advance]
        cases Symbol.ofEscaped? escaped with
        | none => trivial
        | some symbol => exact .of_pass there (.pass behind)
    · exact .of_pass there (.refl passed.inside)

theorem bracketItem_passing (opening : Nat) :
    Passing pattern (bracketItem pattern opening) start := by
  unfold Passing bracketItem
  refine (member_passing opening).bind ?_
  rintro (low | kind) middle passed
  · dsimp only
    rw [bind_startsRange]
    split
    · next dash =>
      simp only [Bool.and_eq_true, beq_iff_eq] at dash
      rw [bind_advance]
      refine (member_passing opening).bind ?_
      rintro (high | kind) last rest
      · exact passed.trans_leads (Cursor.Passes.of_pass dash.1.1 rest.toLeads).toLeads
      · exact passed.trans_leads (Cursor.Passes.of_pass dash.1.1 rest.toLeads).toLeads
    · exact passed
  · exact passed

theorem bracketTurn_passing (opening : Nat) (read : Bracket) :
    Passing pattern (bracketTurn pattern opening read) start := by
  unfold Passing bracketTurn
  rw [bind_position, bind_current]
  cases there : pattern[start.position]? with
  | none => trivial
  | some c =>
    dsimp only
    split
    · exact .of_pass there (.refl (Cursor.Leads.pass there).inside)
    · refine (bracketItem_passing opening).bind fun item middle passed => ?_
      cases read.add item with
      | ok larger => exact passed
      | error cause => trivial

theorem bracketItems_leading {limit : Nat} (enough : pattern.length < limit) (opening : Nat)
    (inside : start.position ≤ pattern.length) :
    Leading pattern (loop (bracketTurn pattern opening) limit .empty) start :=
  loop_leading (fun read _ _ => (bracketTurn_passing opening read).proceeding) .empty inside
    (Nat.lt_of_le_of_lt (Nat.sub_le _ _) enough)

theorem bracket_passing {limit : Nat} (enough : pattern.length < limit)
    (there : pattern[start.position]? = some '[') :
    Passing pattern (bracket pattern limit) start := by
  unfold Passing bracket
  rw [bind_position, bind_advance, bind_eat]
  split
  · next caret =>
    have passed := Cursor.Leads.pass caret
    exact (bracketItems_leading enough _ passed.inside).bind
      fun _ _ led => .of_pass there (passed.trans led)
  · exact (bracketItems_leading enough _ (Cursor.Leads.pass there).inside).bind
      fun _ _ led => .of_pass there led

theorem escape_passing (there : pattern[start.position]? = some '\\') :
    Passing pattern (escape pattern) start := by
  unfold Passing escape
  rw [bind_position, bind_advance, bind_current]
  cases behind : pattern[(start.moveTo (start.position + 1)).position]? with
  | none => trivial
  | some c =>
    have passed := Cursor.Leads.pass behind
    dsimp only
    rw [bind_advance]
    cases readEscape c with
    | none => trivial
    | some item =>
      cases item with
      | backreference group => exact .of_pass there (passed.addReference _ _)
      | _ => exact .of_pass there passed

/-! What can hold a group. -/

def GroupsEnd (pattern : List Char) (inner : Routine Expr) (start : Cursor) : Prop :=
  ∀ later : Cursor, start.position < later.position → later.position ≤ pattern.length →
    Leading pattern inner later

theorem GroupsEnd.from {inner : Routine Expr} {after : Cursor}
    (groups : GroupsEnd pattern inner start) (led : start.Leads pattern after) :
    GroupsEnd pattern inner after :=
  fun later past => groups later (Nat.lt_of_le_of_lt led.forward past)

section Groups

variable {limit : Nat} {inner : Routine Expr}

theorem group_passing (groups : GroupsEnd pattern inner start)
    (there : pattern[start.position]? = some '(') :
    Passing pattern (group pattern inner) start := by
  unfold Passing group
  rw [bind_position, bind_advance, bind_openGroup]
  have inside := (Cursor.Leads.pass there).inside
  have opened := (Cursor.Leads.refl inside).openGroup
  refine (groups (Cursor.openGroup _) (Nat.lt_succ_self _) opened.inside).bind
    fun expr last led => ?_
  rw [bind_eat]
  split
  · next closing =>
    exact .of_pass there ((opened.trans led).trans (.pass closing))
  · trivial

variable (enough : pattern.length < limit) (groups : GroupsEnd pattern inner start)
include enough groups

theorem atom_passing (there : pattern[start.position]? = some c) :
    Passing pattern (atom pattern limit inner) start := by
  unfold Passing atom
  rw [bind_position, bind_current, there]
  dsimp only
  split
  · next backslash => exact escape_passing (backslash ▸ there)
  · split
    · next opening => exact bracket_passing enough (opening ▸ there)
    · split
      · next opening => exact group_passing groups (opening ▸ there)
      · split
        · trivial
        · exact .of_pass there (.refl (Cursor.Leads.pass there).inside)

theorem atom_leading (inside : start.position ≤ pattern.length) :
    Leading pattern (atom pattern limit inner) start := by
  cases there : pattern[start.position]? with
  | some c => exact (atom_passing enough groups there).leading
  | none =>
    unfold Leading atom
    rw [bind_position, bind_current, there]
    exact .refl inside

theorem quantified_passing (there : pattern[start.position]? = some c) :
    Passing pattern (quantified pattern limit inner) start := by
  unfold Passing quantified
  refine (atom_passing enough groups there).bind fun item middle passed => ?_
  exact (repeated_leading enough item passed.inside).imp fun _ _ led => passed.trans_leads led

theorem quantified_leading (inside : start.position ≤ pattern.length) :
    Leading pattern (quantified pattern limit inner) start := by
  unfold Leading quantified
  refine (atom_leading enough groups inside).bind fun item middle led => ?_
  exact (repeated_leading enough item led.inside).imp fun _ _ rest => led.trans rest

theorem itemTurn_proceeding (read : Array Expr) (inside : start.position ≤ pattern.length) :
    Proceeding pattern (itemTurn pattern limit inner read) start := by
  unfold Proceeding itemTurn
  rw [bind_current]
  cases there : pattern[start.position]? with
  | none => exact ⟨.refl inside, nofun⟩
  | some c =>
    dsimp only
    split
    · exact ⟨.refl inside, nofun⟩
    · -- Neither a bar nor a closing parenthesis stops here, so the item passes a character.
      exact (quantified_passing enough groups there).bind
        fun _ _ passed => ⟨passed.toLeads, fun _ => passed.further⟩

theorem sequence_leading (inside : start.position ≤ pattern.length) :
    Leading pattern (sequence pattern limit inner) start :=
  loop_leading (fun read _ led => itemTurn_proceeding enough (groups.from led) read led.inside)
    #[] inside (Nat.lt_of_le_of_lt (Nat.sub_le _ _) enough)

theorem branchTurn_proceeding (read : Array Expr) (inside : start.position ≤ pattern.length) :
    Proceeding pattern (branchTurn pattern limit inner read) start := by
  unfold Proceeding branchTurn
  rw [bind_eat]
  split
  · next bar =>
    have passed := Cursor.Leads.pass bar
    rw [if_pos rfl]
    refine (sequence_leading enough (groups.from passed) passed.inside).bind
      fun branch middle led => ?_
    exact ⟨passed.trans led, fun _ => (Cursor.Passes.of_pass bar led).further⟩
  · exact ⟨.refl inside, nofun⟩

theorem alternation_leading (inside : start.position ≤ pattern.length) :
    Leading pattern (alternation pattern limit inner) start := by
  unfold Leading alternation
  refine (sequence_leading enough groups inside).bind fun first middle led => ?_
  have rest := loop_leading
    (fun read _ onward =>
      branchTurn_proceeding enough (groups.from (led.trans onward)) read onward.inside)
    #[first] led.inside (Nat.lt_of_le_of_lt (Nat.sub_le _ _) enough)
  exact rest.imp fun _ _ onward => led.trans onward

end Groups

section Nested

variable {limit : Nat} (enough : pattern.length < limit)
include enough

/-- A group opens behind a parenthesis, so no more of them are inside each other than characters
are left. -/
theorem nested_leading {depth : Nat} (inside : start.position ≤ pattern.length)
    (deep : pattern.length - start.position < depth) :
    Leading pattern (nested pattern limit depth) start := by
  induction depth generalizing start with
  | zero => exact absurd deep (Nat.not_lt_zero _)
  | succ depth ih =>
    exact alternation_leading enough (fun later past inside => ih inside (by omega)) inside

theorem groupsEnd_nested {depth : Nat} (deep : pattern.length - start.position ≤ depth) :
    GroupsEnd pattern (nested pattern limit depth) start :=
  fun _ past inside => nested_leading enough inside (by omega)

end Nested

/-- The routines as they are called: in any state, but those that begin by passing an opening
character only in front of it. -/
inductive Called (pattern : List Char) (limit : Nat) (inner : Routine Expr) (start : Cursor) :
    (α : Type) → Routine α → Prop where
  | alternation : Called pattern limit inner start Expr (alternation pattern limit inner)
  | sequence : Called pattern limit inner start Expr (sequence pattern limit inner)
  | quantified : Called pattern limit inner start Expr (quantified pattern limit inner)
  | quantifier :
      Called pattern limit inner start (Option (Nat × Option Nat)) (quantifier pattern limit)
  | bounds (opens : pattern[start.position]? = some '{') :
      Called pattern limit inner start (Nat × Option Nat) (bounds pattern limit)
  | number (opening : Nat) : Called pattern limit inner start Nat (number pattern limit opening)
  | atom : Called pattern limit inner start Expr (atom pattern limit inner)
  | group (opens : pattern[start.position]? = some '(') :
      Called pattern limit inner start Expr (group pattern inner)
  | escape (opens : pattern[start.position]? = some '\\') :
      Called pattern limit inner start Expr (escape pattern)
  | bracket (opens : pattern[start.position]? = some '[') :
      Called pattern limit inner start Expr (bracket pattern limit)
  | member (opening : Nat) : Called pattern limit inner start Symbol (member pattern opening)

theorem Called.leading {limit : Nat} {inner : Routine Expr} {routine : Routine α}
    (called : Called pattern limit inner start α routine) (enough : pattern.length < limit)
    (groups : GroupsEnd pattern inner start) (inside : start.position ≤ pattern.length) :
    Leading pattern routine start := by
  cases called with
  | alternation => exact alternation_leading enough groups inside
  | sequence => exact sequence_leading enough groups inside
  | quantified => exact quantified_leading enough groups inside
  | quantifier => exact (quantifier_ends enough inside).imp fun _ _ ended => ended.1
  | bounds opens => exact (bounds_passing enough opens).leading
  | number opening => exact number_leading enough opening inside
  | atom => exact atom_leading enough groups inside
  | group opens => exact (group_passing groups opens).leading
  | escape opens => exact (escape_passing opens).leading
  | bracket opens => exact (bracket_passing enough opens).leading
  | member opening => exact (member_passing opening).leading

end Descent

end PatternSearch
