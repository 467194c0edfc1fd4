import PatternSearch.Expr.Composition
import PatternSearch.Proofs.Semantics.Language

/-! What the groups of an expression are to its matches. The language does not see how they are
numbered, so an expression that stands behind other groups matches as it does alone. And outcomes
write only slots of the expression's own groups, so what is captured around it stays. -/

namespace PatternSearch

open PatternSearch.Expr (Iterates Matches MatchesAll)

namespace Expr

section Renumbering

variable {text : Array Char}

theorem matchesAll_map {change : Expr → Expr} {items : List Expr}
    (same : ∀ item ∈ items, ∀ start stop,
      Matches text (change item) start stop ↔ Matches text item start stop) (start stop : Nat) :
    MatchesAll text (items.map change) start stop ↔ MatchesAll text items start stop := by
  induction items generalizing start with
  | nil => exact Iff.rfl
  | cons item items ih =>
    obtain ⟨head, tail⟩ := List.forall_mem_cons.mp same
    constructor
    · intro matched
      cases matched with
      | cons first rest => exact .cons ((head _ _).mp first) ((ih tail _).mp rest)
    · intro matched
      cases matched with
      | cons first rest => exact .cons ((head _ _).mpr first) ((ih tail _).mpr rest)

theorem Iterates.imp {body other : Expr}
    (implies : ∀ start stop, Matches text body start stop → Matches text other start stop)
    {count start stop : Nat} (iterated : Iterates text body count start stop) :
    Iterates text other count start stop := by
  induction count generalizing start with
  | zero =>
    cases iterated
    exact .zero
  | succ count ih =>
    cases iterated with
    | succ first rest => exact .succ (implies _ _ first) (ih rest)

theorem matches_renumber (offset : Nat) (expr : Expr) (start stop : Nat) :
    Matches text (expr.renumber offset) start stop ↔ Matches text expr start stop := by
  induction expr using induction generalizing start stop with
  | empty => exact Iff.rfl
  | predicate test => exact Iff.rfl
  | atStart => exact Iff.rfl
  | atEnd => exact Iff.rfl
  | backreference index => exact Iff.rfl
  | sequence items ih =>
    have all := matchesAll_map ih start stop
    rw [← renumberAll_eq_map] at all
    constructor
    · intro matched
      cases matched with
      | sequence chained => exact .sequence (all.mp chained)
    · intro matched
      cases matched with
      | sequence chained => exact .sequence (all.mpr chained)
  | alternation branches ih =>
    rw [renumber, renumberAll_eq_map]
    constructor
    · intro matched
      cases matched with
      | alternation offered matched =>
        obtain ⟨branch, member, rfl⟩ := List.mem_map.mp offered
        exact .alternation member ((ih branch member start stop).mp matched)
    · intro matched
      cases matched with
      | alternation offered matched =>
        exact .alternation (List.mem_map.mpr ⟨_, offered, rfl⟩)
          ((ih _ offered start stop).mpr matched)
  | group index body ih =>
    constructor
    · intro matched
      cases matched with
      | group matched => exact .group ((ih start stop).mp matched)
    · intro matched
      cases matched with
      | group matched => exact .group ((ih start stop).mpr matched)
  | repetition body quantifier ih =>
    constructor
    · intro matched
      cases matched with
      | repetition enough allowed iterated =>
        exact .repetition enough allowed (iterated.imp fun start stop => (ih start stop).mp)
    · intro matched
      cases matched with
      | repetition enough allowed iterated =>
        exact .repetition enough allowed (iterated.imp fun start stop => (ih start stop).mpr)

theorem regular_renumber (offset : Nat) {expr : Expr} (regular : expr.Throughout Regular) :
    (expr.renumber offset).Throughout Regular := by
  induction expr using induction with
  | empty => exact regular
  | predicate test => exact regular
  | atStart => exact regular
  | atEnd => exact regular
  | backreference index => exact regular
  | sequence items ih =>
    rw [Throughout.sequence_iff] at regular
    rw [renumber, renumberAll_eq_map, Throughout.sequence_iff, List.forall_mem_map]
    exact ⟨trivial, fun item member => ih item member (regular.2 item member)⟩
  | alternation branches ih =>
    rw [Throughout.alternation_iff] at regular
    rw [renumber, renumberAll_eq_map, Throughout.alternation_iff, List.forall_mem_map]
    exact ⟨trivial, fun branch member => ih branch member (regular.2 branch member)⟩
  | group index body ih =>
    rw [Throughout.group_iff] at regular
    rw [renumber, Throughout.group_iff]
    exact ⟨trivial, ih regular.2⟩
  | repetition body quantifier ih =>
    rw [Throughout.repetition_iff] at regular
    rw [renumber, Throughout.repetition_iff]
    exact ⟨regular.1, ih regular.2⟩

theorem groups_renumber (offset : Nat) (expr : Expr) :
    (expr.renumber offset).groups = expr.groups.map (· + offset) := by
  induction expr using induction with
  | empty => rfl
  | predicate test => rfl
  | atStart => rfl
  | atEnd => rfl
  | backreference index => rfl
  | sequence items ih =>
    rw [renumber, renumberAll_eq_map, groups_sequence, groups_sequence, List.map_flatMap,
      List.flatMap_map]
    exact List.flatMap_congr ih
  | alternation branches ih =>
    rw [renumber, renumberAll_eq_map, groups_alternation, groups_alternation, List.map_flatMap,
      List.flatMap_map]
    exact List.flatMap_congr ih
  | group index body ih => rw [renumber, groups_group, groups_group, ih, List.map_cons]
  | repetition body quantifier ih => exact ih

end Renumbering

end Expr

structure Slots.SameAt (group : Nat) (before after : Slots) : Prop where
  start : after.start group = before.start group
  stop : after.stop group = before.stop group

namespace Slots.SameAt

variable {group number : Nat} {before between after : Slots}

theorem refl (slots : Slots) : SameAt group slots slots := ⟨rfl, rfl⟩

theorem trans (first : SameAt group before between) (second : SameAt group between after) :
    SameAt group before after :=
  ⟨second.start.trans first.start, second.stop.trans first.stop⟩

theorem setStart (slots : Slots) (other : number ≠ group) (value : Int) :
    SameAt group slots (slots.setStart number value) :=
  ⟨slots.start_setStart_of_ne other value, rfl⟩

theorem setStop (slots : Slots) (other : number ≠ group) (value : Int) :
    SameAt group slots (slots.setStop number value) :=
  ⟨rfl, slots.stop_setStop_of_ne other value⟩

end Slots.SameAt

open Slots (SameAt)

theorem Quantifier.outcomes_keep {quantifier : Quantifier} {limit group : Nat}
    {body : Nat → Slots → List Outcome}
    (bodies : ∀ index slots, ∀ outcome ∈ body index slots, SameAt group slots outcome.2)
    (count index : Nat) (slots : Slots) :
    ∀ outcome ∈ quantifier.outcomes limit body count index slots,
      SameAt group slots outcome.2 := by
  induction count, index, slots using quantifier.iteration_induction limit with
  | forced count index slots few ih =>
    intro outcome member
    rw [outcomes_forced few, List.mem_flatMap] at member
    obtain ⟨⟨stop, after⟩, iterated, member⟩ := member
    exact (bodies index slots _ iterated).trans (ih stop after outcome member)
  | free count index slots enough ih =>
    intro outcome member
    rcases (mem_outcomes_free enough).mp member with rfl | member
    · exact .refl slots
    · obtain ⟨_, stop, after, iterated, moves, member⟩ := mem_goingOutcomes.mp member
      exact (bodies index slots _ iterated).trans (ih stop after moves outcome member)

namespace Expr

variable {text : Array Char} {group : Nat}

theorem itemOutcomes_keep {items : List Expr}
    (each : ∀ item ∈ items, ∀ index slots, ∀ outcome ∈ item.outcomes text index slots,
      SameAt group slots outcome.2) (index : Nat) (slots : Slots) :
    ∀ outcome ∈ itemOutcomes text items index slots, SameAt group slots outcome.2 := by
  induction items generalizing index slots with
  | nil =>
    intro outcome member
    rw [itemOutcomes, List.mem_singleton] at member
    exact member ▸ .refl slots
  | cons item items ih =>
    obtain ⟨head, tail⟩ := List.forall_mem_cons.mp each
    intro outcome member
    rw [itemOutcomes, List.mem_flatMap] at member
    obtain ⟨⟨stop, after⟩, first, rest⟩ := member
    exact (head index slots _ first).trans (ih tail stop after outcome rest)

/-- An outcome leaves the slots of every group that is not one of the expression's. -/
theorem outcomes_keep (expr : Expr) (foreign : group ∉ expr.groups) (index : Nat) (slots : Slots) :
    ∀ outcome ∈ expr.outcomes text index slots, SameAt group slots outcome.2 := by
  induction expr using induction generalizing index slots with
  | empty =>
    intro outcome member
    rw [outcomes, List.mem_singleton] at member
    exact member ▸ .refl slots
  | predicate test | atStart | atEnd =>
    intro outcome member
    rw [outcomes] at member
    split at member
    · rw [List.mem_singleton] at member
      exact member ▸ .refl slots
    · cases member
  | sequence items ih =>
    rw [groups_sequence] at foreign
    rw [outcomes]
    refine itemOutcomes_keep (fun item member => ih item member fun named => ?_) index slots
    exact foreign (List.mem_flatMap.mpr ⟨item, member, named⟩)
  | alternation branches ih =>
    rw [groups_alternation] at foreign
    intro outcome member
    rw [outcomes, mem_branchOutcomes] at member
    obtain ⟨branch, offered, matched⟩ := member
    have fresh : group ∉ branch.groups :=
      fun named => foreign (List.mem_flatMap.mpr ⟨branch, offered, named⟩)
    exact ih branch offered fresh index slots outcome matched
  | group number body ih =>
    rw [groups_group, List.mem_cons, not_or] at foreign
    have other : number ≠ group := fun same => foreign.1 same.symm
    intro outcome member
    rw [outcomes] at member
    obtain ⟨⟨stop, after⟩, matched, rfl⟩ := List.mem_map.mp member
    exact (SameAt.setStart slots other index).trans
      ((ih foreign.2 index _ _ matched).trans (SameAt.setStop after other stop))
  | repetition body quantifier ih =>
    rw [outcomes]
    exact quantifier.outcomes_keep (ih foreign) 0 index slots
  | backreference number =>
    intro outcome member
    rw [outcomes] at member
    split at member
    · cases member
    · dsimp only at member
      split at member
      · rw [List.mem_singleton] at member
        exact member ▸ .refl slots
      · cases member

end Expr

end PatternSearch
