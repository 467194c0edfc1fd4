import Mathlib.Data.List.Nodup
import Mathlib.Data.List.Pairwise
import PatternSearch.Proofs.Expr.Parts
import PatternSearch.Semantics.Marks
import PatternSearch.Semantics.Matches

/-! What the marks of a match say about a group. If no group lies in itself, the last marks of a
group come from one passage through it: whatever the group began and left earlier was overwritten.
So once the marks have been written, the slots of the group are both as before or hold the two
ends of one match of its body. -/

namespace PatternSearch

open PatternSearch.Expr (Matches MatchesAll Iterates Passes PassesAll)

variable {text : Array Char}

namespace Expr

theorem iterates_of_replicate {body : Expr} {count start stop : Nat}
    (matched : MatchesAll text (List.replicate count body) start stop) :
    Iterates text body count start stop := by
  induction count generalizing start with
  | zero =>
    cases matched
    exact .zero
  | succ count ih =>
    cases matched with
    | cons first rest => exact .succ first (ih rest)

mutual

theorem Passes.matches {expr : Expr} {start stop : Nat} {marks : List Mark} :
    Passes text expr start marks stop → expr.references = [] → Matches text expr start stop
  | .empty, _ => .empty
  | .predicate there accepted, _ => .predicate there accepted
  | .atStart, _ => .atStart
  | .atEnd, _ => .atEnd
  | .sequence chained, plain => by
    rw [references_sequence, List.flatMap_eq_nil_iff] at plain
    exact .sequence (chained.matchesAll plain)
  | .alternation offered passed, plain => by
    rw [references_alternation, List.flatMap_eq_nil_iff] at plain
    exact .alternation offered (passed.matches (plain _ offered))
  | .group passed, plain => .group (passed.matches plain)
  | .repetition enough allowed iterated, plain => by
    have matched := iterated.matchesAll fun item member => List.eq_of_mem_replicate member ▸ plain
    exact .repetition enough allowed (iterates_of_replicate matched)
  | .backreference _ _, plain => by cases plain

theorem PassesAll.matchesAll {items : List Expr} {start stop : Nat} {marks : List Mark} :
    PassesAll text items start marks stop → (∀ item ∈ items, item.references = []) →
      MatchesAll text items start stop
  | .nil, _ => .nil
  | .cons head tail, plain =>
    .cons (head.matches (plain _ (List.mem_cons_self ..)))
      (tail.matchesAll fun item member => plain item (List.mem_cons_of_mem _ member))

end

mutual

theorem Passes.forward {expr : Expr} {start stop : Nat} {marks : List Mark} :
    Passes text expr start marks stop → start ≤ text.size → start ≤ stop ∧ stop ≤ text.size
  | .empty, inside => ⟨Nat.le_refl _, inside⟩
  | .predicate there _, _ => ⟨Nat.le_succ _, (Array.getElem?_eq_some_iff.mp there).1⟩
  | .atStart, inside => ⟨Nat.le_refl _, inside⟩
  | .atEnd, inside => ⟨Nat.le_refl _, inside⟩
  | .sequence chained, inside => chained.forward inside
  | .alternation _ passed, inside => passed.forward inside
  | .group passed, inside => passed.forward inside
  | .repetition _ _ iterated, inside => iterated.forward inside
  | .backreference forward bounded, _ => ⟨forward, bounded⟩

theorem PassesAll.forward {items : List Expr} {start stop : Nat} {marks : List Mark} :
    PassesAll text items start marks stop → start ≤ text.size → start ≤ stop ∧ stop ≤ text.size
  | .nil, inside => ⟨Nat.le_refl _, inside⟩
  | .cons head tail, inside =>
    have first := head.forward inside
    have rest := tail.forward first.2
    ⟨Nat.le_trans first.1 rest.1, rest.2⟩

end

mutual

theorem Passes.marked {expr : Expr} {start stop : Nat} {marks : List Mark} :
    Passes text expr start marks stop → ∀ mark ∈ marks, mark.group ∈ expr.groups
  | .empty, _, member => nomatch member
  | .predicate _ _, _, member => nomatch member
  | .atStart, _, member => nomatch member
  | .atEnd, _, member => nomatch member
  | .sequence chained, mark, member => by
    rw [groups_sequence, List.mem_flatMap]
    exact chained.marked mark member
  | .alternation offered passed, mark, member => by
    rw [groups_alternation, List.mem_flatMap]
    exact ⟨_, offered, passed.marked mark member⟩
  | .group passed, mark, member => by
    rw [groups_group, List.mem_cons]
    simp only [List.mem_cons, List.mem_append, List.not_mem_nil, or_false] at member
    rcases member with rfl | inner | rfl
    · exact .inl rfl
    · exact .inr (passed.marked mark inner)
    · exact .inl rfl
  | .repetition _ _ iterated, mark, member => by
    obtain ⟨item, copy, named⟩ := iterated.marked mark member
    rw [groups_repetition]
    exact List.eq_of_mem_replicate copy ▸ named
  | .backreference _ _, _, member => nomatch member

theorem PassesAll.marked {items : List Expr} {start stop : Nat} {marks : List Mark} :
    PassesAll text items start marks stop →
      ∀ mark ∈ marks, ∃ item ∈ items, mark.group ∈ item.groups
  | .nil, _, member => nomatch member
  | .cons head tail, mark, member => by
    rcases List.mem_append.mp member with first | rest
    · exact ⟨_, List.mem_cons_self .., head.marked mark first⟩
    · obtain ⟨item, later, named⟩ := tail.marked mark rest
      exact ⟨item, List.mem_cons_of_mem _ later, named⟩

end

/-- The last passage through the group, from `first` to `last`, lies between two positions and
is one through the body of a group among the parts. -/
structure Captured (text : Array Char) (group first last start : Nat) (marks : List Mark)
    (stop : Nat) (parts : List Expr) : Prop where
  after : start ≤ first
  forward : first ≤ last
  before : last ≤ stop
  passage : ∃ before inside after, LastPassage group first last marks before inside after ∧
    ∃ body, Expr.group group body ∈ parts ∧ Passes text body first inside last

namespace Captured

variable {group first last start middle stop : Nat} {marks : List Mark} {parts : List Expr}

theorem prepend (captured : Captured text group first last middle marks stop parts)
    (forward : start ≤ middle) (earlier : List Mark) :
    Captured text group first last start (earlier ++ marks) stop parts := by
  obtain ⟨before, inside, after, ⟨rfl, silent, settled⟩, owned⟩ := captured.passage
  refine ⟨Nat.le_trans forward captured.after, captured.forward, captured.before,
    earlier ++ before, inside, after, ⟨?_, silent, settled⟩, owned⟩
  rw [List.append_assoc]

theorem append (captured : Captured text group first last start marks middle parts)
    (forward : middle ≤ stop) {later : List Mark} (untouched : ∀ mark ∈ later, mark.group ≠ group) :
    Captured text group first last start (marks ++ later) stop parts := by
  obtain ⟨before, inside, after, ⟨rfl, silent, settled⟩, owned⟩ := captured.passage
  refine ⟨captured.after, captured.forward, Nat.le_trans captured.before forward, before, inside,
    after ++ later, ⟨?_, silent, List.forall_mem_append.mpr ⟨settled, untouched⟩⟩, owned⟩
  simp only [List.append_assoc, List.cons_append]

theorem among {others : List Expr}
    (captured : Captured text group first last start marks stop parts)
    (among : ∀ part ∈ parts, part ∈ others) :
    Captured text group first last start marks stop others := by
  obtain ⟨before, inside, after, passage, body, member, passes⟩ := captured.passage
  exact ⟨captured.after, captured.forward, captured.before, before, inside, after, passage, body,
    among _ member, passes⟩

end Captured

def Settled (text : Array Char) (group start : Nat) (marks : List Mark) (stop : Nat)
    (parts : List Expr) : Prop :=
  (∀ mark ∈ marks, mark.group ≠ group) ∨
    ∃ first last, Captured text group first last start marks stop parts

theorem Settled.among {group start stop : Nat} {marks : List Mark} {parts others : List Expr}
    (settled : Settled text group start marks stop parts)
    (among : ∀ part ∈ parts, part ∈ others) : Settled text group start marks stop others := by
  rcases settled with untouched | ⟨first, last, captured⟩
  · exact .inl untouched
  · exact .inr ⟨first, last, captured.among among⟩

/-- If something of the group comes later, that is what counts. -/
theorem Settled.append {group start middle stop : Nat} {marks later : List Mark}
    {parts : List Expr} (settled : Settled text group start marks middle parts)
    (further : Settled text group middle later stop parts) (forward : start ≤ middle)
    (onward : middle ≤ stop) : Settled text group start (marks ++ later) stop parts := by
  rcases further with untouched | ⟨first, last, captured⟩
  · rcases settled with silent | ⟨first, last, captured⟩
    · exact .inl (List.forall_mem_append.mpr ⟨silent, untouched⟩)
    · exact .inr ⟨first, last, captured.append onward untouched⟩
  · exact .inr ⟨first, last, captured.prepend forward marks⟩

theorem Settled.none {group start stop : Nat} {parts : List Expr} :
    Settled text group start [] stop parts := .inl nofun

theorem Settled.of_ne {group start stop : Nat} {mark : Mark} {parts : List Expr}
    (other : mark.group ≠ group) : Settled text group start [mark] stop parts :=
  .inl (by simpa using other)

/-- Around its body, a group settles itself, as its body does not mark it, and leaves what its
body settles. -/
theorem settled_group {number group start stop : Nat} {body : Expr} {marks : List Mark}
    (passed : Passes text body start marks stop) (forward : start ≤ stop)
    (fresh : number ∉ body.groups)
    (settled : Settled text group start marks stop body.parts) :
    Settled text group start (.head number start :: (marks ++ [.tail number stop])) stop
      (Expr.group number body).parts := by
  by_cases own : number = group
  · subst own
    have silent : ∀ mark ∈ marks, mark.group ≠ number := by
      intro mark member same
      exact fresh (same ▸ passed.marked mark member)
    refine .inr ⟨start, stop, Nat.le_refl _, forward, Nat.le_refl _, [], marks, [],
      ⟨rfl, silent, nofun⟩, body, self_mem_parts _, passed⟩
  · have inner := settled.among
      fun part member => List.mem_cons_of_mem (Expr.group number body) member
    have head : Settled text group start [.head number start] start
      (Expr.group number body).parts := .of_ne own
    have tail : Settled text group stop [.tail number stop] stop
      (Expr.group number body).parts := .of_ne own
    exact head.append (inner.append tail forward (Nat.le_refl _)) (Nat.le_refl _) forward

mutual

theorem Passes.settled {expr : Expr} {start stop : Nat} {marks : List Mark} :
    Passes text expr start marks stop → start ≤ text.size → expr.groups.Nodup →
      ∀ number, Settled text number start marks stop expr.parts
  | .empty, _, _, _ => .none
  | .predicate _ _, _, _, _ => .none
  | .atStart, _, _, _ => .none
  | .atEnd, _, _, _ => .none
  | @Passes.sequence _ items _ _ _ chained, inside, distinct, number => by
    rw [groups_sequence, List.nodup_flatMap] at distinct
    refine (chained.settled inside distinct.1 number).among ?_
    intro part member
    rw [parts, allParts_eq_flatMap]
    exact List.mem_cons_of_mem _ member
  | @Passes.alternation _ branches branch _ _ _ offered passed, inside, distinct, number => by
    rw [groups_alternation, List.nodup_flatMap] at distinct
    refine (passed.settled inside (distinct.1 branch offered) number).among ?_
    intro part member
    rw [parts, allParts_eq_flatMap]
    exact List.mem_cons_of_mem _ (List.mem_flatMap.mpr ⟨branch, offered, member⟩)
  | .group passed, inside, distinct, number => by
    rw [groups_group, List.nodup_cons] at distinct
    exact settled_group passed (passed.forward inside).1 distinct.1
      (passed.settled inside distinct.2 number)
  | @Passes.repetition _ body quantifier count _ _ _ _ _ iterated, inside, distinct, number => by
    rw [groups_repetition] at distinct
    have copies : ∀ item ∈ List.replicate count body, item.groups.Nodup :=
      fun item copy => List.eq_of_mem_replicate copy ▸ distinct
    refine (iterated.settled inside copies number).among ?_
    intro part member
    obtain ⟨item, copy, owned⟩ := List.mem_flatMap.mp member
    rw [List.eq_of_mem_replicate copy] at owned
    exact List.mem_cons_of_mem _ owned
  | .backreference _ _, _, _, _ => .none

theorem PassesAll.settled {items : List Expr} {start stop : Nat} {marks : List Mark} :
    PassesAll text items start marks stop → start ≤ text.size →
      (∀ item ∈ items, item.groups.Nodup) →
        ∀ number, Settled text number start marks stop (items.flatMap parts)
  | .nil, _, _, _ => .none
  | @PassesAll.cons _ item items _ _ _ _ _ head tail, inside, distinct, number => by
    have ahead := head.forward inside
    have behind := tail.forward ahead.2
    have first := head.settled inside (distinct item (List.mem_cons_self ..)) number
    have rest := tail.settled ahead.2 (fun other later => distinct other
      (List.mem_cons_of_mem _ later)) number
    rw [List.flatMap_cons]
    exact (first.among fun part => List.mem_append_left _).append
      (rest.among fun part => List.mem_append_right _) ahead.1 behind.1

end

/-- No two groups have the same number, so a number belongs to one body. -/
theorem body_unique {expr body other : Expr} {number : Nat} (distinct : expr.groups.Nodup)
    (member : .group number body ∈ expr.parts) (another : .group number other ∈ expr.parts) :
    body = other := by
  unfold groups List.Nodup at distinct
  rw [List.pairwise_filterMap] at distinct
  by_contra different
  have apart : Expr.group number body ≠ .group number other := by
    intro same
    cases same
    exact different rfl
  have symmetric : Std.Symm fun part part' : Expr =>
      ∀ index, part.groupIndex? = some index →
        ∀ index', part'.groupIndex? = some index' → index ≠ index' :=
    ⟨fun _ _ clash _ named _ numbered => (clash _ numbered _ named).symm⟩
  have clash := distinct.forall member another apart
  exact clash number rfl number rfl rfl

theorem references_part {expr part : Expr} (plain : expr.references = [])
    (member : part ∈ expr.parts) : part.references = [] := by
  simp only [references, List.filterMap_eq_nil_iff] at plain ⊢
  exact fun inner deep => plain inner (mem_parts_trans deep member)

theorem Captured.owned {expr : Expr} {group first last start stop : Nat} {marks : List Mark}
    (captured : Captured text group first last start marks stop expr.parts)
    (distinct : expr.groups.Nodup) :
    group ∈ expr.groups ∧ ∃ body,
      (∀ other, .group group other ∈ expr.parts ↔ other = body) ∧
        (expr.references = [] → Matches text body first last) := by
  obtain ⟨before, inside, after, passage, body, member, passes⟩ := captured.passage
  refine ⟨List.mem_filterMap.mpr ⟨_, member, rfl⟩, body, ?_, ?_⟩
  · intro other
    constructor
    · exact fun another => body_unique distinct another member
    · rintro rfl
      exact member
  · intro plain
    have inner := references_part plain member
    rw [references_group] at inner
    exact passes.matches inner

end Expr

namespace Slots

variable {group first last : Nat} {marks : List Mark}

theorem replay_append (slots : Slots) (marks later : List Mark) :
    slots.replay (marks ++ later) = (slots.replay marks).replay later :=
  List.foldl_append

theorem sizes_replay (slots : Slots) (marks : List Mark) :
    (slots.replay marks).starts.size = slots.starts.size ∧
      (slots.replay marks).stops.size = slots.stops.size := by
  induction marks generalizing slots with
  | nil => exact ⟨rfl, rfl⟩
  | cons mark marks ih =>
    obtain ⟨starts, stops⟩ := ih (slots.mark mark)
    cases mark with
    | head number index => exact ⟨starts.trans Array.size_setIfInBounds, stops⟩
    | tail number index => exact ⟨starts, stops.trans Array.size_setIfInBounds⟩

theorem replay_untouched (slots : Slots) (untouched : ∀ mark ∈ marks, mark.group ≠ group) :
    (slots.replay marks).start group = slots.start group ∧
      (slots.replay marks).stop group = slots.stop group := by
  induction marks generalizing slots with
  | nil => exact ⟨rfl, rfl⟩
  | cons mark marks ih =>
    obtain ⟨other, others⟩ := List.forall_mem_cons.mp untouched
    obtain ⟨starts, stops⟩ := ih (slots.mark mark) others
    cases mark with
    | head number index => exact ⟨starts.trans (slots.start_setStart_of_ne other index), stops⟩
    | tail number index => exact ⟨starts, stops.trans (slots.stop_setStop_of_ne other index)⟩

/-- After its last passage, the slots of a group hold the two ends of the passage. -/
theorem replay_lastPassage (slots : Slots) {before inside after : List Mark}
    (passage : LastPassage group first last marks before inside after)
    (starts : group < slots.starts.size) (stops : group < slots.stops.size) :
    (slots.replay marks).start group = first ∧ (slots.replay marks).stop group = last := by
  obtain ⟨rfl, silent, settled⟩ := passage
  rw [replay_append]
  change (((slots.replay before).setStart group first).replay
      (inside ++ .tail group last :: after)).start group = first ∧
    (((slots.replay before).setStart group first).replay
      (inside ++ .tail group last :: after)).stop group = last
  rw [replay_append]
  change (((((slots.replay before).setStart group first).replay inside).setStop group last).replay
      after).start group = first ∧
    (((((slots.replay before).setStart group first).replay inside).setStop group last).replay
      after).stop group = last
  have begun : group < (slots.replay before).starts.size := by
    rw [(sizes_replay slots before).1]
    exact starts
  have ended : group < (((slots.replay before).setStart group first).replay inside).stops.size := by
    rw [(sizes_replay _ inside).2]
    change group < (slots.replay before).stops.size
    rw [(sizes_replay slots before).2]
    exact stops
  rw [(replay_untouched _ settled).1, (replay_untouched _ settled).2, start_setStop,
    stop_setStop ended, if_pos rfl, (replay_untouched _ silent).1, start_setStart begun, if_pos rfl]
  exact ⟨rfl, rfl⟩

end Slots

end PatternSearch
