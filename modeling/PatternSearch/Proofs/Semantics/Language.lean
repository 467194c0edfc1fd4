import PatternSearch.Proofs.Expr.Canonical
import PatternSearch.Proofs.Semantics.Outcomes
import PatternSearch.Semantics.Matches

/-! Outcomes against the language. Without backreferences an expression has an outcome that ends
at a position exactly if it matches up to there in the unordered sense. An iteration behind the
minimum that does not move is dropped from the outcomes, which loses none of their ends: the
iterations that follow it could have followed the one before. -/

namespace PatternSearch

namespace Expr

/-- What the language has a meaning for: no backreferences and no reversed bounds. -/
def Regular : Expr → Prop
  | backreference _ => False
  | repetition _ quantifier => ∀ max ∈ quantifier.max, quantifier.min ≤ max
  | _ => True

theorem Canonical.regular {expr : Expr} {groups : Nat} (canonical : expr.Canonical groups)
    (plain : expr.references = []) : expr.Throughout Regular := by
  intro part member
  have shaped := canonical.shaped part member
  cases part with
  | backreference index =>
    have named : index ∈ expr.references := List.mem_filterMap.mpr ⟨_, member, rfl⟩
    rw [plain] at named
    cases named
  | repetition body quantifier => exact fun max given => (shaped.2.high max given).1
  | _ => trivial

def Reaches (text : Array Char) (expr : Expr) (index : Nat) (slots : Slots) (stop : Nat) : Prop :=
  ∃ after, (stop, after) ∈ expr.outcomes text index slots

/-- Whatever the slots hold, the outcomes end where the language says. -/
def Agrees (text : Array Char) (expr : Expr) : Prop :=
  ∀ index slots stop, index ≤ text.size →
    (expr.Reaches text index slots stop ↔ Matches text expr index stop)

end Expr

open PatternSearch.Expr (Agrees Iterates Matches MatchesAll Reaches)

section Repetition

variable {text : Array Char} {body : Expr} {quantifier : Quantifier}

theorem Quantifier.iterates_of_outcome (ordered : ∀ max ∈ quantifier.max, quantifier.min ≤ max)
    (agrees : body.Agrees text) (count index : Nat) (slots : Slots) :
    index ≤ text.size → (∀ max ∈ quantifier.max, count ≤ max) → ∀ stop after,
      (stop, after) ∈ quantifier.outcomes text.size (body.outcomes text) count index slots →
        ∃ more, quantifier.min ≤ count + more ∧ (∀ max ∈ quantifier.max, count + more ≤ max) ∧
          Iterates text body more index stop := by
  induction count, index, slots using quantifier.iteration_induction text.size with
  | forced count index slots few ih =>
    intro inside counted stop after member
    rw [outcomes_forced few, List.mem_flatMap] at member
    obtain ⟨⟨middle, between⟩, first, rest⟩ := member
    have follows := body.outcomes_follow index slots inside _ first
    have fits : ∀ max ∈ quantifier.max, count + 1 ≤ max := by
      intro max given
      have bound := ordered max given
      omega
    obtain ⟨more, enough, allowed, iterated⟩ :=
      ih middle between follows.inside fits stop after rest
    have begun := (agrees index slots middle inside).mp ⟨between, first⟩
    refine ⟨more + 1, by omega, ?_, .succ begun iterated⟩
    intro max given
    have bound := allowed max given
    omega
  | free count index slots enough ih =>
    intro inside counted stop after member
    rcases (mem_outcomes_free enough).mp member with here | member
    · cases here
      exact ⟨0, by omega, counted, .zero⟩
    · obtain ⟨allowsMore, middle, between, first, moves, rest⟩ := mem_goingOutcomes.mp member
      obtain ⟨more, sufficient, allowed, iterated⟩ :=
        ih middle between moves moves.2 (allowsMore_iff.mp allowsMore) stop after rest
      have begun := (agrees index slots middle inside).mp ⟨between, first⟩
      refine ⟨more + 1, by omega, ?_, .succ begun iterated⟩
      intro max given
      have bound := allowed max given
      omega

/-- By induction on the iterations. One that is free and does not move is left out, and the
others are counted as if it had not been there. -/
theorem Quantifier.outcome_of_iterates (agrees : body.Agrees text) (more : Nat) :
    ∀ {count index stop : Nat}, Iterates text body more index stop → index ≤ text.size →
      quantifier.min ≤ count + more → (∀ max ∈ quantifier.max, count + more ≤ max) →
      ∀ slots, ∃ after, (stop, after) ∈
        quantifier.outcomes text.size (body.outcomes text) count index slots := by
  induction more with
  | zero =>
    intro count index stop iterated inside enough allowed slots
    cases iterated
    exact ⟨slots, (mem_outcomes_free (by omega)).mpr (.inl rfl)⟩
  | succ more ih =>
    intro count index stop iterated inside enough allowed slots
    cases iterated with
    | @succ _ _ _ middle _ first rest =>
      obtain ⟨between, begun⟩ := (agrees index slots middle inside).mpr first
      have follows := body.outcomes_follow index slots inside _ begun
      have forward : index ≤ middle := follows.forward
      have further : ∀ max ∈ quantifier.max, count + 1 + more ≤ max := by
        intro max given
        have bound := allowed max given
        omega
      by_cases few : count < quantifier.min
      · obtain ⟨after, member⟩ := ih rest follows.inside (by omega) further between
        refine ⟨after, ?_⟩
        rw [outcomes_forced few, List.mem_flatMap]
        exact ⟨(middle, between), begun, member⟩
      · by_cases still : middle = index
        · -- What follows this iteration could have followed the one before it.
          subst still
          have kept : ∀ max ∈ quantifier.max, count + more ≤ max := by
            intro max given
            have bound := allowed max given
            omega
          exact ih rest inside (by omega) kept slots
        · obtain ⟨after, member⟩ := ih rest follows.inside (by omega) further between
          refine ⟨after, (mem_outcomes_free few).mpr (.inr ?_)⟩
          have moves : index < middle ∧ middle ≤ text.size := ⟨by omega, follows.inside⟩
          refine mem_goingOutcomes.mpr
            ⟨allowsMore_iff.mpr ?_, middle, between, begun, moves, member⟩
          intro max given
          have bound := further max given
          omega

theorem agrees_repetition (ordered : ∀ max ∈ quantifier.max, quantifier.min ≤ max)
    (agrees : body.Agrees text) : (Expr.repetition body quantifier).Agrees text := by
  intro index slots stop inside
  unfold Reaches
  rw [Expr.outcomes]
  constructor
  · rintro ⟨after, member⟩
    obtain ⟨more, enough, allowed, iterated⟩ :=
      quantifier.iterates_of_outcome ordered agrees 0 index slots inside (by simp) stop after member
    rw [Nat.zero_add] at enough
    simp only [Nat.zero_add] at allowed
    exact .repetition enough allowed iterated
  · intro matched
    cases matched with
    | repetition enough allowed iterated =>
      refine Quantifier.outcome_of_iterates agrees _ iterated inside ?_ ?_ slots
      · rw [Nat.zero_add]
        exact enough
      · intro max given
        rw [Nat.zero_add]
        exact allowed max given

end Repetition

section Agreement

variable {text : Array Char}

theorem exists_mem_ite {condition : Prop} [Decidable condition] {place stop : Nat}
    {slots : Slots} :
    (∃ after, (stop, after) ∈ if condition then [(place, slots)] else []) ↔
      condition ∧ stop = place := by
  by_cases met : condition
  · simp [met]
  · simp [met]

theorem agrees_empty : Expr.empty.Agrees text := by
  intro index slots stop inside
  unfold Reaches
  rw [Expr.outcomes]
  constructor
  · rintro ⟨after, member⟩
    rw [List.mem_singleton] at member
    cases member
    exact .empty
  · intro matched
    cases matched
    exact ⟨slots, List.mem_singleton_self _⟩

theorem agrees_predicate (test : Predicate) : (Expr.predicate test).Agrees text := by
  intro index slots stop inside
  unfold Reaches
  rw [Expr.outcomes, exists_mem_ite]
  constructor
  · rintro ⟨accepted, rfl⟩
    obtain ⟨c, there, accepts⟩ := (Option.any_eq_true ..).mp accepted
    exact .predicate there accepts
  · intro matched
    cases matched with
    | predicate there accepted =>
      exact ⟨(Option.any_eq_true ..).mpr ⟨_, there, accepted⟩, rfl⟩

theorem agrees_atStart : Expr.atStart.Agrees text := by
  intro index slots stop inside
  unfold Reaches
  rw [Expr.outcomes, exists_mem_ite]
  constructor
  · rintro ⟨rfl, rfl⟩
    exact .atStart
  · intro matched
    cases matched
    exact ⟨rfl, rfl⟩

theorem agrees_atEnd : Expr.atEnd.Agrees text := by
  intro index slots stop inside
  unfold Reaches
  rw [Expr.outcomes, exists_mem_ite]
  constructor
  · rintro ⟨rfl, rfl⟩
    exact .atEnd
  · intro matched
    cases matched
    exact ⟨rfl, rfl⟩

theorem agrees_group {number : Nat} {body : Expr} (agrees : body.Agrees text) :
    (Expr.group number body).Agrees text := by
  intro index slots stop inside
  unfold Reaches
  rw [Expr.outcomes]
  constructor
  · rintro ⟨after, member⟩
    obtain ⟨⟨inner, between⟩, matched, same⟩ := List.mem_map.mp member
    cases same
    exact .group ((agrees index _ _ inside).mp ⟨between, matched⟩)
  · intro matched
    cases matched with
    | group matched =>
      obtain ⟨between, member⟩ :=
        (agrees index (slots.setStart number index) stop inside).mpr matched
      exact ⟨between.setStop number stop, List.mem_map.mpr ⟨(stop, between), member, rfl⟩⟩

theorem itemOutcomes_agree {items : List Expr} (agree : ∀ item ∈ items, item.Agrees text)
    (index : Nat) (slots : Slots) (stop : Nat) (inside : index ≤ text.size) :
    (∃ after, (stop, after) ∈ Expr.itemOutcomes text items index slots) ↔
      MatchesAll text items index stop := by
  induction items generalizing index slots with
  | nil =>
    rw [Expr.itemOutcomes]
    constructor
    · rintro ⟨after, member⟩
      rw [List.mem_singleton] at member
      cases member
      exact .nil
    · intro matched
      cases matched
      exact ⟨slots, List.mem_singleton_self _⟩
  | cons item items ih =>
    have head := agree item (List.mem_cons_self ..)
    have tail := ih fun other member => agree other (List.mem_cons_of_mem _ member)
    rw [Expr.itemOutcomes]
    constructor
    · rintro ⟨after, member⟩
      obtain ⟨⟨middle, between⟩, first, rest⟩ := List.mem_flatMap.mp member
      have follows := item.outcomes_follow index slots inside _ first
      exact .cons ((head index slots middle inside).mp ⟨between, first⟩)
        ((tail middle between follows.inside).mp ⟨after, rest⟩)
    · intro matched
      cases matched with
      | cons first rest =>
        obtain ⟨between, begun⟩ := (head index slots _ inside).mpr first
        have follows := item.outcomes_follow index slots inside _ begun
        obtain ⟨after, member⟩ := (tail _ between follows.inside).mpr rest
        exact ⟨after, List.mem_flatMap.mpr ⟨_, begun, member⟩⟩

theorem mem_branchOutcomes {branches : List Expr} {index : Nat} {slots : Slots}
    {outcome : Outcome} :
    outcome ∈ Expr.branchOutcomes text branches index slots ↔
      ∃ branch ∈ branches, outcome ∈ branch.outcomes text index slots := by
  induction branches with
  | nil => simp [Expr.branchOutcomes]
  | cons branch branches ih =>
    rw [Expr.branchOutcomes, List.mem_append, ih]
    simp

theorem agrees_alternation {branches : List Expr}
    (agree : ∀ branch ∈ branches, branch.Agrees text) :
    (Expr.alternation branches).Agrees text := by
  intro index slots stop inside
  unfold Reaches
  rw [Expr.outcomes]
  constructor
  · rintro ⟨after, member⟩
    obtain ⟨branch, offered, matched⟩ := mem_branchOutcomes.mp member
    exact .alternation offered ((agree branch offered index slots stop inside).mp ⟨after, matched⟩)
  · intro matched
    cases matched with
    | alternation offered matched =>
      obtain ⟨after, member⟩ := (agree _ offered index slots stop inside).mpr matched
      exact ⟨after, mem_branchOutcomes.mpr ⟨_, offered, member⟩⟩

/-- By induction on the tree: outcomes end exactly where the language says. -/
theorem agrees_of_regular {expr : Expr} (regular : expr.Throughout Expr.Regular) :
    expr.Agrees text := by
  induction expr using Expr.induction with
  | empty => exact agrees_empty
  | predicate test => exact agrees_predicate test
  | atStart => exact agrees_atStart
  | atEnd => exact agrees_atEnd
  | sequence items ih =>
    have all := (Expr.Throughout.sequence_iff.mp regular).2
    intro index slots stop inside
    have itemsAgree := itemOutcomes_agree (fun item member => ih item member (all item member))
      index slots stop inside
    unfold Reaches
    rw [Expr.outcomes, itemsAgree]
    constructor
    · exact .sequence
    · intro matched
      cases matched with
      | sequence chained => exact chained
  | alternation branches ih =>
    have all := (Expr.Throughout.alternation_iff.mp regular).2
    exact agrees_alternation fun branch member => ih branch member (all branch member)
  | group index body ih => exact agrees_group (ih (Expr.Throughout.group_iff.mp regular).2)
  | repetition body quantifier ih =>
    have ⟨ordered, inner⟩ := Expr.Throughout.repetition_iff.mp regular
    exact agrees_repetition ordered (ih inner)
  | backreference index => exact False.elim regular.here

end Agreement

end PatternSearch
