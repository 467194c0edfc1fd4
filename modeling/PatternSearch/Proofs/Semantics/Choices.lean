import PatternSearch.Expr.Rewriting
import PatternSearch.Proofs.Expr.Parts
import PatternSearch.Proofs.Semantics.Outcomes

/-! Outcomes that offer the same choice. What follows a part of a pattern sees its outcomes one
after the other and takes the first that suits, so an outcome that comes again changes nothing.
Lists that offer the same choice can stand for each other in every context. -/

namespace PatternSearch

/-- Whatever is asked of an outcome, the first that suits is the same in both lists. -/
def SameChoice (first second : List Outcome) : Prop :=
  ∀ suits : Outcome → Bool, first.find? suits = second.find? suits

theorem findSome?_eq_bind_find? {α β : Type} (list : List α) (next : α → Option β) :
    list.findSome? next = (list.find? fun a => (next a).isSome).bind next := by
  induction list with
  | nil => rfl
  | cons a list ih =>
    rw [List.findSome?_cons, List.find?_cons]
    cases here : next a with
    | none => exact ih
    | some b => exact here.symm

namespace SameChoice

variable {first second third rest others again : List Outcome} {outcome : Outcome}

theorem refl (outcomes : List Outcome) : SameChoice outcomes outcomes := fun _ => rfl

theorem symm (same : SameChoice first second) : SameChoice second first :=
  fun suits => (same suits).symm

theorem trans (same : SameChoice first second) (further : SameChoice second third) :
    SameChoice first third :=
  fun suits => (same suits).trans (further suits)

theorem append (front : SameChoice first second) (back : SameChoice rest others) :
    SameChoice (first ++ rest) (second ++ others) := by
  intro suits
  rw [List.find?_append, List.find?_append, front, back]

theorem cons (outcome : Outcome) (back : SameChoice rest others) :
    SameChoice (outcome :: rest) (outcome :: others) :=
  (refl [outcome]).append back

/-- Outcomes that come again can be left out. -/
theorem absorb (rest : List Outcome) (known : ∀ outcome ∈ again, outcome ∈ first) :
    SameChoice (first ++ (again ++ rest)) (first ++ rest) := by
  intro suits
  rw [List.find?_append, List.find?_append, List.find?_append]
  cases found : first.find? suits with
  | some outcome => rfl
  | none =>
    have unsuited : again.find? suits = none := by
      rw [List.find?_eq_none] at found ⊢
      exact fun outcome member => found outcome (known outcome member)
    rw [unsuited, Option.none_or, Option.none_or]

theorem absorb_last (known : ∀ outcome ∈ again, outcome ∈ first) :
    SameChoice (first ++ again) first := by
  simpa using absorb [] known

theorem absorb_one (rest : List Outcome) (known : outcome ∈ first) :
    SameChoice (first ++ outcome :: rest) (first ++ rest) :=
  absorb rest (List.forall_mem_singleton.mpr known)

theorem stutter (outcome : Outcome) (rest : List Outcome) :
    SameChoice (outcome :: outcome :: rest) (outcome :: rest) :=
  absorb_one rest (List.mem_singleton_self outcome)

theorem flatMap (same : SameChoice first second) (next : Outcome → List Outcome) :
    SameChoice (first.flatMap next) (second.flatMap next) := by
  intro suits
  rw [List.find?_flatMap, List.find?_flatMap, findSome?_eq_bind_find?, findSome?_eq_bind_find?,
    same]

theorem flatMap_congr {next onward : Outcome → List Outcome} (outcomes : List Outcome)
    (each : ∀ outcome ∈ outcomes, SameChoice (next outcome) (onward outcome)) :
    SameChoice (outcomes.flatMap next) (outcomes.flatMap onward) := by
  induction outcomes with
  | nil => exact refl []
  | cons outcome outcomes ih =>
    obtain ⟨head, tail⟩ := List.forall_mem_cons.mp each
    rw [List.flatMap_cons, List.flatMap_cons]
    exact head.append (ih tail)

theorem head?_eq (same : SameChoice first second) : first.head? = second.head? := by
  have taken := same fun _ => true
  cases first <;> cases second <;> exact taken

end SameChoice

theorem Quantifier.outcomes_sameChoice {body other : Nat → Slots → List Outcome}
    (bodies : ∀ index slots, SameChoice (body index slots) (other index slots))
    (quantifier : Quantifier) (limit count index : Nat) (slots : Slots) :
    SameChoice (quantifier.outcomes limit body count index slots)
      (quantifier.outcomes limit other count index slots) := by
  induction count, index, slots using quantifier.iteration_induction limit with
  | forced count index slots few ih =>
    rw [outcomes_forced few, outcomes_forced few]
    exact ((bodies index slots).flatMap _).trans
      (.flatMap_congr _ fun outcome _ => ih outcome.1 outcome.2)
  | free count index slots enough ih =>
    have going : SameChoice (quantifier.goingOutcomes limit body count index slots)
        (quantifier.goingOutcomes limit other count index slots) := by
      unfold goingOutcomes
      split
      · refine ((bodies index slots).flatMap _).trans (.flatMap_congr _ fun outcome _ => ?_)
        dsimp only
        split
        · next moves => exact ih _ _ moves
        · exact .refl _
      · exact .refl _
    rw [outcomes_free enough, outcomes_free enough]
    split
    · exact going.append (.refl _)
    · exact going.cons _

namespace Expr

section Contexts

variable {text : Array Char} {part image : Expr}

theorem mem_parts_iff_fill {expr : Expr} :
    part ∈ expr.parts ↔ ∃ context : Context, expr = context.fill part := by
  constructor
  · intro member
    induction expr using induction with
    | empty | predicate _ | atStart | atEnd | backreference _ =>
      exact ⟨.hole, (List.mem_singleton.mp member).symm⟩
    | sequence items ih =>
      rcases List.mem_cons.mp member with rfl | below
      · exact ⟨.hole, rfl⟩
      · rw [allParts_eq_flatMap] at below
        obtain ⟨item, listed, within⟩ := List.mem_flatMap.mp below
        obtain ⟨inner, rfl⟩ := ih item listed within
        obtain ⟨before, behind, rfl⟩ := List.mem_iff_append.mp listed
        exact ⟨.sequence before inner behind, rfl⟩
    | alternation branches ih =>
      rcases List.mem_cons.mp member with rfl | below
      · exact ⟨.hole, rfl⟩
      · rw [allParts_eq_flatMap] at below
        obtain ⟨branch, listed, within⟩ := List.mem_flatMap.mp below
        obtain ⟨inner, rfl⟩ := ih branch listed within
        obtain ⟨before, behind, rfl⟩ := List.mem_iff_append.mp listed
        exact ⟨.alternation before inner behind, rfl⟩
    | group index body ih =>
      rcases List.mem_cons.mp member with rfl | below
      · exact ⟨.hole, rfl⟩
      · obtain ⟨inner, rfl⟩ := ih below
        exact ⟨.group index inner, rfl⟩
    | repetition body quantifier ih =>
      rcases List.mem_cons.mp member with rfl | below
      · exact ⟨.hole, rfl⟩
      · obtain ⟨inner, rfl⟩ := ih below
        exact ⟨.repetition inner quantifier, rfl⟩
  · rintro ⟨context, rfl⟩
    induction context with
    | hole => exact part.self_mem_parts
    | sequence before inner behind ih | alternation before inner behind ih =>
      apply List.mem_cons_of_mem
      rw [allParts_eq_flatMap]
      exact List.mem_flatMap.mpr ⟨_, List.mem_append_right _ (List.mem_cons_self ..), ih⟩
    | group _ inner ih | repetition inner _ ih => exact List.mem_cons_of_mem _ ih

theorem itemOutcomes_append (items others : List Expr) (index : Nat) (slots : Slots) :
    itemOutcomes text (items ++ others) index slots =
      (itemOutcomes text items index slots).flatMap fun (stop, after) =>
        itemOutcomes text others stop after := by
  induction items generalizing index slots with
  | nil => rw [List.nil_append, itemOutcomes, List.flatMap_singleton]
  | cons item items ih =>
    rw [List.cons_append, itemOutcomes, itemOutcomes, List.flatMap_assoc]
    exact List.flatMap_congr fun outcome _ => ih outcome.1 outcome.2

theorem itemOutcomes_singleton (item : Expr) (index : Nat) (slots : Slots) :
    itemOutcomes text [item] index slots = item.outcomes text index slots := by
  rw [itemOutcomes]
  exact List.flatMap_singleton' _

theorem branchOutcomes_append (branches others : List Expr) (index : Nat) (slots : Slots) :
    branchOutcomes text (branches ++ others) index slots =
      branchOutcomes text branches index slots ++ branchOutcomes text others index slots := by
  induction branches with
  | nil => rfl
  | cons branch branches ih =>
    rw [List.cons_append, branchOutcomes, branchOutcomes, ih, List.append_assoc]

/-- Parts that offer the same choice everywhere offer it in every context. -/
theorem sameChoice_fill
    (same : ∀ index slots,
      SameChoice (part.outcomes text index slots) (image.outcomes text index slots))
    (context : Context) (index : Nat) (slots : Slots) :
    SameChoice ((context.fill part).outcomes text index slots)
      ((context.fill image).outcomes text index slots) := by
  induction context generalizing index slots with
  | hole => exact same index slots
  | sequence before inner behind ih =>
    rw [Context.fill, Context.fill, outcomes, outcomes, itemOutcomes_append, itemOutcomes_append]
    refine .flatMap_congr _ fun ⟨stop, after⟩ _ => ?_
    dsimp only
    rw [itemOutcomes, itemOutcomes]
    exact (ih stop after).flatMap _
  | alternation before inner behind ih =>
    rw [Context.fill, Context.fill, outcomes, outcomes, branchOutcomes_append,
      branchOutcomes_append]
    exact (SameChoice.refl _).append ((ih index slots).append (.refl _))
  | group number inner ih =>
    rw [Context.fill, Context.fill, outcomes, outcomes, List.map_eq_flatMap, List.map_eq_flatMap]
    exact (ih index (slots.setStart number index)).flatMap _
  | repetition inner quantifier ih =>
    rw [Context.fill, Context.fill, outcomes, outcomes]
    exact quantifier.outcomes_sameChoice ih text.size 0 index slots

theorem firstOutcome?_congr {slots : Slots} (start : Nat)
    (same : ∀ index, SameChoice (part.outcomes text index slots)
      (image.outcomes text index slots)) :
    part.firstOutcome? text start slots = image.firstOutcome? text start slots := by
  unfold firstOutcome?
  congr 1
  funext index
  rw [(same index).head?_eq]

end Contexts

end Expr

end PatternSearch
