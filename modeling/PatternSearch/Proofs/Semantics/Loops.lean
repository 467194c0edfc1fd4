import PatternSearch.Proofs.Semantics.Choices

/-! What a loop may still do. Once it has made the iterations that are required, a loop is told by
how many more it allows, however many came before. From each place it can stop, or go on from an
outcome of its body that moves; which of them it tries first is all that greed decides. -/

namespace PatternSearch

/-- A loop may go on or stop here; a greedy loop would rather go on. -/
def arrange (greedy : Bool) (going : List Outcome) (here : Outcome) : List Outcome :=
  if greedy then going ++ [here] else here :: going

def moving (limit : Nat) (body : Nat → Slots → List Outcome) (index : Nat) (slots : Slots) :
    List Outcome :=
  (body index slots).filter fun (stop, _) => index < stop ∧ stop ≤ limit

def atMost (greedy : Bool) (limit : Nat) (body : Nat → Slots → List Outcome) (most : Nat) :
    Nat → Slots → List Outcome :=
  Quantifier.outcomes ⟨0, some most, greedy⟩ limit body 0

def anyNumber (greedy : Bool) (limit : Nat) (body : Nat → Slots → List Outcome) :
    Nat → Slots → List Outcome :=
  Quantifier.outcomes ⟨0, none, greedy⟩ limit body 0

section Arranging

variable {greedy : Bool} {going others : List Outcome} {here outcome : Outcome}

theorem mem_arrange : outcome ∈ arrange greedy going here ↔ outcome = here ∨ outcome ∈ going := by
  unfold arrange
  split
  · rw [List.mem_append, List.mem_singleton]
    exact or_comm
  · exact List.mem_cons

theorem SameChoice.arranged (same : SameChoice going others) :
    SameChoice (arrange greedy going here) (arrange greedy others here) := by
  unfold arrange
  split
  · exact same.append (.refl _)
  · exact same.cons here

theorem flatMap_arrange (next : Outcome → List Outcome) :
    (arrange greedy going here).flatMap next =
      if greedy then going.flatMap next ++ next here else next here ++ going.flatMap next := by
  unfold arrange
  split
  · rw [List.flatMap_append, List.flatMap_singleton]
  · exact List.flatMap_cons

end Arranging

variable {greedy : Bool} {limit index stop : Nat} {slots after : Slots}
  {body : Nat → Slots → List Outcome}

theorem mem_moving : (stop, after) ∈ moving limit body index slots ↔
    (stop, after) ∈ body index slots ∧ index < stop ∧ stop ≤ limit := by
  simp only [moving, List.mem_filter, decide_eq_true_eq]

theorem moving_induction (limit : Nat) {motive : Nat → Slots → Prop}
    (step : ∀ index slots,
      (∀ stop after, index < stop ∧ stop ≤ limit → motive stop after) → motive index slots)
    (index : Nat) (slots : Slots) : motive index slots := by
  induction ahead : limit - index using Nat.strongRecOn generalizing index slots with
  | ind ahead ih =>
    apply step
    intro stop after moves
    exact ih (limit - stop) (by omega) stop after rfl

namespace Quantifier

variable {quantifier first second : Quantifier} {count other : Nat}

theorem goingOutcomes_eq_flatMap :
    quantifier.goingOutcomes limit body count index slots =
      if quantifier.allowsMore count then
        (moving limit body index slots).flatMap fun reached =>
          quantifier.outcomes limit body (count + 1) reached.1 reached.2
      else [] := by
  unfold goingOutcomes moving
  congr 1
  induction body index slots with
  | nil => rfl
  | cons outcome outcomes ih =>
    rw [List.flatMap_cons, ih, List.filter_cons]
    by_cases moves : index < outcome.1 ∧ outcome.1 ≤ limit
    · simp [moves]
    · simp [moves]

theorem outcomes_settled (enough : quantifier.min ≤ count) :
    quantifier.outcomes limit body count index slots =
      arrange quantifier.greedy
        (if quantifier.allowsMore count then
          (moving limit body index slots).flatMap fun reached =>
            quantifier.outcomes limit body (count + 1) reached.1 reached.2
        else []) (index, slots) := by
  rw [outcomes_free (Nat.not_lt.mpr enough), goingOutcomes_eq_flatMap]
  rfl

theorem outcomes_shift (greed : first.greedy = second.greedy) (enough : first.min ≤ count)
    (sufficient : second.min ≤ other)
    (ahead : ∀ more, first.allowsMore (count + more) = second.allowsMore (other + more))
    (index : Nat) (slots : Slots) :
    first.outcomes limit body count index slots =
      second.outcomes limit body other index slots := by
  induction index, slots using moving_induction limit generalizing count other with
  | step index slots ih =>
    rw [outcomes_settled enough, outcomes_settled sufficient, greed, ← Nat.add_zero count,
      ← Nat.add_zero other, ahead 0]
    congr 2
    apply List.flatMap_congr
    rintro ⟨stop, after⟩ member
    apply ih stop after (mem_moving.mp member).2
    · exact Nat.le_succ_of_le enough
    · exact Nat.le_succ_of_le sufficient
    · intro more
      have further := ahead (more + 1)
      rwa [← Nat.add_assoc, ← Nat.add_assoc, Nat.add_right_comm, Nat.add_right_comm other]
        at further

/-- A loop that requires nothing stops here, or makes a turn and is then a loop that allows one turn
less. -/
theorem outcomes_turn (ahead : ∀ turns, first.allowsMore (turns + 1) = second.allowsMore turns)
    (more : first.allowsMore 0 = true) (greed : first.greedy = second.greedy)
    (free : first.min = 0) (freely : second.min = 0) (index : Nat) (slots : Slots) :
    first.outcomes limit body 0 index slots =
      arrange first.greedy ((moving limit body index slots).flatMap fun reached =>
        second.outcomes limit body 0 reached.1 reached.2) (index, slots) := by
  rw [outcomes_settled (Nat.le_of_eq free), if_pos more]
  congr 1
  apply List.flatMap_congr
  intro reached _
  apply outcomes_shift greed
  · omega
  · omega
  · intro turns
    rw [Nat.zero_add, Nat.zero_add, Nat.add_comm]
    exact ahead turns

end Quantifier

theorem atMost_zero : atMost greedy limit body 0 index slots = [(index, slots)] := by
  rw [atMost, Quantifier.outcomes_settled (Nat.le_refl 0)]
  cases greedy <;> rfl

theorem atMost_succ (most : Nat) :
    atMost greedy limit body (most + 1) index slots =
      arrange greedy ((moving limit body index slots).flatMap fun reached =>
        atMost greedy limit body most reached.1 reached.2) (index, slots) := by
  have more : Quantifier.allowsMore ⟨0, some (most + 1), greedy⟩ 0 = true :=
    decide_eq_true (Nat.succ_pos most)
  have ahead : ∀ turns, Quantifier.allowsMore ⟨0, some (most + 1), greedy⟩ (turns + 1) =
      Quantifier.allowsMore ⟨0, some most, greedy⟩ turns := by
    simp [Quantifier.allowsMore]
  exact Quantifier.outcomes_turn ahead more rfl rfl rfl index slots

theorem anyNumber_eq :
    anyNumber greedy limit body index slots =
      arrange greedy ((moving limit body index slots).flatMap fun reached =>
        anyNumber greedy limit body reached.1 reached.2) (index, slots) :=
  Quantifier.outcomes_turn (fun _ => rfl) rfl rfl rfl rfl index slots

end PatternSearch
