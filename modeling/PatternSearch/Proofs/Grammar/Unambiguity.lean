import PatternSearch.Proofs.Grammar.Leaves
import PatternSearch.Proofs.Grammar.Quantifiers

/-! No text is derived in two ways. What follows a part tells where it ends: a body ends before a
closing parenthesis or at the end of the pattern, a branch before a bar too, and an item before
anything that starts no quantifier. -/

namespace PatternSearch

namespace Grammar

def EndsBody (rest : List Char) : Prop := ∀ c ∈ rest.head?, c = ')'

def EndsBranch (rest : List Char) : Prop := ∀ c ∈ rest.head?, c = '|' ∨ c = ')'

theorem EndsBody.endsBranch {rest : List Char} (ends : EndsBody rest) : EndsBranch rest :=
  fun c first => .inr (ends c first)

theorem EndsBranch.unquantified {rest : List Char} (ends : EndsBranch rest) :
    Unquantified rest := by
  intro c first
  rcases ends c first with rfl | rfl <;> rfl

theorem endsBody_nil : EndsBody [] := nofun

theorem endsBody_paren (rest : List Char) : EndsBody (')' :: rest) := by
  intro c first
  cases first
  rfl

theorem endsBranch_bar (rest : List Char) : EndsBranch ('|' :: rest) := by
  intro c first
  cases first
  exact .inl rfl

theorem Item.starts (item : Item) :
    ∃ c tail, item.write = c :: tail ∧ c ∉ ['|', ')'] ∧ startsQuantifier c = false := by
  cases item with
  | atStart => exact ⟨'^', [], rfl, by decide, rfl⟩
  | atEnd => exact ⟨'$', [], rfl, by decide, rfl⟩
  | leaf leaf suffix =>
    obtain ⟨c, tail, written, structural, free, _⟩ := leaf.readsBack
    refine ⟨c, tail ++ writeSuffix suffix, by rw [write, written]; rfl, ?_, free⟩
    simp only [List.mem_cons, List.not_mem_nil, or_false, not_or] at structural ⊢
    exact ⟨structural.1, structural.2.2⟩
  | group body suffix => exact ⟨'(', _, rfl, by decide, rfl⟩

theorem Item.unquantified (item : Item) (rest : List Char) : Unquantified (item.write ++ rest) := by
  obtain ⟨c, tail, written, _, free⟩ := item.starts
  rw [written]
  exact unquantified_cons free _

theorem Item.not_endsBranch (item : Item) (rest : List Char) :
    ¬EndsBranch (item.write ++ rest) := by
  obtain ⟨c, tail, written, inside, _⟩ := item.starts
  rw [written]
  intro ends
  exact inside (by simpa using ends c rfl)

theorem Branch.unquantified (branch : Branch) {rest : List Char} (free : Unquantified rest) :
    Unquantified (branch.write ++ rest) := by
  cases branch with
  | nil => exact free
  | cons item items =>
    rw [write, List.append_assoc]
    exact item.unquantified _

mutual

theorem Body.unique : ∀ (first second : Body) {rest behind : List Char}, EndsBody rest →
    EndsBody behind → first.write ++ rest = second.write ++ behind →
      first = second ∧ rest = behind
  | .single branch, .single other, rest, behind, ends, stops, same => by
    obtain ⟨rfl, ended⟩ := branch.unique other ends.endsBranch stops.endsBranch same
    exact ⟨rfl, ended⟩
  | .single branch, .bar other others, rest, behind, ends, stops, same => by
    simp only [Body.write, List.append_assoc, List.cons_append] at same
    obtain ⟨_, ended⟩ := branch.unique other ends.endsBranch (endsBranch_bar _) same
    exact absurd (ends '|' (by rw [ended]; rfl)) (by decide)
  | .bar branch others, .single other, rest, behind, ends, stops, same => by
    simp only [Body.write, List.append_assoc, List.cons_append] at same
    obtain ⟨_, ended⟩ := branch.unique other (endsBranch_bar _) stops.endsBranch same
    exact absurd (stops '|' (by rw [← ended]; rfl)) (by decide)
  | .bar branch others, .bar other further, rest, behind, ends, stops, same => by
    simp only [Body.write, List.append_assoc, List.cons_append] at same
    obtain ⟨rfl, barred⟩ := branch.unique other (endsBranch_bar _) (endsBranch_bar _) same
    obtain ⟨rfl, ended⟩ := others.unique further ends stops (List.cons.inj barred).2
    exact ⟨rfl, ended⟩

theorem Branch.unique : ∀ (first second : Branch) {rest behind : List Char}, EndsBranch rest →
    EndsBranch behind → first.write ++ rest = second.write ++ behind →
      first = second ∧ rest = behind
  | .nil, .nil, rest, behind, ends, stops, same => ⟨rfl, same⟩
  | .nil, .cons other others, rest, behind, ends, stops, same => by
    rw [Branch.write, Branch.write, List.append_assoc, List.nil_append] at same
    exact absurd (same ▸ ends) (other.not_endsBranch _)
  | .cons item items, .nil, rest, behind, ends, stops, same => by
    rw [Branch.write, Branch.write, List.append_assoc, List.nil_append] at same
    exact absurd (same.symm ▸ stops) (item.not_endsBranch _)
  | .cons item items, .cons other others, rest, behind, ends, stops, same => by
    rw [Branch.write, Branch.write, List.append_assoc, List.append_assoc] at same
    obtain ⟨rfl, further⟩ := item.unique other (items.unquantified ends.unquantified)
      (others.unquantified stops.unquantified) same
    obtain ⟨rfl, ended⟩ := items.unique others ends stops further
    exact ⟨rfl, ended⟩

theorem Item.unique : ∀ (first second : Item) {rest behind : List Char}, Unquantified rest →
    Unquantified behind → first.write ++ rest = second.write ++ behind →
      first = second ∧ rest = behind
  | first, second, rest, behind, free, unbound, same => by
    cases first <;> cases second
    case atStart.atStart | atEnd.atEnd => exact ⟨rfl, (List.cons.inj same).2⟩
    case leaf.leaf leaf suffix other mark =>
      rw [Item.write, Item.write, List.append_assoc, List.append_assoc] at same
      obtain ⟨rfl, further⟩ := Leaf.unique same
      obtain ⟨rfl, ended⟩ := suffix_unique free unbound further
      exact ⟨rfl, ended⟩
    case group.group body suffix other mark =>
      simp only [Item.write, List.cons_append, List.append_assoc, List.cons.injEq, true_and] at same
      obtain ⟨rfl, closed⟩ := body.unique other (endsBody_paren _) (endsBody_paren _) same
      obtain ⟨rfl, ended⟩ := suffix_unique free unbound (List.cons.inj closed).2
      exact ⟨rfl, ended⟩
    case leaf.atStart leaf suffix | leaf.atEnd leaf suffix | leaf.group leaf suffix _ _ =>
      simp only [Item.write, List.append_assoc] at same
      exact absurd (congrArg List.head? same) (leaf.head?_ne _ _ (by decide))
    case atStart.leaf leaf suffix | atEnd.leaf leaf suffix | group.leaf _ _ leaf suffix =>
      simp only [Item.write, List.append_assoc] at same
      exact absurd (congrArg List.head? same.symm) (leaf.head?_ne _ _ (by decide))
    all_goals exact absurd (List.cons.inj same).1 (by decide)

end

end Grammar

end PatternSearch
