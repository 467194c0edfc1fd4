import PatternSearch.Expr.Printer
import PatternSearch.Proofs.Grammar.Composition

/-! Text as a pattern for itself. Every character has a leaf that stands for it: behind a backslash
if it would mean something else, and as it is otherwise. So a branch can begin with any text, which
is written as `escape` writes it and adds neither groups nor backreferences. -/

namespace PatternSearch

theorem punctuation_of_special {c : Char} (special : isSpecial c = true) :
    c ∈ Grammar.asciiPunctuation := by
  simp only [isSpecial, List.mem_cons, List.not_mem_nil, or_false, decide_eq_true_eq] at special
  rcases special with
    rfl | rfl | rfl | rfl | rfl | rfl | rfl | rfl | rfl | rfl | rfl | rfl | rfl | rfl <;> decide

theorem free_of_ordinary {c : Char} (ordinary : ¬isSpecial c = true) : c ∉ Grammar.reserved := by
  simp only [isSpecial, List.mem_cons, List.not_mem_nil, or_false, decide_eq_true_eq] at ordinary
  simp only [Grammar.reserved, List.mem_cons, List.not_mem_nil, or_false]
  tauto

namespace Grammar

def Leaf.literally (c : Char) : Leaf :=
  if special : isSpecial c then .escaped c (punctuation_of_special special)
  else .plain c (free_of_ordinary special)

theorem Leaf.write_literally (c : Char) : (literally c).write = printLiteral c := by
  unfold literally printLiteral
  split <;> rfl

theorem Leaf.tree_literally (c : Char) : (literally c).tree = .literal c := by
  unfold literally
  split <;> rfl

def Branch.literally (text : List Char) (rest : Branch) : Branch :=
  text.foldr (fun c branch => .cons (.leaf (.literally c) none) branch) rest

section Literally

variable (rest : Branch)

theorem Branch.write_literally (text : List Char) :
    (literally text rest).write = escape text ++ rest.write := by
  induction text with
  | nil => rfl
  | cons c text ih =>
    change Leaf.write (.literally c) ++ [] ++ (literally text rest).write = _
    rw [ih, Leaf.write_literally, List.append_nil, ← List.append_assoc]
    rfl

theorem Branch.items_literally (text : List Char) (before : Nat) :
    (literally text rest).items before = text.map .literal ++ rest.items before := by
  induction text with
  | nil => rfl
  | cons c text ih =>
    change Leaf.tree (.literally c) :: (literally text rest).items before = _
    rw [ih, Leaf.tree_literally]
    rfl

theorem Branch.groups_literally (text : List Char) :
    (literally text rest).groups = rest.groups := by
  induction text with
  | nil => rfl
  | cons c text ih =>
    change 0 + (literally text rest).groups = _
    rw [ih, Nat.zero_add]

theorem Branch.references_literally (text : List Char) :
    (literally text rest).references = rest.references := by
  induction text with
  | nil => rfl
  | cons c text ih =>
    have silent : (Item.leaf (.literally c) none).references = [] := by
      unfold Leaf.literally
      split <;> rfl
    change (Item.leaf (.literally c) none).references ++ (literally text rest).references = _
    rw [ih, silent, List.nil_append]

end Literally

end Grammar

end PatternSearch
