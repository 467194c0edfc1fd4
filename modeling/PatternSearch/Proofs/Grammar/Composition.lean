import PatternSearch.Expr.Composition
import PatternSearch.Proofs.Grammar.Derivations

/-! Patterns can be put together. Nothing that is derived reaches over its end: no quantifier, no
bracket and no bound of a pattern binds what is written behind it. So two patterns written one
behind the other, two patterns with a bar between them and a pattern in parentheses are derived
from the derivations of their parts, and their trees are put together from the trees of their
parts, with the groups numbered on. -/

namespace PatternSearch

namespace Expr

theorem items_sequenceOf {items : List Expr} (each : ∀ item ∈ items, item.isItem) :
    (sequenceOf items).items = items := by
  match items with
  | [] => rfl
  | [item] =>
    have single := each item (List.mem_singleton_self _)
    cases item <;> first | rfl | cases single
  | first :: second :: items => rfl

theorem isBranch_sequenceOf {items : List Expr} (each : ∀ item ∈ items, item.isItem) :
    (sequenceOf items).isBranch := by
  match items with
  | [] => rfl
  | [item] =>
    have single := each item (List.mem_singleton_self _)
    cases item <;> first | rfl | cases single
  | first :: second :: items => rfl

theorem alternatives_alternationOf {branches : List Expr} (nonempty : branches ≠ [])
    (each : ∀ branch ∈ branches, branch.isBranch) :
    (alternationOf branches).alternatives = branches := by
  match branches with
  | [] => exact absurd rfl nonempty
  | [branch] =>
    have single := each branch (List.mem_singleton_self _)
    cases branch <;> first | rfl | cases single
  | first :: second :: branches => rfl

end Expr

namespace Grammar

theorem Leaf.renumber_tree (leaf : Leaf) (offset : Nat) :
    leaf.tree.renumber offset = leaf.tree := by
  cases leaf <;> rfl

theorem renumber_repeated (atom : Expr) (suffix : Option Suffix) (offset : Nat) :
    (repeated atom suffix).renumber offset = repeated (atom.renumber offset) suffix := by
  cases suffix <;> rfl

mutual

/-- Behind more groups a body stands for the same trees with their groups numbered on. -/
theorem Body.branches_add : ∀ (body : Body) (before offset : Nat),
    body.branches (before + offset) = (body.branches before).map (Expr.renumber offset)
  | .single branch, before, offset => by
    simp only [Body.branches, Branch.tree_eq, List.map_cons, List.map_nil,
      Expr.renumber_sequenceOf, branch.items_add]
  | .bar branch others, before, offset => by
    have later : before + offset + branch.groups = before + branch.groups + offset := by omega
    simp only [Body.branches, Branch.tree_eq, List.map_cons, Expr.renumber_sequenceOf,
      branch.items_add, later, others.branches_add]

theorem Branch.items_add : ∀ (branch : Branch) (before offset : Nat),
    branch.items (before + offset) = (branch.items before).map (Expr.renumber offset)
  | .nil, before, offset => rfl
  | .cons item items, before, offset => by
    have later : before + offset + item.groups = before + item.groups + offset := by omega
    simp only [Branch.items, List.map_cons, item.tree_add, later, items.items_add]

theorem Item.tree_add : ∀ (item : Item) (before offset : Nat),
    item.tree (before + offset) = (item.tree before).renumber offset
  | .atStart, before, offset => rfl
  | .atEnd, before, offset => rfl
  | .leaf leaf suffix, before, offset => by
    rw [Item.tree, Item.tree, renumber_repeated, leaf.renumber_tree]
  | .group body suffix, before, offset => by
    have own : before + offset + 1 = before + 1 + offset := by omega
    rw [Item.tree, Item.tree, renumber_repeated, Expr.renumber, body.tree_eq, body.tree_eq,
      Expr.renumber_alternationOf, own, body.branches_add]

end

theorem Body.tree_add (body : Body) (before offset : Nat) :
    body.tree (before + offset) = (body.tree before).renumber offset := by
  rw [body.tree_eq, body.tree_eq, body.branches_add, Expr.renumber_alternationOf]

theorem Item.isItem_tree (item : Item) (before : Nat) : (item.tree before).isItem := by
  cases item with
  | atStart => rfl
  | atEnd => rfl
  | leaf leaf suffix => cases leaf <;> cases suffix <;> rfl
  | group body suffix => cases suffix <;> rfl

theorem Branch.isItem_items : ∀ (branch : Branch) (before : Nat),
    ∀ item ∈ branch.items before, item.isItem
  | .nil, before => nofun
  | .cons item items, before => by
    rw [Branch.items, List.forall_mem_cons]
    exact ⟨item.isItem_tree before, items.isItem_items _⟩

theorem Body.isBranch_branches : ∀ (body : Body) (before : Nat),
    ∀ branch ∈ body.branches before, branch.isBranch
  | .single branch, before => by
    rw [Body.branches, List.forall_mem_singleton, branch.tree_eq]
    exact Expr.isBranch_sequenceOf (branch.isItem_items before)
  | .bar branch others, before => by
    rw [Body.branches, List.forall_mem_cons, branch.tree_eq]
    exact ⟨Expr.isBranch_sequenceOf (branch.isItem_items before), others.isBranch_branches _⟩

theorem Body.branches_ne_nil (body : Body) (before : Nat) : body.branches before ≠ [] := by
  cases body <;> exact List.cons_ne_nil _ _

theorem Body.alternatives (body : Body) (before : Nat) :
    (body.tree before).alternatives = body.branches before := by
  rw [body.tree_eq]
  exact Expr.alternatives_alternationOf (body.branches_ne_nil before)
    (body.isBranch_branches before)

def Branch.append : Branch → Branch → Branch
  | .nil, other => other
  | .cons item items, other => .cons item (items.append other)

def Body.append : Body → Body → Body
  | .single branch, .single other => .single (branch.append other)
  | .single branch, .bar other others => .bar (branch.append other) others
  | .bar branch others, second => .bar branch (others.append second)

def Body.orElse : Body → Body → Body
  | .single branch, second => .bar branch second
  | .bar branch others, second => .bar branch (others.orElse second)

def Body.enclosed (body : Body) : Body := .single (.cons (.group body none) .nil)

section Append

theorem Branch.write_append : ∀ branch other : Branch,
    (branch.append other).write = branch.write ++ other.write
  | .nil, other => rfl
  | .cons item items, other => by
    rw [append, write, write, items.write_append, List.append_assoc]

theorem Branch.groups_append : ∀ branch other : Branch,
    (branch.append other).groups = branch.groups + other.groups
  | .nil, other => (Nat.zero_add _).symm
  | .cons item items, other => by
    rw [append, groups, groups, items.groups_append, Nat.add_assoc]

theorem Branch.references_append : ∀ branch other : Branch,
    (branch.append other).references = branch.references ++ other.references
  | .nil, other => rfl
  | .cons item items, other => by
    rw [append, references, references, items.references_append, List.append_assoc]

theorem Branch.items_append : ∀ (branch other : Branch) (before : Nat),
    (branch.append other).items before =
      branch.items before ++ other.items (before + branch.groups)
  | .nil, other, before => rfl
  | .cons item items, other, before => by
    rw [append, Branch.items, Branch.items, items.items_append, groups, Nat.add_assoc,
      List.cons_append]

theorem Branch.tree_append (branch other : Branch) (before : Nat) :
    (branch.append other).tree before =
      .sequenceOf ((branch.tree before).items ++ (other.tree (before + branch.groups)).items) := by
  rw [Branch.tree_eq, Branch.tree_eq, Branch.tree_eq, branch.items_append, Expr.items_sequenceOf (branch.isItem_items before),
    Expr.items_sequenceOf (other.isItem_items _)]

theorem Body.write_append : ∀ first second : Body,
    (first.append second).write = first.write ++ second.write
  | .single branch, .single other => branch.write_append other
  | .single branch, .bar other others => by
    simp only [append, write, branch.write_append, List.append_assoc]
  | .bar branch others, second => by
    simp only [append, write, others.write_append, List.append_assoc, List.cons_append]

theorem Body.groups_append : ∀ first second : Body,
    (first.append second).groups = first.groups + second.groups
  | .single branch, .single other => branch.groups_append other
  | .single branch, .bar other others => by
    simp only [append, groups, branch.groups_append, Nat.add_assoc]
  | .bar branch others, second => by
    simp only [append, groups, others.groups_append, Nat.add_assoc]

theorem Body.references_append : ∀ first second : Body,
    (first.append second).references = first.references ++ second.references
  | .single branch, .single other => branch.references_append other
  | .single branch, .bar other others => by
    simp only [append, references, branch.references_append, List.append_assoc]
  | .bar branch others, second => by
    simp only [append, references, others.references_append, List.append_assoc]

/-- The trees before the seam and behind it stay; those at the seam are joined. -/
theorem Body.branches_append : ∀ (first second : Body) (before : Nat),
    ∃ front last next behind, first.branches before = front ++ [last] ∧
      second.branches (before + first.groups) = next :: behind ∧
      (first.append second).branches before =
        front ++ .sequenceOf (last.items ++ next.items) :: behind
  | .single branch, .single other, before =>
    ⟨[], _, _, [], rfl, rfl, congrArg ([·]) (branch.tree_append other before)⟩
  | .single branch, .bar other others, before => by
    refine ⟨[], _, _, _, rfl, rfl, ?_⟩
    simp only [append, branches, branch.tree_append, branch.groups_append, groups, Nat.add_assoc,
      List.nil_append]
  | .bar branch others, second, before => by
    obtain ⟨front, last, next, behind, own, further, joined⟩ :=
      others.branches_append second (before + branch.groups)
    refine ⟨branch.tree before :: front, last, next, behind, ?_, ?_, ?_⟩
    · rw [branches, own, List.cons_append]
    · rw [groups, ← Nat.add_assoc, further]
    · rw [append, branches, joined, List.cons_append]

end Append

section OrElse

theorem Body.write_orElse : ∀ first second : Body,
    (first.orElse second).write = first.write ++ '|' :: second.write
  | .single branch, second => rfl
  | .bar branch others, second => by
    simp only [orElse, write, others.write_orElse, List.append_assoc, List.cons_append]

theorem Body.groups_orElse : ∀ first second : Body,
    (first.orElse second).groups = first.groups + second.groups
  | .single branch, second => rfl
  | .bar branch others, second => by
    simp only [orElse, groups, others.groups_orElse, Nat.add_assoc]

theorem Body.references_orElse : ∀ first second : Body,
    (first.orElse second).references = first.references ++ second.references
  | .single branch, second => rfl
  | .bar branch others, second => by
    simp only [orElse, references, others.references_orElse, List.append_assoc]

theorem Body.branches_orElse : ∀ (first second : Body) (before : Nat),
    (first.orElse second).branches before =
      first.branches before ++ second.branches (before + first.groups)
  | .single branch, second, before => rfl
  | .bar branch others, second, before => by
    simp only [orElse, branches, groups, others.branches_orElse, Nat.add_assoc, List.cons_append]

end OrElse

end Grammar

theorem body_of_parse {source : String} {parsed : Parsed} (read : parse source = .ok parsed) :
    ∃ body : Grammar.Body, source.toList = body.write ∧ parsed.groups = body.groups ∧
      parsed.expr = body.tree 0 ∧
      ∀ group ∈ body.references, group ≤ body.groups := by
  rw [parse_eq_ok] at read
  obtain ⟨body, written⟩ := Grammar.body_of_parseChars read
  rw [← written] at read
  obtain ⟨defined, same⟩ := (body.parseChars_write parsed).mp read
  subst same
  exact ⟨body, written.symm, rfl, rfl, defined⟩

theorem parse_of_body {source : String} (body : Grammar.Body) (written : source.toList = body.write)
    (defined : ∀ group ∈ body.references, group ≤ body.groups) :
    parse source = .ok ⟨body.tree 0, body.groups⟩ := by
  rw [parse_eq_ok, written, body.parseChars_write]
  exact ⟨defined, rfl⟩

/-- A pattern behind another goes on with the last alternative of the other, a bar between two
patterns puts their alternatives side by side, and parentheses make a group of a pattern. The
groups of what stands behind are numbered on. -/
theorem parse_composes {first second : String} {left right : Parsed}
    (readFirst : parse first = .ok left) (readSecond : parse second = .ok right) :
    (∃ front last next behind, left.expr.alternatives = front ++ [last] ∧
        (right.expr.renumber left.groups).alternatives = next :: behind ∧
        parse (first ++ second) =
          .ok ⟨.alternationOf (front ++ .sequenceOf (last.items ++ next.items) :: behind),
            left.groups + right.groups⟩) ∧
      parse (first ++ "|" ++ second) =
        .ok ⟨.alternationOf
            (left.expr.alternatives ++ (right.expr.renumber left.groups).alternatives),
          left.groups + right.groups⟩ ∧
      parse ("(" ++ first ++ ")") =
        .ok ⟨.group 1 (left.expr.renumber 1), left.groups + 1⟩ := by
  obtain ⟨body, written, groups, tree, defined⟩ := body_of_parse readFirst
  obtain ⟨other, spelled, further, branching, known⟩ := body_of_parse readSecond
  have numbered (offset : Nat) : right.expr.renumber offset = other.tree offset := by
    rw [branching, ← other.tree_add, Nat.zero_add]
  have named : ∀ group ∈ body.references ++ other.references,
      group ≤ body.groups + other.groups := by
    intro group member
    rcases List.mem_append.mp member with own | later
    · exact Nat.le_add_right_of_le (defined group own)
    · exact Nat.le_add_left_of_le (known group later)
  rw [numbered, tree, groups, further, body.alternatives, other.alternatives]
  refine ⟨?_, ?_, ?_⟩
  · obtain ⟨front, last, next, behind, own, later, joined⟩ := body.branches_append other 0
    rw [Nat.zero_add] at later
    refine ⟨front, last, next, behind, own, later, ?_⟩
    rw [← joined, ← Grammar.Body.tree_eq, ← body.groups_append]
    apply parse_of_body
    · rw [String.toList_append, written, spelled, body.write_append]
    · rw [body.references_append, body.groups_append]
      exact named
  · have joined := body.branches_orElse other 0
    rw [Nat.zero_add] at joined
    rw [← joined, ← Grammar.Body.tree_eq, ← body.groups_orElse]
    apply parse_of_body
    · rw [String.toList_append, String.toList_append, written, spelled, body.write_orElse]
      simp
    · rw [body.references_orElse, body.groups_orElse]
      exact named
  · rw [← body.tree_add]
    apply parse_of_body body.enclosed
    · rw [String.toList_append, String.toList_append, written]
      simp [Grammar.Body.enclosed, Grammar.Body.write, Grammar.Branch.write, Grammar.Item.write,
        Grammar.writeSuffix]
    · simpa [Grammar.Body.enclosed, Grammar.Body.references, Grammar.Branch.references,
        Grammar.Item.references, Grammar.Body.groups, Grammar.Branch.groups, Grammar.Item.groups]
        using fun group member => Nat.le_succ_of_le (defined group member)

/-- The backreference still reads `\1` in parentheses, where it names the new group. -/
theorem parse_composes_seam :
    let left : Expr :=
      .alternation [.literal 'x', .sequence [.group 1 (.literal 'a'), .backreference 1]]
    let right : Expr :=
      .alternation [.repetition (.group 1 (.literal 'b')) ⟨1, none, true⟩, .empty]
    parse "x|(a)\\1" = .ok ⟨left, 1⟩ ∧ parse "(b)+|" = .ok ⟨right, 1⟩ ∧
      (∃ front last next behind, left.alternatives = front ++ [last] ∧
        (right.renumber 1).alternatives = next :: behind ∧
        parse ("x|(a)\\1" ++ "(b)+|") =
          .ok ⟨.alternationOf (front ++ .sequenceOf (last.items ++ next.items) :: behind), 2⟩) ∧
      parse "(x|(a)\\1)" = .ok ⟨.group 1 (.alternation
        [.literal 'x', .sequence [.group 2 (.literal 'a'), .backreference 1]]), 2⟩ := by
  intro left right
  have readFirst : parse "x|(a)\\1" = .ok ⟨left, 1⟩ := by cbv
  have readSecond : parse "(b)+|" = .ok ⟨right, 1⟩ := by cbv
  obtain ⟨seam, _, enclosed⟩ := parse_composes readFirst readSecond
  exact ⟨readFirst, readSecond, seam, enclosed⟩

end PatternSearch
