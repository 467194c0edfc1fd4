import Mathlib.Data.List.Basic
import PatternSearch.Expr.Basic

/-! The parts of a syntax tree in the order in which a pattern writes them: the tree itself and
the parts of what it is made of. The groups and the backreferences of a tree are read off its
parts, and what holds of all parts of a tree holds of all parts of its subtrees. -/

namespace PatternSearch

namespace Expr

/-- Induction on a tree with a hypothesis for every item and every branch. -/
@[elab_as_elim]
theorem induction {motive : Expr → Prop} (empty : motive .empty)
    (predicate : ∀ test, motive (.predicate test)) (atStart : motive .atStart)
    (atEnd : motive .atEnd)
    (sequence : ∀ items, (∀ item ∈ items, motive item) → motive (.sequence items))
    (alternation : ∀ branches, (∀ branch ∈ branches, motive branch) →
      motive (.alternation branches))
    (group : ∀ index body, motive body → motive (.group index body))
    (repetition : ∀ body quantifier, motive body → motive (.repetition body quantifier))
    (backreference : ∀ index, motive (.backreference index)) (expr : Expr) : motive expr :=
  Expr.rec empty predicate atStart atEnd sequence alternation group repetition backreference
    (fun _ member => nomatch member)
    (fun _ _ head tail _ member => by
      rcases List.mem_cons.mp member with rfl | later
      · exact head
      · exact tail _ later)
    expr

mutual

def parts : Expr → List Expr
  | empty => [empty]
  | predicate test => [predicate test]
  | atStart => [atStart]
  | atEnd => [atEnd]
  | sequence items => sequence items :: allParts items
  | alternation branches => alternation branches :: allParts branches
  | group index body => group index body :: body.parts
  | repetition body quantifier => repetition body quantifier :: body.parts
  | backreference index => [backreference index]

def allParts : List Expr → List Expr
  | [] => []
  | expr :: exprs => expr.parts ++ allParts exprs

end

theorem allParts_eq_flatMap (exprs : List Expr) : allParts exprs = exprs.flatMap parts := by
  induction exprs with
  | nil => rfl
  | cons expr exprs ih => simp only [allParts, List.flatMap_cons, ih]

theorem self_mem_parts (expr : Expr) : expr ∈ expr.parts := by
  cases expr <;> exact List.mem_cons_self ..

theorem mem_parts_trans {expr part inner : Expr} (deep : inner ∈ part.parts)
    (member : part ∈ expr.parts) : inner ∈ expr.parts := by
  induction expr using induction with
  | empty => exact List.mem_singleton.mp member ▸ deep
  | predicate test => exact List.mem_singleton.mp member ▸ deep
  | atStart => exact List.mem_singleton.mp member ▸ deep
  | atEnd => exact List.mem_singleton.mp member ▸ deep
  | backreference index => exact List.mem_singleton.mp member ▸ deep
  | sequence items ih | alternation items ih =>
    rcases List.mem_cons.mp member with rfl | below
    · exact deep
    · rw [allParts_eq_flatMap] at below
      obtain ⟨item, listed, within⟩ := List.mem_flatMap.mp below
      rw [parts, allParts_eq_flatMap]
      exact List.mem_cons_of_mem _ (List.mem_flatMap.mpr ⟨item, listed, ih item listed within⟩)
  | group index body ih | repetition body quantifier ih =>
    rcases List.mem_cons.mp member with rfl | below
    · exact deep
    · exact List.mem_cons_of_mem _ (ih below)

def groupIndex? : Expr → Option Nat
  | group index _ => some index
  | _ => none

def referenced? : Expr → Option Nat
  | backreference index => some index
  | _ => none

def groups (expr : Expr) : List Nat := expr.parts.filterMap groupIndex?

def references (expr : Expr) : List Nat := expr.parts.filterMap referenced?

section Parts

variable {items branches : List Expr} {expr body : Expr} {index : Nat} {quantifier : Quantifier}

@[simp] theorem groups_empty : empty.groups = [] := rfl

@[simp] theorem groups_predicate {test : Predicate} : (predicate test).groups = [] := rfl

@[simp] theorem groups_atStart : atStart.groups = [] := rfl

@[simp] theorem groups_atEnd : atEnd.groups = [] := rfl

@[simp] theorem groups_sequence : (sequence items).groups = items.flatMap groups := by
  change (allParts items).filterMap groupIndex? = _
  rw [allParts_eq_flatMap, List.filterMap_flatMap]
  rfl

@[simp] theorem groups_alternation :
    (alternation branches).groups = branches.flatMap groups := by
  change (allParts branches).filterMap groupIndex? = _
  rw [allParts_eq_flatMap, List.filterMap_flatMap]
  rfl

@[simp] theorem groups_group : (group index body).groups = index :: body.groups := rfl

@[simp] theorem groups_repetition : (repetition body quantifier).groups = body.groups := rfl

@[simp] theorem groups_backreference : (backreference index).groups = [] := rfl

@[simp] theorem references_empty : empty.references = [] := rfl

@[simp] theorem references_predicate {test : Predicate} : (predicate test).references = [] := rfl

@[simp] theorem references_atStart : atStart.references = [] := rfl

@[simp] theorem references_atEnd : atEnd.references = [] := rfl

@[simp] theorem references_sequence :
    (sequence items).references = items.flatMap references := by
  change (allParts items).filterMap referenced? = _
  rw [allParts_eq_flatMap, List.filterMap_flatMap]
  rfl

@[simp] theorem references_alternation :
    (alternation branches).references = branches.flatMap references := by
  change (allParts branches).filterMap referenced? = _
  rw [allParts_eq_flatMap, List.filterMap_flatMap]
  rfl

@[simp] theorem references_group : (group index body).references = body.references := rfl

@[simp] theorem references_repetition :
    (repetition body quantifier).references = body.references := rfl

@[simp] theorem references_backreference : (backreference index).references = [index] := rfl

end Parts

def Throughout (property : Expr → Prop) (expr : Expr) : Prop :=
  ∀ part ∈ expr.parts, property part

namespace Throughout

variable {property : Expr → Prop} {items branches : List Expr} {expr body : Expr} {index : Nat}
  {quantifier : Quantifier}

theorem here (throughout : Throughout property expr) : property expr :=
  throughout expr expr.self_mem_parts

theorem sequence_iff : Throughout property (sequence items) ↔
    property (sequence items) ∧ ∀ item ∈ items, Throughout property item := by
  simp only [Throughout, parts, allParts_eq_flatMap, List.forall_mem_cons, List.mem_flatMap]
  exact and_congr_right fun _ =>
    ⟨fun all item member part inner => all part ⟨item, member, inner⟩,
      fun all part ⟨item, member, inner⟩ => all item member part inner⟩

theorem alternation_iff : Throughout property (alternation branches) ↔
    property (alternation branches) ∧ ∀ branch ∈ branches, Throughout property branch := by
  simp only [Throughout, parts, allParts_eq_flatMap, List.forall_mem_cons, List.mem_flatMap]
  exact and_congr_right fun _ =>
    ⟨fun all branch member part inner => all part ⟨branch, member, inner⟩,
      fun all part ⟨branch, member, inner⟩ => all branch member part inner⟩

theorem group_iff : Throughout property (group index body) ↔
    property (group index body) ∧ Throughout property body := by
  simp only [Throughout, parts, List.forall_mem_cons]

theorem repetition_iff : Throughout property (repetition body quantifier) ↔
    property (repetition body quantifier) ∧ Throughout property body := by
  simp only [Throughout, parts, List.forall_mem_cons]

end Throughout

end Expr

end PatternSearch
