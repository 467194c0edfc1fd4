import PatternSearch.Parse.Repetition
import PatternSearch.Proofs.Expr.Parts

/-! Canonical trees. Every part of a canonical tree has a shape that its written form can carry,
its groups are numbered in the order of their opening, and its backreferences name groups that
exist. The lemmas say that levels of such parts close to such trees. -/

namespace PatternSearch

inductive Predicate.Listed : Predicate → Prop where
  | set (members : CharSet) : Listed (set members)
  | union (members : CharSet) (kinds : List CharClass) (beside : kinds ≠ []) :
      Listed (union (set members :: kinds.map charClass))

inductive Predicate.Canonical : Predicate → Prop where
  | char (c : Char) : Canonical (char c)
  | any : Canonical any
  | charClass (kind : CharClass) : Canonical (charClass kind)
  | bracket {test : Predicate} (listed : test.Listed) : Canonical test
  | complement {test : Predicate} (listed : test.Listed) : Canonical (complement test)

structure Quantifier.Bounded (quantifier : Quantifier) : Prop where
  low : quantifier.min < boundLimit
  high : ∀ max ∈ quantifier.max, quantifier.min ≤ max ∧ max < boundLimit

namespace Expr

def isItem : Expr → Bool
  | empty | sequence _ | alternation _ => false
  | _ => true

def isBranch : Expr → Bool
  | alternation _ => false
  | _ => true

/-- The condition on a single part. As no sequence, alternation or repetition holds an
alternation, alternations are whole patterns or bodies of groups. -/
def Shaped : Expr → Prop
  | predicate test => test.Canonical
  | sequence items => 2 ≤ items.length ∧ ∀ item ∈ items, item.isItem
  | alternation branches => 2 ≤ branches.length ∧ ∀ branch ∈ branches, branch.isBranch
  | repetition body quantifier => body.repeatable ∧ quantifier.Bounded
  | _ => True

/-- The trees that written patterns stand for. -/
structure Canonical (expr : Expr) (groups : Nat) : Prop where
  shaped : expr.Throughout Shaped
  numbered : expr.groups = List.range' 1 groups
  defined : ∀ index ∈ expr.references, 1 ≤ index ∧ index ≤ min 9 groups

structure Additive (collect : Expr → List Nat) : Prop where
  empty : collect empty = []
  sequence : ∀ items, collect (sequence items) = items.flatMap collect
  alternation : ∀ branches, collect (alternation branches) = branches.flatMap collect
  repetition : ∀ body quantifier, collect (repetition body quantifier) = collect body

theorem additive_groups : Additive groups :=
  ⟨groups_empty, fun _ => groups_sequence, fun _ => groups_alternation,
    fun _ _ => groups_repetition⟩

theorem additive_references : Additive references :=
  ⟨references_empty, fun _ => references_sequence, fun _ => references_alternation,
    fun _ _ => references_repetition⟩

namespace Additive

variable {collect : Expr → List Nat} (additive : Additive collect)
include additive

theorem sequenceOf (items : List Expr) : collect (sequenceOf items) = items.flatMap collect := by
  match items with
  | [] => exact additive.empty
  | [item] => rw [Expr.sequenceOf, List.flatMap_singleton]
  | first :: second :: items => exact additive.sequence _

theorem alternationOf (branches : List Expr) :
    collect (alternationOf branches) = branches.flatMap collect := by
  match branches with
  | [] => exact additive.empty
  | [branch] => rw [Expr.alternationOf, List.flatMap_singleton]
  | first :: second :: branches => exact additive.alternation _

end Additive

structure GoodItem (expr : Expr) : Prop where
  item : expr.isItem
  shaped : expr.Throughout Shaped

structure GoodBranch (expr : Expr) : Prop where
  branch : expr.isBranch
  shaped : expr.Throughout Shaped

theorem GoodItem.toBranch {expr : Expr} (good : expr.GoodItem) : expr.GoodBranch where
  branch := by
    have item := good.item
    cases expr <;> first | rfl | cases item
  shaped := good.shaped

theorem goodBranch_sequenceOf {items : List Expr} (good : ∀ item ∈ items, item.GoodItem) :
    (sequenceOf items).GoodBranch := by
  match items with
  | [] => exact ⟨rfl, fun part member => List.mem_singleton.mp member ▸ trivial⟩
  | [item] => exact (good item (List.mem_singleton_self _)).toBranch
  | first :: second :: items =>
    refine ⟨rfl, Throughout.sequence_iff.mpr ⟨⟨?_, ?_⟩, ?_⟩⟩
    · simp
    · exact fun item member => (good item member).item
    · exact fun item member => (good item member).shaped

theorem shaped_alternationOf {branches : List Expr}
    (good : ∀ branch ∈ branches, branch.GoodBranch) :
    (alternationOf branches).Throughout Shaped := by
  match branches with
  | [] => exact fun part member => List.mem_singleton.mp member ▸ trivial
  | [branch] => exact (good branch (List.mem_singleton_self _)).shaped
  | first :: second :: branches =>
    refine Throughout.alternation_iff.mpr ⟨⟨?_, ?_⟩, ?_⟩
    · simp
    · exact fun branch member => (good branch member).branch
    · exact fun branch member => (good branch member).shaped

end Expr

end PatternSearch
