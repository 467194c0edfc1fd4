import Mathlib
import PatternSearch.Proofs.FileTree.Paths

/-! Walking directories. Every directory is walked in the order of its entries' names, whatever the
order in which they are listed, so a walk comes upon every file below a directory once and in the
order of the paths' components. -/

namespace PatternSearch

namespace FileTree

/-- What holds of a directory if it holds of its entries holds of every tree. -/
theorem entries_induction {motive : FileTree → Prop} (file : ∀ content, motive (file content))
    (directory : ∀ failures entries, (∀ entry ∈ entries, motive entry.2) →
      motive (directory failures entries)) : ∀ tree, motive tree :=
  @FileTree.rec motive (fun entries => ∀ entry ∈ entries, motive entry.2)
    (fun entry => motive entry.2) file directory (by simp)
    (fun _ _ first others => List.forall_mem_cons.mpr ⟨first, others⟩) (fun _ _ ih => ih)

def inOrder (entries : List (String × FileTree)) : List (String × FileTree) :=
  entries.mergeSort fun first second => first.1 ≤ second.1

theorem findingsOfEntries_eq_map (path : String) (entries : List (String × FileTree)) :
    findingsOfEntries path entries =
      entries.map fun entry => (entry.1, entry.2.findingsBelow (childPath path entry.1)) := by
  induction entries with
  | nil => rw [findingsOfEntries, List.map_nil]
  | cons entry entries ih => rw [findingsOfEntries, ih, List.map_cons]

theorem findingsBelow_directory (path : String) (failures : List PathError)
    (entries : List (String × FileTree)) :
    (directory failures entries).findingsBelow path =
      failures.map (.unlisted path) ++ (inOrder entries).flatMap fun entry =>
        entry.2.findingsBelow (childPath path entry.1) := by
  rw [findingsBelow, findingsOfEntries_eq_map, inOrder, ← List.map_mergeSort, List.flatMap_map]
  intros
  rfl

theorem mem_inOrder {entries : List (String × FileTree)} {entry : String × FileTree} :
    entry ∈ inOrder entries ↔ entry ∈ entries :=
  List.mem_mergeSort

theorem inOrder_pairwise {entries : List (String × FileTree)}
    (distinct : (entries.map (·.1)).Nodup) :
    (inOrder entries).Pairwise fun first second => first.1 < second.1 := by
  have sorted : (inOrder entries).Pairwise fun first second => first.1 ≤ second.1 := by
    refine (List.pairwise_mergeSort ?_ ?_ entries).imp of_decide_eq_true
    · intro a b c one two
      rw [decide_eq_true_eq] at one two ⊢
      exact String.le_trans one two
    · intro a b
      rw [Bool.or_eq_true, decide_eq_true_eq, decide_eq_true_eq]
      exact String.le_total a.1 b.1
  have names : ((inOrder entries).map (·.1)).Nodup :=
    ((List.mergeSort_perm entries _).map (·.1)).nodup_iff.mpr distinct
  have different : (inOrder entries).Pairwise fun first second => first.1 ≠ second.1 :=
    List.pairwise_map.mp names
  exact (sorted.and different).imp fun both => lt_of_le_of_ne both.1 both.2

section Walk

variable {tree : FileTree} {names : List String} {content : Except PathError (List UInt8)}

abbrev Place := List String × Except PathError (List UInt8)

def Place.found (path : String) (place : Place) : FoundFile :=
  ⟨pathBelow path place.1, place.2⟩

def Place.under (name : String) (place : Place) : Place := (name :: place.1, place.2)

theorem Holds.names_known (holds : tree.Holds names content) (readable : tree.Readable) :
    ∀ name ∈ names, IsName name := by
  induction holds with
  | here => simp
  | inside member _ ih =>
    cases readable with
    | directory _ known below =>
      exact List.forall_mem_cons.mpr ⟨known _ member, ih (below _ member)⟩

theorem holds_file {other : Except PathError (List UInt8)} :
    (file content).Holds names other ↔ names = [] ∧ other = content := by
  constructor
  · intro holds
    cases holds
    exact ⟨rfl, rfl⟩
  · rintro ⟨rfl, rfl⟩
    exact .here _

theorem holds_directory {failures : List PathError} {entries : List (String × FileTree)} :
    (directory failures entries).Holds names content ↔
      ∃ entry ∈ entries, ∃ below, names = entry.1 :: below ∧ entry.2.Holds below content := by
  constructor
  · intro holds
    cases holds with
    | inside member holds => exact ⟨_, member, _, rfl, holds⟩
  · rintro ⟨entry, member, below, rfl, holds⟩
    exact .inside member holds

/-- What a walk comes upon: the files that are there, in the order of the names that lead to them. -/
theorem exists_places (readable : tree.Readable) :
    ∃ places : List Place,
      (∀ path, tree.findingsBelow path = places.map fun place => .file (place.found path)) ∧
      (∀ names content, (names, content) ∈ places ↔ tree.Holds names content) ∧
      places.Pairwise fun first second => namesKey first.1 < namesKey second.1 := by
  induction readable with
  | file content =>
    refine ⟨[([], content)], fun path => ?_, fun names other => ?_, List.pairwise_singleton ..⟩
    · rw [findingsBelow]
      rfl
    · rw [List.mem_singleton, Prod.mk.injEq, holds_file]
  | @directory entries distinct known readable ih =>
    choose! places found complete sorted using ih
    refine ⟨(inOrder entries).flatMap fun entry => (places entry).map (Place.under entry.1),
      fun path => ?_, fun names content => ?_, ?_⟩
    · rw [findingsBelow_directory, List.map_nil, List.nil_append, List.map_flatMap]
      refine List.flatMap_congr fun entry member => ?_
      rw [found entry (mem_inOrder.mp member), List.map_map]
      rfl
    · rw [List.mem_flatMap, holds_directory]
      constructor
      · rintro ⟨entry, member, held⟩
        obtain ⟨⟨below, other⟩, inside, same⟩ := List.mem_map.mp held
        obtain ⟨rfl, rfl⟩ := Prod.mk.inj same
        have member := mem_inOrder.mp member
        exact ⟨entry, member, below, rfl, (complete entry member below other).mp inside⟩
      · rintro ⟨entry, member, below, rfl, holds⟩
        have inside := (complete entry member below content).mpr holds
        exact ⟨entry, mem_inOrder.mpr member, List.mem_map.mpr ⟨_, inside, rfl⟩⟩
    · rw [List.pairwise_flatMap]
      constructor
      · intro entry member
        rw [List.pairwise_map]
        exact (sorted entry (mem_inOrder.mp member)).imp fun less =>
          List.cons_lt_cons_iff.mpr (.inr ⟨rfl, less⟩)
      · refine (inOrder_pairwise distinct).imp fun less => ?_
        intro one first two second
        obtain ⟨one, _, rfl⟩ := List.mem_map.mp first
        obtain ⟨two, _, rfl⟩ := List.mem_map.mp second
        exact List.cons_lt_cons_iff.mpr (.inl (encode_lt (String.lt_iff_toList_lt.mp less)))

end Walk

section Limits

theorem mapM_eq_some {α β : Type} {read : α → Option β} {value : α → β} {items : List α}
    (every : ∀ item ∈ items, read item = some (value item)) :
    items.mapM read = some (items.map value) := by
  induction items with
  | nil => rfl
  | cons item items ih =>
    obtain ⟨first, others⟩ := List.forall_mem_cons.mp every
    rw [List.mapM_cons, first, ih others]
    rfl

theorem exists_bound {α : Type} (bound : α → Nat) (items : List α) :
    ∃ enough, ∀ item ∈ items, bound item ≤ enough := by
  induction items with
  | nil => exact ⟨0, by simp⟩
  | cons item items ih =>
    obtain ⟨enough, others⟩ := ih
    refine ⟨max (bound item) enough, List.forall_mem_cons.mpr ⟨Nat.le_max_left .., ?_⟩⟩
    intro other member
    exact (others other member).trans (Nat.le_max_right ..)

/-- Every walk comes to its end, for no tree is nested without end. -/
theorem exists_enough (tree : FileTree) : ∃ enough, ∀ depth, enough ≤ depth →
    ∀ path, tree.findingsWithin depth path = some (tree.findingsBelow path) := by
  induction tree using entries_induction with
  | file content =>
    refine ⟨0, fun depth _ path => ?_⟩
    rw [findingsWithin, findingsBelow]
  | directory failures entries ih =>
    choose! bound settled using ih
    obtain ⟨enough, common⟩ := exists_bound bound entries
    refine ⟨enough + 1, fun depth deep path => ?_⟩
    obtain ⟨depth, rfl⟩ := Nat.exists_eq_add_of_lt deep
    have below : (entries.mapM fun entry => do
        let findings ← findingsWithin (enough + depth) (childPath path entry.1) entry.2
        return (entry.1, findings)) = some (findingsOfEntries path entries) := by
      rw [findingsOfEntries_eq_map]
      refine mapM_eq_some fun entry member => ?_
      rw [settled entry member _ ((common entry member).trans (Nat.le_add_right ..))]
      rfl
    rw [findingsWithin, below, findingsBelow]
    rfl

end Limits

end FileTree

end PatternSearch
