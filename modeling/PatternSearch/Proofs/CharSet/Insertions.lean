import Mathlib.Data.List.Basic
import PatternSearch.CharSet.Insertion

/-! What a sequence of insertions makes of the empty set. Every insertion is judged by itself, the
set holds what the accepted ones cover, and a table that is filled slot by slot gives the same
answers and holds the same characters. -/

namespace PatternSearch

namespace Insertion

theorem fits_char {c : Char} : (char c).Fits ↔ c.toNat < 256 := by
  constructor
  · rintro ⟨_, below⟩
    exact below c rfl
  · intro below
    refine ⟨trivial, ?_⟩
    rintro d rfl
    exact below

theorem fits_range {low high : Char} :
    (range low high).Fits ↔ low ≤ high ∧ high.toNat < 256 := by
  constructor
  · rintro ⟨ordered, below⟩
    exact ⟨ordered, below high ⟨ordered, Char.le_refl high⟩⟩
  · rintro ⟨ordered, below⟩
    refine ⟨ordered, ?_⟩
    rintro d ⟨_, upper⟩
    exact Nat.lt_of_le_of_lt upper below

section PerformAll

variable {State View : Type} {perform : State → Insertion → Bool × State}
  {performView : View → Insertion → Bool × View}

theorem map_fst_performAll (state : State) (insertions : List Insertion) :
    (performAll perform state insertions).1.map Prod.fst = insertions := by
  induction insertions generalizing state with
  | nil => rfl
  | cons insertion insertions ih =>
    rw [performAll, List.map_cons, ih]

/-- Two ways to perform insertions agree on all of them together if they agree on each. -/
theorem performAll_view (view : State → View)
    (step : ∀ state insertion, performView (view state) insertion =
      ((perform state insertion).1, view (perform state insertion).2))
    (state : State) (insertions : List Insertion) :
    performAll performView (view state) insertions =
      ((performAll perform state insertions).1, view (performAll perform state insertions).2) := by
  induction insertions generalizing state with
  | nil => rfl
  | cons insertion insertions ih =>
    simp only [performAll, step, ih]

end PerformAll

end Insertion

namespace CharSet

variable {set larger : CharSet} {insertion : Insertion} {answers : List (Insertion × Bool)}

theorem enlarge?_isSome_iff : (set.enlarge? insertion).isSome ↔ insertion.Fits := by
  cases insertion with
  | char c => rw [Insertion.fits_char, enlarge?, insert?_isSome_iff]
  | range low high => rw [Insertion.fits_range, enlarge?, insertRange?_isSome_iff]

theorem contains_enlarge? (enlarged : set.enlarge? insertion = some larger) (c : Char) :
    larger.contains c = true ↔ set.contains c = true ∨ insertion.Covers c := by
  cases insertion with
  | char d =>
    rw [contains_insert? enlarged, Bool.or_eq_true, beq_iff_eq]
    rfl
  | range low high =>
    rw [contains_insertRange? enlarged, Bool.or_eq_true, Bool.and_eq_true, decide_eq_true_iff,
      decide_eq_true_iff]
    rfl

theorem perform_eq (set : CharSet) (insertion : Insertion) :
    set.perform insertion =
      ((set.enlarge? insertion).isSome, (set.enlarge? insertion).getD set) := by
  unfold perform
  cases set.enlarge? insertion <;> rfl

theorem accepted_iff : (set.perform insertion).1 = true ↔ insertion.Fits := by
  rw [perform_eq, enlarge?_isSome_iff]

theorem perform_refused (refused : (set.perform insertion).1 = false) :
    (set.perform insertion).2 = set := by
  rw [perform_eq, Option.isSome_eq_false_iff, Option.isNone_iff_eq_none] at refused
  rw [perform_eq, refused]
  rfl

theorem contains_perform (c : Char) :
    (set.perform insertion).2.contains c = true ↔
      set.contains c = true ∨ (set.perform insertion).1 = true ∧ insertion.Covers c := by
  rw [perform_eq]
  cases enlarged : set.enlarge? insertion with
  | none => simp
  | some larger => simpa using contains_enlarge? enlarged c

def Holds (set : CharSet) (answers : List (Insertion × Bool)) : Prop :=
  ∀ c, set.contains c = true ↔ ∃ insertion, (insertion, true) ∈ answers ∧ insertion.Covers c

theorem holds_empty : empty.Holds [] := by
  intro c
  simp [contains_empty]

theorem Holds.perform (holds : set.Holds answers) (insertion : Insertion) :
    (set.perform insertion).2.Holds (answers ++ [(insertion, (set.perform insertion).1)]) := by
  intro c
  rw [contains_perform, holds c]
  constructor
  · rintro (⟨earlier, member, covers⟩ | ⟨accepted, covers⟩)
    · exact ⟨earlier, List.mem_append_left _ member, covers⟩
    · refine ⟨insertion, List.mem_append_right _ ?_, covers⟩
      rw [accepted]
      exact List.mem_singleton_self _
  · rintro ⟨earlier, member, covers⟩
    rcases List.mem_append.mp member with before | last
    · exact .inl ⟨earlier, before, covers⟩
    · obtain ⟨rfl, accepted⟩ := Prod.mk.inj (List.mem_singleton.mp last)
      exact .inr ⟨accepted.symm, covers⟩

theorem Holds.insertAll (holds : set.Holds answers) (insertions : List Insertion) :
    (set.insertAll insertions).2.Holds (answers ++ (set.insertAll insertions).1) := by
  induction insertions generalizing set answers with
  | nil =>
    rw [CharSet.insertAll, Insertion.performAll, List.append_nil]
    exact holds
  | cons insertion insertions ih =>
    have further := ih (holds.perform insertion)
    rw [List.append_assoc] at further
    exact further

theorem mem_answers_insertAll {accepted : Bool} {insertions : List Insertion}
    (answered : (insertion, accepted) ∈ (set.insertAll insertions).1) :
    accepted = true ↔ insertion.Fits := by
  induction insertions generalizing set with
  | nil => cases answered
  | cons next insertions ih =>
    rcases List.mem_cons.mp answered with first | later
    · obtain ⟨rfl, rfl⟩ := Prod.mk.inj first
      exact accepted_iff
    · exact ih later

end CharSet

namespace CharTable

theorem slot?_of_lt {c : Char} (fits : c.toNat < 256) : slot? c = some ⟨c.toNat, fits⟩ :=
  dif_pos fits

theorem slot?_of_not_lt {c : Char} (beyond : ¬c.toNat < 256) : slot? c = none :=
  dif_neg beyond

theorem getElem_foldl_mark (table : CharTable) (marked : List Nat) {slot : Nat}
    (inside : slot < 256) :
    (marked.foldl mark table).slots[slot] = (table.slots[slot] || decide (slot ∈ marked)) := by
  induction marked generalizing table with
  | nil => simp
  | cons first marked ih =>
    rw [List.foldl_cons, ih, mark, Vector.getElem_setIfInBounds]
    by_cases same : first = slot
    · simp [same]
    · simp [same, Ne.symm same]

theorem getElem_fill (table : CharTable) (first last : Fin 256) {slot : Nat}
    (inside : slot < 256) :
    (table.fill first last).slots[slot] =
      (table.slots[slot] || (decide (first ≤ slot) && decide (slot ≤ last))) := by
  have between : slot ∈ List.range' first (last + 1 - first) ↔
      first ≤ slot ∧ slot ≤ last := by
    rw [List.mem_range'_1]
    omega
  rw [fill, getElem_foldl_mark _ _ inside, decide_eq_decide.mpr between, Bool.decide_and]

theorem perform_unfit (table : CharTable) {insertion : Insertion} (unfit : ¬insertion.Fits) :
    table.perform insertion = (false, table) := by
  cases insertion with
  | char c =>
    rw [Insertion.fits_char] at unfit
    rw [perform, slot?_of_not_lt unfit]
  | range low high =>
    rw [Insertion.fits_range, not_and] at unfit
    by_cases lowBelow : low.toNat < 256
    · by_cases highBelow : high.toNat < 256
      -- Both bounds have their slots, so only their order can be wrong.
      · have reversed : ¬(⟨low.toNat, lowBelow⟩ : Fin 256) ≤ ⟨high.toNat, highBelow⟩ :=
          fun ordered => unfit ordered highBelow
        rw [perform, slot?_of_lt lowBelow, slot?_of_lt highBelow]
        exact if_neg reversed
      · rw [perform, slot?_of_lt lowBelow, slot?_of_not_lt highBelow]
    · rw [perform, slot?_of_not_lt lowBelow]

theorem slots_table (set : CharSet) {slot : Nat} (inside : slot < 256) :
    set.table.slots[slot] = set.bits.getLsbD slot := by
  rw [CharSet.table, Vector.getElem_ofFn]

theorem eq_table {table : CharTable} {set : CharSet}
    (same : ∀ slot (inside : slot < 256), table.slots[slot] = set.bits.getLsbD slot) :
    table = set.table := by
  have slots : table.slots = set.table.slots := by
    apply Vector.ext
    intro slot inside
    rw [same slot inside, slots_table set inside]
  cases table
  exact congrArg CharTable.mk slots

theorem blank_eq_table : blank = CharSet.empty.table := by
  apply eq_table
  intro slot inside
  simp [blank, CharSet.empty]

theorem perform_table (set : CharSet) (insertion : Insertion) :
    set.table.perform insertion = ((set.perform insertion).1, (set.perform insertion).2.table) := by
  by_cases fits : insertion.Fits
  · cases insertion with
    | char c =>
      have below := Insertion.fits_char.mp fits
      rw [perform, slot?_of_lt below, CharSet.perform, CharSet.enlarge?, CharSet.insert?,
        if_pos below]
      refine congrArg (Prod.mk true) (eq_table ?_)
      intro slot inside
      rw [mark, Vector.getElem_setIfInBounds, slots_table set inside, BitVec.getLsbD_or,
        BitVec.getLsbD_twoPow]
      by_cases same : c.toNat = slot
      · simp [same, inside]
      · simp [same]
    | range low high =>
      have ⟨ordered, below⟩ := Insertion.fits_range.mp fits
      have lowBelow : low.toNat < 256 := Nat.lt_of_le_of_lt ordered below
      rw [perform, slot?_of_lt below, slot?_of_lt lowBelow, CharSet.perform, CharSet.enlarge?,
        CharSet.insertRange?, if_pos ⟨ordered, below⟩]
      refine (if_pos ordered).trans (congrArg (Prod.mk true) (eq_table ?_))
      intro slot inside
      rw [getElem_fill _ _ _ inside, slots_table set inside, BitVec.getLsbD_or,
        CharSet.getLsbD_span below]
  · have refused : (set.perform insertion).1 = false := by
      rw [← Bool.not_eq_true, CharSet.accepted_iff]
      exact fits
    rw [perform_unfit _ fits, refused, CharSet.perform_refused refused]

theorem contains_table (set : CharSet) (c : Char) : set.table.contains c = set.contains c := by
  by_cases below : c.toNat < 256
  · rw [contains, slot?_of_lt below]
    exact slots_table set below
  · rw [contains, slot?_of_not_lt below, CharSet.contains, BitVec.getLsbD_of_ge _ _ (by omega)]
    rfl

theorem zipIdx_slots_table (set : CharSet) :
    set.table.slots.toList.zipIdx =
      (List.range 256).map fun slot => (set.bits.getLsbD slot, slot) := by
  apply List.ext_getElem
  · simp
  · intro slot listed _
    rw [List.length_zipIdx, Vector.length_toList] at listed
    simpa using slots_table set listed

theorem char?_of_lt {slot : Nat} (inside : slot < 256) : char? slot = some (Char.ofNat slot) :=
  if_pos (.inl (Nat.lt_trans inside (by decide)))

theorem toList_table (set : CharSet) : set.table.toList = set.toList := by
  rw [toList, zipIdx_slots_table, List.filter_map, List.filterMap_map, CharSet.toList,
    ← List.filterMap_eq_map]
  apply List.filterMap_congr
  intro slot member
  exact char?_of_lt (List.mem_range.mp (List.mem_of_mem_filter member))

theorem insertAll_table (set : CharSet) (insertions : List Insertion) :
    set.table.insertAll insertions =
      ((set.insertAll insertions).1, (set.insertAll insertions).2.table) :=
  Insertion.performAll_view CharSet.table perform_table set insertions

end CharTable

/-- Of the insertions into an empty set each is answered, and it is accepted exactly if it fits: all
its characters lie below U+0100, and a range is not reversed. A refused insertion leaves the set as
it is. In the end the members are exactly the characters that accepted insertions cover, all of them
below U+0100, and the set lists each of them once, in increasing order. A table in which slot after
slot is marked answers the same, is not touched by a refused insertion, and has and lists the same
members. -/
theorem insertions_fill_set (insertions : List Insertion) :
    let answers := (CharSet.empty.insertAll insertions).1
    let set := (CharSet.empty.insertAll insertions).2
    let table := (CharTable.blank.insertAll insertions).2
    answers.map Prod.fst = insertions ∧
      (∀ insertion accepted, (insertion, accepted) ∈ answers →
        (accepted = true ↔ insertion.Fits)) ∧
      (∀ next, (set.perform next).1 = false → (set.perform next).2 = set) ∧
      (∀ c, set.contains c = true ↔
        ∃ insertion, (insertion, true) ∈ answers ∧ insertion.Covers c) ∧
      (∀ c, set.contains c = true → c.toNat < 256) ∧
      (∀ c, c ∈ set.toList ↔ set.contains c = true) ∧ set.toList.Pairwise (· < ·) ∧
      (CharTable.blank.insertAll insertions).1 = answers ∧
      (∀ next, (table.perform next).1 = false → (table.perform next).2 = table) ∧
      (∀ c, table.contains c = set.contains c) ∧ table.toList = set.toList := by
  intro answers set table
  have held : set.Holds answers := CharSet.holds_empty.insertAll insertions
  have filled : CharTable.blank.insertAll insertions = (answers, set.table) := by
    rw [CharTable.blank_eq_table, CharTable.insertAll_table]
  have marked : table = set.table := by
    change (CharTable.blank.insertAll insertions).2 = set.table
    rw [filled]
  have untouched : ∀ next, (table.perform next).1 = false → (table.perform next).2 = table := by
    intro next refused
    rw [marked, CharTable.perform_table] at refused ⊢
    exact congrArg CharSet.table (CharSet.perform_refused refused)
  refine ⟨Insertion.map_fst_performAll _ _, ?_, ?_, held, ?_, ?_, set.toList_pairwise, ?_,
    untouched, ?_, ?_⟩
  · exact fun _ _ answered => CharSet.mem_answers_insertAll answered
  · exact fun _ refused => CharSet.perform_refused refused
  · exact fun _ member => CharSet.lt_of_contains member
  · exact fun _ => CharSet.mem_toList
  · rw [filled]
  · intro c
    rw [marked, CharTable.contains_table]
  · rw [marked, CharTable.toList_table]

/-- A range that ends beyond the table is refused as a whole. -/
example : let filled := CharSet.empty.insertAll [.range '0' '2', .range 'þ' 'Ā', .char 'ÿ']
    filled.1.map Prod.snd = [true, false, true] ∧ filled.2.toList = ['0', '1', '2', 'ÿ'] := by
  decide +kernel

end PatternSearch
