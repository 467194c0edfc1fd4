/-! Sets of characters below U+0100, the members that a bracket expression can list.
A set is a vector of 256 bits, one for each code point. The lemmas say what insertion does
to membership, that equal membership makes equal sets, and that `toList` lists exactly the
members in increasing order. -/

namespace PatternSearch

structure CharSet where
  bits : BitVec 256
deriving DecidableEq

namespace CharSet

def empty : CharSet := ⟨0⟩

def contains (set : CharSet) (c : Char) : Bool := set.bits.getLsbD c.toNat

/-- Characters from U+0100 on do not fit. -/
def insert? (set : CharSet) (c : Char) : Option CharSet :=
  if c.toNat < 256 then some ⟨set.bits ||| BitVec.twoPow 256 c.toNat⟩ else none

def span (low high : Nat) : BitVec 256 :=
  (BitVec.allOnes 256 <<< low) &&& (BitVec.allOnes 256 >>> (255 - high))

def insertRange? (set : CharSet) (low high : Char) : Option CharSet :=
  if low ≤ high ∧ high.toNat < 256 then
    some ⟨set.bits ||| span low.toNat high.toNat⟩
  else none

def toList (set : CharSet) : List Char :=
  ((List.range 256).filter set.bits.getLsbD).map Char.ofNat

theorem toNat_ofNat {i : Nat} (bounded : i < 256) : (Char.ofNat i).toNat = i := by
  have valid : i.isValidChar := .inl (by omega)
  have chosen : Char.ofNat i = Char.ofNatAux i valid := dif_pos valid
  rw [chosen]
  rfl

theorem contains_empty (c : Char) : empty.contains c = false := by
  simp [empty, contains]

theorem lt_of_contains {set : CharSet} {c : Char} (member : set.contains c = true) :
    c.toNat < 256 :=
  BitVec.lt_of_getLsbD member

theorem insert?_isSome_iff {set : CharSet} {c : Char} :
    (set.insert? c).isSome ↔ c.toNat < 256 := by
  unfold insert?
  split <;> simp_all

theorem contains_insert? {set larger : CharSet} {c : Char}
    (inserted : set.insert? c = some larger) (d : Char) :
    larger.contains d = (set.contains d || d == c) := by
  unfold insert? at inserted
  split at inserted
  · next fits =>
    cases inserted
    simp only [contains, BitVec.getLsbD_or, BitVec.getLsbD_twoPow, fits, decide_true,
      Bool.true_and]
    congr 1
    rw [Bool.eq_iff_iff, decide_eq_true_iff, beq_iff_eq, ← Char.toNat_inj]
    exact eq_comm
  · cases inserted

theorem getLsbD_span {low high : Nat} (fits : high < 256) (i : Nat) :
    (span low high).getLsbD i = (decide (low ≤ i) && decide (i ≤ high)) := by
  unfold span
  rw [Bool.eq_iff_iff]
  simp only [BitVec.getLsbD_and, BitVec.getLsbD_shiftLeft, BitVec.getLsbD_ushiftRight,
    BitVec.getLsbD_allOnes, Bool.and_eq_true, Bool.not_eq_true', decide_eq_true_iff,
    decide_eq_false_iff_not]
  omega

theorem insertRange?_isSome_iff {set : CharSet} {low high : Char} :
    (set.insertRange? low high).isSome ↔ low ≤ high ∧ high.toNat < 256 := by
  unfold insertRange?
  split <;> simp_all

theorem contains_insertRange? {set larger : CharSet} {low high : Char}
    (inserted : set.insertRange? low high = some larger) (d : Char) :
    larger.contains d = (set.contains d || (decide (low ≤ d) && decide (d ≤ high))) := by
  unfold insertRange? at inserted
  split at inserted
  · next fits =>
    cases inserted
    simp only [contains, BitVec.getLsbD_or, getLsbD_span fits.2]
    rfl
  · cases inserted

theorem ext_contains {first second : CharSet}
    (same : ∀ c, first.contains c = second.contains c) : first = second := by
  cases first with
  | mk firstBits =>
    cases second with
    | mk secondBits =>
      congr 1
      apply BitVec.eq_of_getLsbD_eq
      intro i bounded
      have at_i := same (Char.ofNat i)
      simpa only [contains, toNat_ofNat bounded] using at_i

theorem mem_toList {set : CharSet} {c : Char} : c ∈ set.toList ↔ set.contains c = true := by
  simp only [toList, List.mem_map, List.mem_filter, List.mem_range]
  constructor
  · rintro ⟨i, ⟨bounded, member⟩, rfl⟩
    simpa only [contains, toNat_ofNat bounded] using member
  · intro member
    exact ⟨c.toNat, ⟨lt_of_contains member, member⟩, Char.ofNat_toNat c⟩

theorem toList_pairwise (set : CharSet) : set.toList.Pairwise (· < ·) := by
  unfold toList
  rw [List.pairwise_map]
  refine (List.pairwise_lt_range.filter _).imp_of_mem ?_
  intro i j first second less
  rw [List.mem_filter, List.mem_range] at first second
  change (Char.ofNat i).toNat < (Char.ofNat j).toNat
  rw [toNat_ofNat first.1, toNat_ofNat second.1]
  exact less

end CharSet

end PatternSearch
