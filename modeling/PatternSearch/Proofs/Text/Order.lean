import Mathlib
import PatternSearch.Proofs.Text.Utf8

/-! The order of texts. UTF-8 keeps the order of characters, so texts are in the same order by their
characters and by their bytes. -/

namespace PatternSearch

theorem ofNat_lt {one other : Nat} (less : one < other) (bound : other < 256) :
    UInt8.ofNat one < UInt8.ofNat other := by
  rw [UInt8.lt_iff_toNat_lt, UInt8.toNat_ofNat', UInt8.toNat_ofNat']
  omega

theorem cons_lt_cons {one other : Nat} {first second : List UInt8} (bound : other < 256)
    (less : one < other ∨ one = other ∧ first < second) :
    UInt8.ofNat one :: first < UInt8.ofNat other :: second := by
  rw [List.cons_lt_cons_iff]
  rcases less with less | ⟨rfl, less⟩
  · exact .inl (ofNat_lt less bound)
  · exact .inr ⟨rfl, less⟩

/-- Whatever follows, the smaller number comes first: the lead bytes tell longer forms from shorter
ones, and within forms of one length the first byte that differs is smaller. -/
theorem encodeScalar_lt {one other : Nat} (less : one < other) (bound : other < 1114112)
    (first second : List UInt8) : encodeScalar one ++ first < encodeScalar other ++ second := by
  unfold encodeScalar
  split_ifs <;> first | omega | apply cons_lt_cons (by omega)
  · exact .inl less
  · exact .inl (by omega)
  · exact .inl (by omega)
  · exact .inl (by omega)
  · by_cases lead : one / 64 = other / 64
    · exact .inr ⟨by omega, cons_lt_cons (by omega) (.inl (by omega))⟩
    · exact .inl (by omega)
  · exact .inl (by omega)
  · exact .inl (by omega)
  · by_cases lead : one / 4096 = other / 4096
    · refine .inr ⟨by omega, cons_lt_cons (by omega) ?_⟩
      by_cases next : one / 64 = other / 64
      · exact .inr ⟨by omega, cons_lt_cons (by omega) (.inl (by omega))⟩
      · exact .inl (by omega)
    · exact .inl (by omega)
  · exact .inl (by omega)
  · by_cases lead : one / 262144 = other / 262144
    · refine .inr ⟨by omega, cons_lt_cons (by omega) ?_⟩
      by_cases next : one / 4096 = other / 4096
      · refine .inr ⟨by omega, cons_lt_cons (by omega) ?_⟩
        by_cases further : one / 64 = other / 64
        · exact .inr ⟨by omega, cons_lt_cons (by omega) (.inl (by omega))⟩
        · exact .inl (by omega)
      · exact .inl (by omega)
    · exact .inl (by omega)

theorem encode_lt {one other : List Char} (less : one < other) : encode one < encode other := by
  induction less with
  | @nil c others =>
    change [] < String.utf8EncodeChar c ++ encode others
    obtain ⟨lead, rest, bytes⟩ := List.exists_cons_of_ne_nil (@String.utf8EncodeChar_ne_nil c)
    rw [bytes]
    exact .nil
  | cons _ ih => exact List.append_left_lt ih
  | @rel c _ d _ less =>
    have valid : d.toNat < 55296 ∨ 57343 < d.toNat ∧ d.toNat < 1114112 := d.valid
    have bound : d.toNat < 1114112 := by omega
    exact encodeScalar_lt (Char.lt_def.mp less) bound _ _

end PatternSearch
