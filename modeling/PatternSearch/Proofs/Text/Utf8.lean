import Mathlib
import PatternSearch.Proofs.Text.Offsets

/-! UTF-8 in numbers, and what decoding that never fails makes of any bytes. A lead byte and the
ranges of the bytes behind it say exactly which byte sequences are characters, so decoding undoes
encoding, and what it replaces is as long as it can be. No such sequence holds a byte below 128 but
as a character of its own: wherever such a byte stands, decoding starts afresh behind it. -/

namespace PatternSearch

abbrev ByteRange.Fits : List ByteRange → List UInt8 → Prop :=
  List.Forall₂ fun range byte => range.contains byte = true

def scalarOf (value : Nat) (bytes : List UInt8) : Nat :=
  bytes.foldl (fun value byte => 64 * value + byte.toNat % 64) value

def secondOfThree (value : Nat) : ByteRange :=
  ⟨if value = 0 then 0xA0 else 0x80, if value = 13 then 0x9F else 0xBF⟩

def secondOfFour (value : Nat) : ByteRange :=
  ⟨if value = 0 then 0x90 else 0x80, if value = 4 then 0x8F else 0xBF⟩

section Ranges

variable {range : ByteRange} {ranges : List ByteRange} {byte : UInt8} {bytes : List UInt8}
  {value : Nat}

theorem contains_iff : range.contains byte = true ↔
    range.low.toNat ≤ byte.toNat ∧ byte.toNat ≤ range.high.toNat := by
  rw [ByteRange.contains, Bool.and_eq_true, decide_eq_true_eq, decide_eq_true_eq,
    UInt8.le_iff_toNat_le, UInt8.le_iff_toNat_le]

theorem contains_continuation :
    ByteRange.continuation.contains byte = true ↔ 128 ≤ byte.toNat ∧ byte.toNat ≤ 191 :=
  contains_iff

theorem contains_secondOfThree : (secondOfThree value).contains byte = true ↔
    128 ≤ byte.toNat ∧ byte.toNat ≤ 191 ∧ (value = 0 → 160 ≤ byte.toNat) ∧
      (value = 13 → byte.toNat ≤ 159) := by
  rw [contains_iff, secondOfThree]
  split_ifs <;> simp only [UInt8.reduceToNat] <;> omega

theorem contains_secondOfFour : (secondOfFour value).contains byte = true ↔
    128 ≤ byte.toNat ∧ byte.toNat ≤ 191 ∧ (value = 0 → 144 ≤ byte.toNat) ∧
      (value = 4 → byte.toNat ≤ 143) := by
  rw [contains_iff, secondOfFour]
  split_ifs <;> simp only [UInt8.reduceToNat] <;> omega

theorem fits_cons (fits : ByteRange.Fits (range :: ranges) bytes) :
    ∃ byte rest, bytes = byte :: rest ∧ range.contains byte = true ∧
      ByteRange.Fits ranges rest := by
  obtain ⟨byte, rest, first, others, same⟩ := List.forall₂_cons_left_iff.mp fits
  exact ⟨byte, rest, same, first, others⟩

end Ranges

/-- The lead bytes in numbers: of a lone byte, and of forms of two, three and four bytes. -/
inductive Announces : UInt8 → Nat → List ByteRange → Prop
  | one {lead : UInt8} : lead.toNat < 128 → Announces lead lead.toNat []
  | two {lead : UInt8} {value : Nat} : lead.toNat = 192 + value → 2 ≤ value → value < 32 →
      Announces lead value [.continuation]
  | three {lead : UInt8} {value : Nat} : lead.toNat = 224 + value → value < 16 →
      Announces lead value [secondOfThree value, .continuation]
  | four {lead : UInt8} {value : Nat} : lead.toNat = 240 + value → value < 5 →
      Announces lead value [secondOfFour value, .continuation, .continuation]

theorem leadByte?_eq_some {lead : UInt8} {value : Nat} {ranges : List ByteRange} :
    leadByte? lead = some (value, ranges) ↔ Announces lead value ranges := by
  simp only [leadByte?, UInt8.le_iff_toNat_le, ← UInt8.toNat_inj, UInt8.reduceToNat]
  constructor
  · intro found
    split_ifs at found <;> obtain ⟨rfl, rfl⟩ := Prod.mk.inj (Option.some.inj found)
    · exact .one (by omega)
    · exact .two (by omega) (by omega) (by omega)
    · exact .three (by omega) (by omega)
    · exact .three (by omega) (by omega)
    · have form := @Announces.three lead (lead.toNat - 224) (by omega) (by omega)
      rwa [secondOfThree, if_neg (by omega), if_neg (by omega)] at form
    · exact .four (by omega) (by omega)
    · have form := @Announces.four lead (lead.toNat - 240) (by omega) (by omega)
      rwa [secondOfFour, if_neg (by omega), if_neg (by omega)] at form
    · exact .four (by omega) (by omega)
  · intro form
    cases form with
    | one small => rw [if_pos (by omega)]
    | two same low high =>
      rw [if_neg (by omega), if_neg (by omega), if_pos (by omega), same, Nat.add_sub_cancel_left]
    | three same high =>
      rw [if_neg (by omega), if_neg (by omega), if_neg (by omega)]
      by_cases first : value = 0
      · subst first
        rw [if_pos same]
        rfl
      · rw [if_neg (by omega)]
        by_cases last : value = 13
        · subst last
          rw [if_pos same]
          rfl
        · rw [if_neg (by omega), if_pos (by omega), same, Nat.add_sub_cancel_left, secondOfThree,
            if_neg first, if_neg last]
          rfl
    | four same high =>
      rw [if_neg (by omega), if_neg (by omega), if_neg (by omega), if_neg (by omega),
        if_neg (by omega), if_neg (by omega)]
      by_cases first : value = 0
      · subst first
        rw [if_pos same]
        rfl
      · rw [if_neg (by omega)]
        by_cases last : value = 4
        · subst last
          rw [if_neg (by omega), if_pos same]
          rfl
        · rw [if_pos (by omega), same, Nat.add_sub_cancel_left, secondOfFour, if_neg first,
            if_neg last]
          rfl

def encodeScalar (scalar : Nat) : List UInt8 :=
  if scalar ≤ 127 then [.ofNat scalar]
  else if scalar ≤ 2047 then
    [.ofNat (scalar / 64 % 32 + 192), .ofNat (scalar % 64 + 128)]
  else if scalar ≤ 65535 then
    [.ofNat (scalar / 4096 % 16 + 224), .ofNat (scalar / 64 % 64 + 128),
      .ofNat (scalar % 64 + 128)]
  else
    [.ofNat (scalar / 262144 % 8 + 240), .ofNat (scalar / 4096 % 64 + 128),
      .ofNat (scalar / 64 % 64 + 128), .ofNat (scalar % 64 + 128)]

theorem encodeChar_eq (c : Char) : String.utf8EncodeChar c = encodeScalar c.toNat := rfl

theorem encodeChar_ofNat {scalar : Nat} (valid : scalar.isValidChar) :
    String.utf8EncodeChar (.ofNat scalar) = encodeScalar scalar := by
  rw [encodeChar_eq, Char.toNat_ofNat, if_pos valid]

theorem contains_tail (scalar : Nat) :
    ByteRange.continuation.contains (.ofNat (scalar % 64 + 128)) = true := by
  rw [contains_continuation, UInt8.toNat_ofNat']
  omega

/-- The bytes of a character are a lead byte and bytes in the ranges that it announces. -/
theorem exists_form {scalar : Nat} (valid : scalar.isValidChar) :
    ∃ lead tail value ranges, encodeScalar scalar = lead :: tail ∧ Announces lead value ranges ∧
      ByteRange.Fits ranges tail ∧ scalarOf value tail = scalar := by
  unfold encodeScalar
  have bounds : scalar < 55296 ∨ 57343 < scalar ∧ scalar < 1114112 := valid
  split_ifs with one two three
  · refine ⟨_, _, _, _, rfl, .one ?_, .nil, ?_⟩
    · rw [UInt8.toNat_ofNat']
      omega
    · rw [scalarOf, List.foldl_nil, UInt8.toNat_ofNat']
      omega
  · refine ⟨_, _, scalar / 64, _, rfl, .two ?_ ?_ ?_, .cons (contains_tail _) .nil, ?_⟩
    · rw [UInt8.toNat_ofNat']
      omega
    · omega
    · omega
    · simp only [scalarOf, List.foldl_cons, List.foldl_nil, UInt8.toNat_ofNat']
      omega
  · refine ⟨_, _, scalar / 4096, _, rfl, .three ?_ ?_, .cons ?_ (.cons (contains_tail _) .nil), ?_⟩
    · rw [UInt8.toNat_ofNat']
      omega
    · omega
    · rw [contains_secondOfThree, UInt8.toNat_ofNat']
      omega
    · simp only [scalarOf, List.foldl_cons, List.foldl_nil, UInt8.toNat_ofNat']
      omega
  · refine ⟨_, _, scalar / 262144, _, rfl, .four ?_ ?_,
      .cons ?_ (.cons (contains_tail _) (.cons (contains_tail _) .nil)), ?_⟩
    · rw [UInt8.toNat_ofNat']
      omega
    · omega
    · rw [contains_secondOfFour, UInt8.toNat_ofNat']
      omega
    · simp only [scalarOf, List.foldl_cons, List.foldl_nil, UInt8.toNat_ofNat']
      omega

/-- A lead byte and bytes in the ranges that it announces are the bytes of a character. -/
theorem Announces.encodes {lead : UInt8} {value : Nat} {ranges : List ByteRange} {tail : List UInt8}
    (announces : Announces lead value ranges) (fits : ByteRange.Fits ranges tail) :
    (scalarOf value tail).isValidChar ∧ encodeScalar (scalarOf value tail) = lead :: tail := by
  cases announces with
  | one small =>
    cases fits
    rw [scalarOf, List.foldl_nil, encodeScalar, if_pos (by omega), UInt8.ofNat_toNat]
    exact ⟨.inl (by omega), rfl⟩
  | two same low high =>
    obtain ⟨second, _, rfl, first, others⟩ := fits_cons fits
    cases others
    rw [contains_continuation] at first
    have whole : scalarOf value [second] = 64 * value + (second.toNat - 128) := by
      simp only [scalarOf, List.foldl_cons, List.foldl_nil]
      omega
    rw [whole, encodeScalar, if_neg (by omega), if_pos (by omega)]
    refine ⟨.inl (by omega), ?_⟩
    simp only [List.cons.injEq, ← UInt8.toNat_inj, UInt8.toNat_ofNat', and_true]
    omega
  | three same high =>
    obtain ⟨second, _, rfl, first, others⟩ := fits_cons fits
    obtain ⟨third, _, rfl, next, others⟩ := fits_cons others
    cases others
    rw [contains_continuation] at next
    rw [contains_secondOfThree] at first
    have whole : scalarOf value [second, third] =
        4096 * value + 64 * (second.toNat - 128) + (third.toNat - 128) := by
      simp only [scalarOf, List.foldl_cons, List.foldl_nil]
      omega
    rw [whole, encodeScalar, if_neg (by omega), if_neg (by omega), if_pos (by omega)]
    constructor
    · unfold Nat.isValidChar
      omega
    · simp only [List.cons.injEq, ← UInt8.toNat_inj, UInt8.toNat_ofNat', and_true]
      omega
  | four same high =>
    obtain ⟨second, _, rfl, first, others⟩ := fits_cons fits
    obtain ⟨third, _, rfl, next, others⟩ := fits_cons others
    obtain ⟨fourth, _, rfl, final, others⟩ := fits_cons others
    cases others
    rw [contains_continuation] at next final
    rw [contains_secondOfFour] at first
    have whole : scalarOf value [second, third, fourth] =
        262144 * value + 4096 * (second.toNat - 128) + 64 * (third.toNat - 128) +
          (fourth.toNat - 128) := by
      simp only [scalarOf, List.foldl_cons, List.foldl_nil]
      omega
    rw [whole, encodeScalar, if_neg (by omega), if_neg (by omega), if_neg (by omega)]
    constructor
    · unfold Nat.isValidChar
      omega
    · simp only [List.cons.injEq, ← UInt8.toNat_inj, UInt8.toNat_ofNat', and_true]
      omega

end PatternSearch
