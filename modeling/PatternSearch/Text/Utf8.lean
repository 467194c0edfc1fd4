/-! Decoding of UTF-8 that never fails. A sequence that is cut short or holds a byte that
cannot continue it becomes one replacement character, and decoding goes on at that byte. -/

namespace PatternSearch

structure ByteRange where
  low : UInt8
  high : UInt8
deriving DecidableEq

def ByteRange.contains (range : ByteRange) (byte : UInt8) : Bool :=
  range.low ≤ byte && byte ≤ range.high

def ByteRange.continuation : ByteRange := ⟨0x80, 0xBF⟩

/-- What a lead byte contributes to a character, and the ranges of the bytes after it. The
first range excludes overlong forms, surrogates and numbers above U+10FFFF. -/
def leadByte? (lead : UInt8) : Option (Nat × List ByteRange) :=
  let tail := ByteRange.continuation
  if lead ≤ 0x7F then some (lead.toNat, [])
  else if lead ≤ 0xC1 then none
  else if lead ≤ 0xDF then some (lead.toNat - 0xC0, [tail])
  else if lead = 0xE0 then some (0, [⟨0xA0, 0xBF⟩, tail])
  else if lead = 0xED then some (0xD, [⟨0x80, 0x9F⟩, tail])
  else if lead ≤ 0xEF then some (lead.toNat - 0xE0, [tail, tail])
  else if lead = 0xF0 then some (0, [⟨0x90, 0xBF⟩, tail, tail])
  else if lead ≤ 0xF3 then some (lead.toNat - 0xF0, [tail, tail, tail])
  else if lead = 0xF4 then some (4, [⟨0x80, 0x8F⟩, tail, tail])
  else none

def continueScalar (value : Nat) : List ByteRange → List UInt8 → Option Nat × List UInt8
  | [], bytes => (some value, bytes)
  | _ :: _, [] => (none, [])
  | range :: ranges, byte :: bytes =>
      if range.contains byte then
        continueScalar (64 * value + byte.toNat % 64) ranges bytes
      else (none, byte :: bytes)

theorem continueScalar_suffix (value : Nat) (ranges : List ByteRange) (bytes : List UInt8) :
    (continueScalar value ranges bytes).2 <:+ bytes := by
  fun_induction continueScalar value ranges bytes with
  | case1 => exact List.suffix_rfl
  | case2 => exact List.suffix_rfl
  | case3 _ _ _ _ _ _ ih => exact ih.trans (List.suffix_cons _ _)
  | case4 => exact List.suffix_rfl

def replacement : Char := '\uFFFD'

def decodeLossy (bytes : List UInt8) : List Char :=
  match bytes with
  | [] => []
  | lead :: rest =>
      match leadByte? lead with
      | none => replacement :: decodeLossy rest
      | some (value, ranges) =>
          let scalar := continueScalar value ranges rest
          ((scalar.1.map Char.ofNat).getD replacement) :: decodeLossy scalar.2
termination_by bytes.length
decreasing_by
  · simp
  · have bound := (continueScalar_suffix value ranges rest).length_le
    simp only [List.length_cons]
    omega

def encode (text : List Char) : List UInt8 := text.flatMap String.utf8EncodeChar

end PatternSearch
