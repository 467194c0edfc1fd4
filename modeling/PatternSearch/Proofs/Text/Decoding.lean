import Mathlib
import PatternSearch.Proofs.Text.Utf8

/-! Decoding that never fails. What is no character is replaced in parts that are as long as they
can be; a byte below 128 ends every such part, so decoding can be cut in front of it and behind
it. -/

namespace PatternSearch

section Continuing

variable {ranges : List ByteRange} {tail : List UInt8}

theorem continueScalar_fits (fits : ByteRange.Fits ranges tail) (value : Nat)
    (rest : List UInt8) :
    continueScalar value ranges (tail ++ rest) = (some (scalarOf value tail), rest) := by
  induction fits generalizing value with
  | nil => rfl
  | cons first others ih =>
    rw [List.cons_append, continueScalar, if_pos first, ih]
    rfl

/-- Bytes that leave a form unfinished: the first of them stay in their ranges, and behind them
nothing is left or a byte that does not stay in the next range. -/
structure BreaksOff (ranges : List ByteRange) (tail rest : List UInt8) : Prop where
  cut : ∃ taken range others, ranges = taken ++ range :: others ∧ ByteRange.Fits taken tail ∧
    ∀ byte, rest.head? = some byte → range.contains byte = false

theorem continueScalar_breaksOff {rest : List UInt8} (breaks : BreaksOff ranges tail rest)
    (value : Nat) : continueScalar value ranges (tail ++ rest) = (none, rest) := by
  obtain ⟨taken, range, others, rfl, fits, stops⟩ := breaks.cut
  induction fits generalizing value with
  | nil =>
    cases rest with
    | nil => rfl
    | cons byte rest =>
      have outside := stops byte rfl
      rw [List.nil_append, List.nil_append, continueScalar, if_neg (by rw [outside]; decide)]
  | cons first others ih =>
    rw [List.cons_append, List.cons_append, continueScalar, if_pos first]
    exact ih _ ⟨_, _, _, rfl, ‹_›, stops⟩

theorem finished_or_breaksOff (ranges : List ByteRange) (bytes : List UInt8) :
    ∃ tail rest, bytes = tail ++ rest ∧
      (ByteRange.Fits ranges tail ∨ BreaksOff ranges tail rest) := by
  induction ranges generalizing bytes with
  | nil => exact ⟨[], bytes, rfl, .inl .nil⟩
  | cons range ranges ih =>
    cases bytes with
    | nil => exact ⟨[], [], rfl, .inr ⟨[], range, ranges, rfl, .nil, by simp⟩⟩
    | cons byte bytes =>
      by_cases inside : range.contains byte = true
      · obtain ⟨tail, rest, rfl, fits | breaks⟩ := ih bytes
        · exact ⟨byte :: tail, rest, rfl, .inl (.cons inside fits)⟩
        · obtain ⟨taken, next, others, rfl, fits, stops⟩ := breaks.cut
          exact ⟨byte :: tail, rest, rfl,
            .inr ⟨range :: taken, next, others, rfl, .cons inside fits, stops⟩⟩
      · refine ⟨[], byte :: bytes, rfl, .inr ⟨[], range, ranges, rfl, .nil, ?_⟩⟩
        rintro _ ⟨⟩
        exact Bool.eq_false_of_not_eq_true inside

end Continuing

section Equations

variable {lead : UInt8} {value : Nat} {ranges : List ByteRange} {tail rest : List UInt8}

theorem decodeLossy_nil : decodeLossy [] = [] := by rw [decodeLossy]

theorem decodeLossy_stray (stray : leadByte? lead = none) (rest : List UInt8) :
    decodeLossy (lead :: rest) = replacement :: decodeLossy rest := by
  rw [decodeLossy, stray]

theorem decodeLossy_finished (announces : Announces lead value ranges)
    (fits : ByteRange.Fits ranges tail) (rest : List UInt8) :
    decodeLossy (lead :: (tail ++ rest)) = .ofNat (scalarOf value tail) :: decodeLossy rest := by
  rw [decodeLossy, leadByte?_eq_some.mpr announces]
  simp only [continueScalar_fits fits, Option.map_some, Option.getD_some]

theorem decodeLossy_breaksOff (announces : Announces lead value ranges)
    (breaks : BreaksOff ranges tail rest) :
    decodeLossy (lead :: (tail ++ rest)) = replacement :: decodeLossy rest := by
  rw [decodeLossy, leadByte?_eq_some.mpr announces]
  simp only [continueScalar_breaksOff breaks, Option.map_none, Option.getD_none]

theorem decodeLossy_encodeChar (c : Char) (rest : List UInt8) :
    decodeLossy (String.utf8EncodeChar c ++ rest) = c :: decodeLossy rest := by
  obtain ⟨lead, tail, value, ranges, bytes, announces, fits, scalar⟩ := exists_form c.valid
  have whole : String.utf8EncodeChar c = lead :: tail := bytes
  rw [whole, List.cons_append, decodeLossy_finished announces fits, scalar]
  exact congrArg (· :: _) (Char.ofNat_toNat c)

theorem decodeLossy_encode (text : List Char) : decodeLossy (encode text) = text := by
  induction text with
  | nil => exact decodeLossy_nil
  | cons c text ih =>
    change decodeLossy (String.utf8EncodeChar c ++ encode text) = _
    rw [decodeLossy_encodeChar, ih]

end Equations

/-- Decoding starts with nothing, a byte that announces nothing, a character, or a form that breaks
off. -/
theorem decoding_induction {motive : List UInt8 → Prop} (nil : motive [])
    (stray : ∀ lead rest, leadByte? lead = none → motive rest → motive (lead :: rest))
    (finished : ∀ lead value ranges tail rest, Announces lead value ranges →
      ByteRange.Fits ranges tail → motive rest → motive (lead :: (tail ++ rest)))
    (breaksOff : ∀ lead value ranges tail rest, Announces lead value ranges →
      BreaksOff ranges tail rest → motive rest → motive (lead :: (tail ++ rest)))
    (bytes : List UInt8) : motive bytes := by
  induction size : bytes.length using Nat.strongRecOn generalizing bytes with
  | _ size ih =>
    cases bytes with
    | nil => exact nil
    | cons lead bytes =>
      subst size
      cases found : leadByte? lead with
      | none => exact stray lead bytes found (ih bytes.length (by simp) bytes rfl)
      | some form =>
        obtain ⟨value, ranges⟩ := form
        have announces := leadByte?_eq_some.mp found
        obtain ⟨tail, rest, rfl, fits | breaks⟩ := finished_or_breaksOff ranges bytes
        · exact finished lead value ranges tail rest announces fits
            (ih rest.length (by simp) rest rfl)
        · exact breaksOff lead value ranges tail rest announces breaks
            (ih rest.length (by simp) rest rfl)

def BeginsCharacter (part : List UInt8) : Prop := ∃ c, part <+: String.utf8EncodeChar c

/-- Bytes decoded without failure: where no character stands, one replacement character stands for
the longest part with which a character could begin, and for a single byte if there is none. -/
inductive Decodes : List UInt8 → List Char → Prop
  | nil : Decodes [] []
  | character (c : Char) {rest : List UInt8} {text : List Char} : Decodes rest text →
      Decodes (String.utf8EncodeChar c ++ rest) (c :: text)
  | replaced {part rest : List UInt8} {text : List Char} :
      (∀ c, ¬String.utf8EncodeChar c <+: part ++ rest) →
      (BeginsCharacter part ∨ part.length = 1) →
      (∀ longer, longer <+: part ++ rest → part.length < longer.length →
        ¬BeginsCharacter longer) →
      part ≠ [] → Decodes rest text → Decodes (part ++ rest) (replacement :: text)

theorem form_of_encodeChar {c : Char} {lead : UInt8} {rest : List UInt8}
    (bytes : String.utf8EncodeChar c = lead :: rest) :
    ∃ value ranges, Announces lead value ranges ∧ ByteRange.Fits ranges rest := by
  obtain ⟨first, tail, value, ranges, same, announces, fits, _⟩ := exists_form c.valid
  obtain ⟨rfl, rfl⟩ := List.cons.inj (bytes.symm.trans same)
  exact ⟨value, ranges, announces, fits⟩

theorem Announces.unique {lead : UInt8} {value other : Nat} {ranges others : List ByteRange}
    (one : Announces lead value ranges) (two : Announces lead other others) :
    value = other ∧ ranges = others := by
  have same := (leadByte?_eq_some.mpr one).symm.trans (leadByte?_eq_some.mpr two)
  exact Prod.mk.inj (Option.some.inj same)

section Parts

variable {lead : UInt8} {value : Nat} {ranges : List ByteRange} {tail rest : List UInt8}

theorem Announces.contains_low (announces : Announces lead value ranges) :
    ∀ range ∈ ranges, range.contains range.low = true := by
  have three (value : Nat) : (secondOfThree value).contains (secondOfThree value).low = true := by
    rw [contains_secondOfThree, secondOfThree]
    split_ifs <;> simp only [UInt8.reduceToNat] <;> omega
  have four (value : Nat) : (secondOfFour value).contains (secondOfFour value).low = true := by
    rw [contains_secondOfFour, secondOfFour]
    split_ifs <;> simp only [UInt8.reduceToNat] <;> omega
  have further : ByteRange.continuation.contains ByteRange.continuation.low = true := by decide
  cases announces with
  | one small => simp
  | two same low high => simp [further]
  | three same high => simp [three, further]
  | four same high => simp [four, further]

theorem Announces.not_contains (announces : Announces lead value ranges) {byte : UInt8}
    (ascii : byte.toNat < 128) : ∀ range ∈ ranges, range.contains byte = false := by
  have further : ByteRange.continuation.contains byte = false := by
    rw [Bool.eq_false_iff, ne_eq, contains_continuation]
    omega
  have three (value : Nat) : (secondOfThree value).contains byte = false := by
    rw [Bool.eq_false_iff, ne_eq, contains_secondOfThree]
    omega
  have four (value : Nat) : (secondOfFour value).contains byte = false := by
    rw [Bool.eq_false_iff, ne_eq, contains_secondOfFour]
    omega
  cases announces with
  | one small => simp
  | two same low high => simp [further]
  | three same high => simp [three, further]
  | four same high => simp [four, further]

theorem fits_append {taken others : List ByteRange} {more : List UInt8}
    (first : ByteRange.Fits taken tail) (second : ByteRange.Fits others more) :
    ByteRange.Fits (taken ++ others) (tail ++ more) :=
  List.rel_append first second

theorem fits_next {taken others : List ByteRange} {range : ByteRange} {byte : UInt8}
    (first : ByteRange.Fits taken tail)
    (whole : ByteRange.Fits (taken ++ range :: others) (tail ++ byte :: rest)) :
    range.contains byte = true := by
  induction first with
  | nil =>
    cases whole with
    | cons inside _ => exact inside
  | cons _ _ ih =>
    cases whole with
    | cons _ others => exact ih others

theorem BreaksOff.begins (announces : Announces lead value ranges)
    (breaks : BreaksOff ranges tail rest) : BeginsCharacter (lead :: tail) := by
  obtain ⟨taken, range, others, rfl, fits, _⟩ := breaks.cut
  have inhabited : ByteRange.Fits (range :: others) ((range :: others).map ByteRange.low) := by
    rw [ByteRange.Fits, List.forall₂_map_right_iff, List.forall₂_same]
    intro next member
    exact announces.contains_low next (List.mem_append_right _ member)
  obtain ⟨valid, bytes⟩ := announces.encodes (fits_append fits inhabited)
  rw [← encodeChar_ofNat valid] at bytes
  exact ⟨_, _, bytes.symm⟩

theorem BreaksOff.longest (announces : Announces lead value ranges)
    (breaks : BreaksOff ranges tail rest) {longer : List UInt8}
    (contained : longer <+: lead :: (tail ++ rest)) (begins : BeginsCharacter longer) :
    longer.length ≤ (lead :: tail).length := by
  obtain ⟨taken, range, others, rfl, fits, stops⟩ := breaks.cut
  obtain ⟨c, further, whole⟩ := begins
  by_contra exceeds
  have behind : lead :: tail <+: longer :=
    List.prefix_of_prefix_length_le (List.prefix_append _ rest) contained (by omega)
  obtain ⟨extra, rfl⟩ := behind
  -- The byte at which the form breaks off belongs to the longer part.
  cases extra with
  | nil => simp at exceeds
  | cons next beyond =>
    obtain ⟨more, same⟩ := (List.prefix_append_right_inj (lead :: tail)).mp contained
    obtain ⟨_, _, other, fitting⟩ := form_of_encodeChar whole.symm
    obtain ⟨_, rfl⟩ := other.unique announces
    rw [List.append_eq, List.append_eq, List.append_assoc, List.cons_append] at fitting
    have inside := fits_next fits fitting
    rw [stops next (by rw [← same]; rfl)] at inside
    cases inside

theorem BreaksOff.no_character (announces : Announces lead value ranges)
    (breaks : BreaksOff ranges tail rest) (c : Char) :
    ¬String.utf8EncodeChar c <+: lead :: (tail ++ rest) := by
  intro contained
  have bound := breaks.longest announces contained ⟨c, List.prefix_rfl⟩
  obtain ⟨first, more, bytes⟩ := List.exists_cons_of_ne_nil (@String.utf8EncodeChar_ne_nil c)
  rw [bytes] at contained bound
  obtain ⟨rfl, _⟩ := List.cons_prefix_cons.mp contained
  obtain ⟨_, _, other, fitting⟩ := form_of_encodeChar bytes
  obtain ⟨_, rfl⟩ := other.unique announces
  obtain ⟨taken, range, others, rfl, fits, _⟩ := breaks.cut
  have size := fitting.length_eq
  have taken := fits.length_eq
  simp only [List.length_append, List.length_cons] at size bound
  omega

theorem not_begins_of_stray (stray : leadByte? lead = none) (more : List UInt8) :
    ¬BeginsCharacter (lead :: more) := by
  rintro ⟨c, further, bytes⟩
  obtain ⟨_, _, announces, _⟩ := form_of_encodeChar bytes.symm
  rw [leadByte?_eq_some.mpr announces] at stray
  cases stray

end Parts

theorem decodeLossy_ne_nil {bytes : List UInt8} (nonempty : bytes ≠ []) :
    decodeLossy bytes ≠ [] := by
  obtain ⟨lead, rest, rfl⟩ := List.exists_cons_of_ne_nil nonempty
  rw [decodeLossy]
  split <;> exact List.cons_ne_nil _ _

theorem decodes_decodeLossy (bytes : List UInt8) : Decodes bytes (decodeLossy bytes) := by
  induction bytes using decoding_induction with
  | nil =>
    rw [decodeLossy_nil]
    exact .nil
  | stray lead rest stray ih =>
    have strange : ∀ {part}, part ≠ [] → part <+: lead :: rest → ¬BeginsCharacter part := by
      intro part nonempty contained
      obtain ⟨first, more, rfl⟩ := List.exists_cons_of_ne_nil nonempty
      obtain ⟨rfl, _⟩ := List.cons_prefix_cons.mp contained
      exact not_begins_of_stray stray more
    rw [decodeLossy_stray stray]
    refine @Decodes.replaced [lead] _ _ ?_ (.inr rfl) ?_ (List.cons_ne_nil _ _) ih
    · intro c contained
      exact strange String.utf8EncodeChar_ne_nil contained ⟨c, List.prefix_rfl⟩
    · intro longer contained size
      exact strange (List.ne_nil_of_length_pos (Nat.zero_lt_of_lt size)) contained
  | finished lead value ranges tail rest announces fits ih =>
    rw [decodeLossy_finished announces fits]
    obtain ⟨valid, bytes⟩ := announces.encodes fits
    rw [← encodeChar_ofNat valid] at bytes
    rw [← List.cons_append, ← bytes]
    exact .character _ ih
  | breaksOff lead value ranges tail rest announces breaks ih =>
    rw [decodeLossy_breaksOff announces breaks, ← List.cons_append]
    refine .replaced (breaks.no_character announces) (.inl (breaks.begins announces)) ?_
      (List.cons_ne_nil _ _) ih
    intro longer contained size begins
    have bound := breaks.longest announces contained begins
    omega

theorem decodeLossy_append {byte : UInt8} (ascii : byte.toNat < 128) (front back : List UInt8) :
    decodeLossy (front ++ byte :: back) =
      decodeLossy front ++ .ofNat byte.toNat :: decodeLossy back := by
  induction front using decoding_induction with
  | nil =>
    rw [decodeLossy_nil]
    exact decodeLossy_finished (.one ascii) .nil back
  | stray lead rest stray ih =>
    rw [List.cons_append, decodeLossy_stray stray, decodeLossy_stray stray, ih, List.cons_append]
  | finished lead value ranges tail rest announces fits ih =>
    rw [List.cons_append, List.append_assoc, decodeLossy_finished announces fits,
      decodeLossy_finished announces fits, ih, List.cons_append]
  | breaksOff lead value ranges tail rest announces breaks ih =>
    have still : BreaksOff ranges tail (rest ++ byte :: back) := by
      obtain ⟨taken, range, others, rfl, fits, stops⟩ := breaks.cut
      refine ⟨taken, range, others, rfl, fits, ?_⟩
      intro next head
      cases rest with
      | nil =>
        obtain rfl := Option.some.inj head
        exact announces.not_contains ascii range (by simp)
      | cons first rest => exact stops next head
    rw [List.cons_append, List.append_assoc, decodeLossy_breaksOff announces still,
      decodeLossy_breaksOff announces breaks, ih, List.cons_append]

theorem mem_decodeLossy {c : Char} (ascii : c.toNat < 128) {bytes : List UInt8} :
    c ∈ decodeLossy bytes ↔ UInt8.ofNat c.toNat ∈ bytes := by
  have fits : (UInt8.ofNat c.toNat).toNat = c.toNat := by
    rw [UInt8.toNat_ofNat']
    omega
  constructor
  · have ordinary : c ≠ replacement := by
      rintro rfl
      revert ascii
      decide
    intro member
    induction bytes using decoding_induction with
    | nil =>
      rw [decodeLossy_nil] at member
      cases member
    | stray lead rest stray ih =>
      rw [decodeLossy_stray stray] at member
      exact List.mem_cons_of_mem _ (ih (List.mem_of_ne_of_mem ordinary member))
    | finished lead value ranges tail rest announces form ih =>
      rw [decodeLossy_finished announces form] at member
      rcases List.mem_cons.mp member with rfl | later
      · obtain ⟨valid, bytes⟩ := announces.encodes form
        rw [Char.toNat_ofNat, if_pos valid] at ascii ⊢
        rw [encodeScalar, if_pos (by omega)] at bytes
        obtain ⟨rfl, _⟩ := List.cons.inj bytes
        exact List.mem_cons_self ..
      · exact List.mem_cons_of_mem _ (List.mem_append_right _ (ih later))
    | breaksOff lead value ranges tail rest announces breaks ih =>
      rw [decodeLossy_breaksOff announces breaks] at member
      exact List.mem_cons_of_mem _
        (List.mem_append_right _ (ih (List.mem_of_ne_of_mem ordinary member)))
  · intro member
    obtain ⟨front, back, rfl⟩ := List.append_of_mem member
    rw [decodeLossy_append (by omega), fits, Char.ofNat_toNat]
    simp

theorem mem_encode {c : Char} (ascii : c.toNat < 128) {text : List Char} :
    UInt8.ofNat c.toNat ∈ encode text ↔ c ∈ text := by
  rw [← mem_decodeLossy ascii, decodeLossy_encode]

end PatternSearch
