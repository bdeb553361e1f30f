import WebKit.Text.UTF8Chunks

/-! The decoder of the Encoding Standard, byte by byte, and what a call that flushes makes of the same bytes. -/
namespace WebKit.Text

open WebKit.Base Option List UInt8 Nat

/-- What the standard's decoder knows of the sequence that it is in. -/
structure DecoderState where
  codePoint : Nat
  bytesSeen : Nat
  bytesNeeded : Nat
  lowerBoundary : UInt8
  upperBoundary : UInt8
  deriving DecidableEq

def DecoderState.start : DecoderState := ⟨0,0,0,0x80,0xBF⟩

/-- A byte outside a sequence starts one, or is a character or an error. -/
def firstByte (b : UInt8) : DecoderState ⊕ Option Nat :=
  if b ≤ 0x7F then .inr (some b.toNat)
  else if 0xC2 ≤ b ∧ b ≤ 0xDF then .inl ⟨b.toNat &&& 0x1F,0,1,0x80,0xBF⟩
  else if 0xE0 ≤ b ∧ b ≤ 0xEF then
    .inl ⟨b.toNat &&& 0xF,0,2,if b = 0xE0 then 0xA0 else 0x80,if b = 0xED then 0x9F else 0xBF⟩
  else if 0xF0 ≤ b ∧ b ≤ 0xF4 then
    .inl ⟨b.toNat &&& 0x7,0,3,if b = 0xF0 then 0x90 else 0x80,if b = 0xF4 then 0x8F else 0xBF⟩
  else .inr none

/-- The code points that the standard's decoder returns, and none for an error. -/
def utf8Decoder (state : DecoderState) : List UInt8 → List (Option Nat)
  | [] => if state.bytesNeeded ≠ 0 then [none] else []
  | b::rest =>
    let restart :=
      match firstByte b with
      | .inl state => utf8Decoder state rest
      | .inr item => item :: utf8Decoder .start rest
    if state.bytesNeeded = 0 then restart
    -- A byte that does not belong to the sequence is handled again after the error.
    else if ¬ (state.lowerBoundary ≤ b ∧ b ≤ state.upperBoundary) then none :: restart
    else
      let codePoint := (state.codePoint <<< 6) ||| (b.toNat &&& 0x3F)
      if state.bytesSeen + 1 = state.bytesNeeded then some codePoint :: utf8Decoder .start rest
      else utf8Decoder ⟨codePoint,state.bytesSeen + 1,state.bytesNeeded,0x80,0xBF⟩ rest

/-- The character of an item, with the replacement character for an error. -/
def itemChar (item : Option Nat) : Char := (item.map Char.ofNat).getD '\uFFFD'

/-- The text of the standard with replacement characters for errors, and whether there is an error. -/
def standardUTF8 (bytes : List UInt8) : List UInt16 × Bool :=
  let items := utf8Decoder .start bytes
  (utf16 (items.map itemChar), items.any Option.isNone)

theorem utf8Decoder_cons (b : UInt8) (rest : List UInt8) : utf8Decoder .start (b::rest) =
    match firstByte b with
    | .inl s => utf8Decoder s rest
    | .inr item => item :: utf8Decoder .start rest := by
  rfl

theorem utf8Decoder_within {s : DecoderState} (h : s.bytesNeeded ≠ 0) (b : UInt8) (rest : List UInt8) :
    utf8Decoder s (b::rest) =
      if ¬ (s.lowerBoundary ≤ b ∧ b ≤ s.upperBoundary) then none :: utf8Decoder .start (b::rest)
      else if s.bytesSeen + 1 = s.bytesNeeded then
        some ((s.codePoint <<< 6) ||| (b.toNat &&& 0x3F)) :: utf8Decoder .start rest
      else utf8Decoder ⟨(s.codePoint <<< 6) ||| (b.toNat &&& 0x3F),s.bytesSeen + 1,s.bytesNeeded,0x80,0xBF⟩
        rest := by
  rw [utf8Decoder_cons,utf8Decoder,if_neg h]

section Sequences

variable {b c d e : UInt8} {rest : List UInt8}

theorem firstByte_eq (b : UInt8) : firstByte b =
    if b.toNat < 0x80 then .inr (some b.toNat)
    else if nonASCIISequenceLength b = 2 then .inl ⟨b.toNat &&& 0x1F,0,1,0x80,0xBF⟩
    else if nonASCIISequenceLength b = 3 then
      .inl ⟨b.toNat &&& 0xF,0,2,if b = 0xE0 then 0xA0 else 0x80,if b = 0xED then 0x9F else 0xBF⟩
    else if nonASCIISequenceLength b = 4 then
      .inl ⟨b.toNat &&& 0x7,0,3,if b = 0xF0 then 0x90 else 0x80,if b = 0xF4 then 0x8F else 0xBF⟩
    else .inr none := by
  rw [nonASCIISequenceLength_eq]
  simp only [firstByte,le_iff_toNat_le,reduceToNat]
  split_ifs <;> first | rfl | omega

private theorem shift_or (n : Nat) (h : isContinuation c) : (n <<< 6) ||| (c.toNat &&& 0x3F) = n*64 + (c.toNat-0x80) := by
  rw [isContinuation_iff] at h
  have hl : c.toNat &&& 0x3F = c.toNat - 0x80 := by
    rw [show (0x3F : Nat) = 2^6 - 1 from rfl,and_two_pow_sub_one_eq_mod]
    omega
  rw [hl,← shiftLeft_add_eq_or_of_lt (by omega),shiftLeft_eq]

/-- The range of second bytes is narrower after two first bytes. -/
theorem boundaries_second {x y l h : UInt8} (hn : y ≠ x) (b c : UInt8) :
    ((if b = x then l else 0x80) ≤ c ∧ c ≤ if b = y then h else 0xBF) ↔
      (if b = x then decide (l ≤ c) && decide (c ≤ 0xBF) else if b = y then decide (0x80 ≤ c) && decide (c ≤ h)
        else decide (0x80 ≤ c) && decide (c ≤ 0xBF)) := by
  by_cases hy : b = y
  · simp [hy,hn]
  · by_cases hx : b = x <;> simp [hx,hy,hn.symm]

theorem boundaries_rest (c : UInt8) : (0x80 ≤ c ∧ c ≤ 0xBF) ↔ isContinuation c := by simp [isContinuation]

/-- A byte inside a sequence, with the range of bytes that belong there. -/
theorem utf8Decoder_byte {s : DecoderState} (hn : s.bytesNeeded ≠ 0) {bs : Bool}
    (hr : (s.lowerBoundary ≤ c ∧ c ≤ s.upperBoundary) ↔ bs)
    (hb : bs → isContinuation c) (rest : List UInt8) :
    utf8Decoder s (c::rest) =
      if bs then
        if s.bytesSeen + 1 = s.bytesNeeded then
          some (s.codePoint*64+(c.toNat-0x80)) :: utf8Decoder .start rest
        else utf8Decoder ⟨s.codePoint*64 + (c.toNat-0x80),s.bytesSeen + 1,s.bytesNeeded,0x80,0xBF⟩ rest
      else none :: utf8Decoder .start (c::rest) := by
  rw [utf8Decoder_within hn]
  cases bs with
  | false => rw [if_pos fun h => Bool.false_ne_true (hr.1 h),if_neg Bool.false_ne_true]
  | true => rw [if_neg (not_not.2 (hr.2 rfl)),if_pos rfl,shift_or _ (hb rfl)]

private theorem first_low (h : nonASCIISequenceLength b = 2) : b.toNat &&& 0x1F = b.toNat - 0xC0 := by
  rw [length_two_iff] at h
  rw [show (0x1F : Nat) = 2^5 - 1 from rfl,and_two_pow_sub_one_eq_mod]
  omega

private theorem first_middle (h : nonASCIISequenceLength b = 3) : b.toNat &&& 0xF = b.toNat - 0xE0 := by
  rw [length_three_iff] at h
  rw [show (0xF : Nat) = 2^4 - 1 from rfl,and_two_pow_sub_one_eq_mod]
  omega

private theorem first_high (h : nonASCIISequenceLength b = 4) : b.toNat &&& 0x7 = b.toNat - 0xF0 := by
  rw [length_four_iff] at h
  rw [show (0x7 : Nat) = 2^3 - 1 from rfl,and_two_pow_sub_one_eq_mod]
  omega

theorem utf8Decoder_two (h : nonASCIISequenceLength b = 2) (rest : List UInt8) :
    utf8Decoder .start (b::rest) = utf8Decoder ⟨b.toNat - 0xC0,0,1,0x80,0xBF⟩ rest := by
  rw [utf8Decoder_cons,firstByte_eq,if_neg (not_ascii_of_length (by omega)),if_pos h,first_low h]

theorem utf8Decoder_three (h : nonASCIISequenceLength b = 3) (rest : List UInt8) :
    utf8Decoder .start (b::rest) = utf8Decoder
      ⟨b.toNat - 0xE0,0,2,if b = 0xE0 then 0xA0 else 0x80,if b = 0xED then 0x9F else 0xBF⟩ rest := by
  rw [utf8Decoder_cons,firstByte_eq,if_neg (not_ascii_of_length (by omega)),if_neg (by omega),if_pos h,first_middle h]

theorem utf8Decoder_four (h : nonASCIISequenceLength b = 4) (rest : List UInt8) :
    utf8Decoder .start (b::rest) = utf8Decoder
      ⟨b.toNat - 0xF0,0,3,if b = 0xF0 then 0x90 else 0x80,if b = 0xF4 then 0x8F else 0xBF⟩ rest := by
  rw [utf8Decoder_cons,firstByte_eq,if_neg (not_ascii_of_length (by omega)),if_neg (by omega),if_neg (by omega),if_pos h,
    first_high h]

theorem utf8Decoder_second_three (h : nonASCIISequenceLength b = 3) (c : UInt8) (rest : List UInt8) :
    utf8Decoder .start (b::c::rest) =
      if isSecondOfThree b c then utf8Decoder ⟨(b.toNat-0xE0)*64 + (c.toNat-0x80),1,2,0x80,0xBF⟩ rest
      else none :: utf8Decoder .start (c::rest) := by
  rw [utf8Decoder_three h,utf8Decoder_byte (succ_ne_zero _) (boundaries_second (by decide) b c) isContinuation_of_second_three]
  rfl

theorem utf8Decoder_second_four (h : nonASCIISequenceLength b = 4) (c : UInt8) (rest : List UInt8) :
    utf8Decoder .start (b::c::rest) =
      if isSecondOfFour b c then utf8Decoder ⟨(b.toNat-0xF0)*64 + (c.toNat-0x80),1,3,0x80,0xBF⟩ rest
      else none :: utf8Decoder .start (c::rest) := by
  rw [utf8Decoder_four h,utf8Decoder_byte (succ_ne_zero _) (boundaries_second (by decide) b c) isContinuation_of_second_four]
  rfl

theorem utf8Decoder_third_four (n : Nat) (c : UInt8) (rest : List UInt8) : utf8Decoder ⟨n,1,3,0x80,0xBF⟩ (c::rest) =
      if isContinuation c then utf8Decoder ⟨n*64 + (c.toNat-0x80),2,3,0x80,0xBF⟩ rest
      else none :: utf8Decoder .start (c::rest) := by
  rw [utf8Decoder_byte (succ_ne_zero _) (boundaries_rest c) id]
  rfl

theorem utf8Decoder_last (n s : Nat) (c : UInt8) (rest : List UInt8) :
    utf8Decoder ⟨n,s,s + 1,0x80,0xBF⟩ (c::rest) =
      if isContinuation c then some (n*64+(c.toNat-0x80)) :: utf8Decoder .start rest
      else none :: utf8Decoder .start (c::rest) := by
  rw [utf8Decoder_byte (succ_ne_zero _) (boundaries_rest c) id,if_pos rfl]

section Values

variable (rest : List UInt8)

private theorem utf8Decoder_of_two (h : nonASCIISequenceLength b = 2) : utf8Decoder .start (b::c::rest) =
    (decodeNonASCIISequence (b::c::rest) 2).1 ::
      utf8Decoder .start ((b::c::rest).drop (decodeNonASCIISequence (b::c::rest) 2).2) := by
  rw [utf8Decoder_two h,utf8Decoder_last]
  by_cases hc : isContinuation c
  · have hc' := isContinuation_iff.1 hc
    have hb := length_two_iff.1 h
    have hv : (b.toNat-0xC0)*64 + (c.toNat-0x80) = (b.toNat <<< 6) + c.toNat - 0x3080 := by
      omega
    rw [if_pos hc,hv]
    simp [decodeNonASCIISequence,hc]
  · simp [decodeNonASCIISequence,hc]

private theorem utf8Decoder_of_three (h : nonASCIISequenceLength b = 3) : utf8Decoder .start (b::c::d::rest) =
    (decodeNonASCIISequence (b::c::d::rest) 3).1 ::
      utf8Decoder .start ((b::c::d::rest).drop (decodeNonASCIISequence (b::c::d::rest) 3).2) := by
  rw [utf8Decoder_second_three h]
  by_cases hc : isSecondOfThree b c
  · rw [if_pos hc,utf8Decoder_last]
    by_cases hd : isContinuation d
    · have hc' := isContinuation_iff.1 (isContinuation_of_second_three hc)
      have hd' := isContinuation_iff.1 hd
      have hb := length_three_iff.1 h
      have hv : ((b.toNat-0xE0)*64+(c.toNat-0x80))*64 + (d.toNat-0x80) =
          (b.toNat <<< 12) + (c.toNat <<< 6) + d.toNat - 0xE2080 := by
        omega
      rw [if_pos hd,hv]
      simp [decodeNonASCIISequence,hc,hd]
    · simp [decodeNonASCIISequence,hc,hd]
  · simp [decodeNonASCIISequence,hc]

private theorem utf8Decoder_of_four (h : nonASCIISequenceLength b = 4) : utf8Decoder .start (b::c::d::e::rest) =
    (decodeNonASCIISequence (b::c::d::e::rest) 4).1 ::
      utf8Decoder .start ((b::c::d::e::rest).drop (decodeNonASCIISequence (b::c::d::e::rest) 4).2) := by
  rw [utf8Decoder_second_four h]
  by_cases hc : isSecondOfFour b c
  · rw [if_pos hc,utf8Decoder_third_four]
    by_cases hd : isContinuation d
    · rw [if_pos hd,utf8Decoder_last]
      by_cases he : isContinuation e
      · have hc' := isContinuation_iff.1 (isContinuation_of_second_four hc)
        have hd' := isContinuation_iff.1 hd
        have he' := isContinuation_iff.1 he
        have hb := length_four_iff.1 h
        have hv : (((b.toNat-0xF0)*64+(c.toNat-0x80))*64+(d.toNat-0x80))*64 + (e.toNat-0x80) =
            (b.toNat <<< 18) + (c.toNat <<< 12) + (d.toNat <<< 6) + e.toNat - 0x3C82080 := by
          omega
        rw [if_pos he,hv]
        simp [decodeNonASCIISequence,hc,hd,he]
      · simp [decodeNonASCIISequence,hc,hd,he]
    · simp [decodeNonASCIISequence,hc,hd]
  · simp [decodeNonASCIISequence,hc]

end Values

end Sequences

variable {bytes : List UInt8} {item : Option Nat × Nat}

/-- The standard's decoder returns the same items as the scan. -/
theorem utf8Decoder_of_some (h : firstItem bytes = some item) :
    utf8Decoder .start bytes = item.1 :: utf8Decoder .start (bytes.drop item.2) := by
  cases bytes with
  | nil => cases h
  | cons b rest =>
    rw [firstItem] at h
    split_ifs at h with ha hc hl
    · rw [← some.inj h,utf8Decoder_cons,firstByte_eq,if_pos (isASCII_iff.1 ha)]
      rfl
    · rw [← some.inj h,utf8Decoder_cons,firstByte_eq,if_neg (fun h => ha (isASCII_iff.2 h)),hc]
      rfl
    · rw [← some.inj h]
      rcases (nonASCIISequenceLength_cases b).resolve_left hc with htw | ht | hf
      · rw [htw] at hl ⊢
        rcases rest with _ | ⟨c,rest⟩
        · simp at hl
        · exact utf8Decoder_of_two rest htw
      · rw [ht] at hl ⊢
        rcases rest with _ | ⟨c,_ | ⟨d,rest⟩⟩
        · simp at hl
        · simp at hl
        · exact utf8Decoder_of_three rest ht
      · rw [hf] at hl ⊢
        rcases rest with _ | ⟨c,_ | ⟨d,_ | ⟨e,rest⟩⟩⟩
        · simp at hl
        · simp at hl
        · simp at hl
        · exact utf8Decoder_of_four rest hf

private theorem utf8Decoder_eq_scan (bytes : List UInt8) :
    utf8Decoder .start bytes = (scan bytes).1 ++ utf8Decoder .start (scan bytes).2 := by
  induction bytes using scan_induction with
  | hn bytes h => rw [scan_of_none h]; rfl
  | hs bytes item h ih => rw [utf8Decoder_of_some h,ih,scan_of_some h]; rfl

private theorem utf8Decoder_ne_nil {s : DecoderState} (h : s.bytesNeeded ≠ 0) (bytes : List UInt8) :
    utf8Decoder s bytes ≠ [] := by
  induction bytes generalizing s with
  | nil => rw [utf8Decoder,if_pos h]; exact cons_ne_nil _ _
  | cons b rest ih =>
    rw [utf8Decoder_within h]
    split
    · exact cons_ne_nil _ _
    · split
      · exact cons_ne_nil _ _
      · exact ih h

private theorem utf8Decoder_start_pos (b : UInt8) (rest : List UInt8) : 0 < (utf8Decoder .start (b::rest)).length := by
  rw [length_pos_iff]
  rcases nonASCIISequenceLength_cases b with hz | htw | ht | hf
  · rw [utf8Decoder_cons,firstByte_eq,hz]
    by_cases ha : b.toNat < 0x80 <;> simp [ha]
  · rw [utf8Decoder_two htw]
    exact utf8Decoder_ne_nil (succ_ne_zero _) rest
  · rw [utf8Decoder_three ht]
    exact utf8Decoder_ne_nil (succ_ne_zero _) rest
  · rw [utf8Decoder_four hf]
    exact utf8Decoder_ne_nil (succ_ne_zero _) rest

/-- The bytes of a sequence that is cut off, each in its range. -/
def WellBegun : List UInt8 → Prop
  | [] => True
  | [_] => True
  | [b, c] => if nonASCIISequenceLength b = 3 then isSecondOfThree b c = true else isSecondOfFour b c = true
  | [b, c, d] => isSecondOfFour b c = true ∧ isContinuation d = true
  | _ => False

/-- A sequence that is cut off is one error, other bytes at the end are more. -/
theorem utf8Decoder_pending {b : UInt8} {rest : List UInt8} (h : Pending (b::rest)) :
    WellBegun (b::rest) ∧ utf8Decoder .start (b::rest) = [none] ∨
      ¬ WellBegun (b::rest) ∧ 2 ≤ (utf8Decoder .start (b::rest)).length := by
  obtain ⟨-,hcn,hl⟩ := h.cons
  have ho (c : UInt8) (rest : List UInt8) : 2 ≤ (none :: utf8Decoder .start (c::rest)).length :=
    succ_le_succ (utf8Decoder_start_pos c rest)
  rcases (nonASCIISequenceLength_cases b).resolve_left hcn with htw | ht | hf
  · rw [htw] at hl
    match rest, hl with
    | [], _ => exact .inl ⟨trivial,utf8Decoder_two htw []⟩
    | _::_, hl => exact absurd hl (by simp)
  · rw [ht] at hl
    match rest, hl with
    | [], _ => exact .inl ⟨trivial,utf8Decoder_three ht []⟩
    | [c], _ =>
      rw [WellBegun,if_pos ht,utf8Decoder_second_three ht]
      by_cases hc : isSecondOfThree b c
      · exact .inl ⟨hc,if_pos hc⟩
      · exact .inr ⟨hc,if_neg hc ▸ ho c []⟩
    | _::_::_, hl => exact absurd hl (by simp)
  · rw [hf] at hl
    match rest, hl with
    | [], _ => exact .inl ⟨trivial,utf8Decoder_four hf []⟩
    | [c], _ =>
      rw [WellBegun,if_neg (by omega),utf8Decoder_second_four hf]
      by_cases hc : isSecondOfFour b c
      · exact .inl ⟨hc,if_pos hc⟩
      · exact .inr ⟨hc,if_neg hc ▸ ho c []⟩
    | [c, d], _ =>
      rw [WellBegun,utf8Decoder_second_four hf]
      by_cases hc : isSecondOfFour b c
      · rw [if_pos hc,utf8Decoder_third_four]
        by_cases hd : isContinuation d
        · exact .inl ⟨⟨hc,hd⟩,if_pos hd⟩
        · exact .inr ⟨fun h => hd h.2,if_neg hd ▸ ho d []⟩
      · exact .inr ⟨fun h => hc h.1,if_neg hc ▸ ho c [d]⟩
    | _::_::_::_, hl => exact absurd hl (by simp)

section Characters

variable {b c d e : UInt8}

theorem ofNat_eq_byte {n : Nat} (h : n = b.toNat) : UInt8.ofNat n = b := by rw [h,UInt8.ofNat_toNat]

theorem exists_char_two (hb : nonASCIISequenceLength b = 2) (hc : isContinuation c) :
    ∃ ch : Char, ch.toNat = (b.toNat <<< 6) + c.toNat - 0x3080 ∧ String.utf8EncodeChar ch = [b, c] := by
  rw [length_two_iff] at hb
  rw [isContinuation_iff] at hc
  rw [shiftLeft_eq]
  obtain ⟨ch,hch⟩ := exists_char (n := b.toNat*2^6 + c.toNat - 0x3080) (by omega)
  refine ⟨ch,hch,?_⟩
  rw [utf8EncodeChar_eq,hch,if_neg (by omega),if_pos (by omega),ofNat_eq_byte (b := b) (by omega),
    ofNat_eq_byte (b := c) (by omega)]

theorem exists_char_three (hb : nonASCIISequenceLength b = 3) (hc : isSecondOfThree b c) (hd : isContinuation d) :
    ∃ ch : Char, ch.toNat = (b.toNat <<< 12) + (c.toNat <<< 6) + d.toNat - 0xE2080 ∧ String.utf8EncodeChar ch = [b, c, d] := by
  rw [length_three_iff] at hb
  rw [isSecondOfThree_iff] at hc
  rw [isContinuation_iff] at hd
  rw [shiftLeft_eq,shiftLeft_eq]
  obtain ⟨ch,hch⟩ := exists_char (n := b.toNat*2^12 + c.toNat*2^6 + d.toNat - 0xE2080) (by omega)
  refine ⟨ch,hch,?_⟩
  rw [utf8EncodeChar_eq,hch,if_neg (by omega),if_neg (by omega),if_pos (by omega),ofNat_eq_byte (b := b) (by omega),
    ofNat_eq_byte (b := c) (by omega),ofNat_eq_byte (b := d) (by omega)]

theorem exists_char_four (hb : nonASCIISequenceLength b = 4) (hc : isSecondOfFour b c) (hd : isContinuation d)
    (he : isContinuation e) : ∃ ch : Char,
      ch.toNat = (b.toNat <<< 18) + (c.toNat <<< 12) + (d.toNat <<< 6) + e.toNat - 0x3C82080 ∧
        String.utf8EncodeChar ch = [b, c, d, e] := by
  rw [length_four_iff] at hb
  rw [isSecondOfFour_iff] at hc
  rw [isContinuation_iff] at hd he
  rw [shiftLeft_eq,shiftLeft_eq,shiftLeft_eq]
  obtain ⟨ch,hch⟩ := exists_char (n := b.toNat*2^18 + c.toNat*2^12 + d.toNat*2^6 + e.toNat - 0x3C82080) (by omega)
  refine ⟨ch,hch,?_⟩
  rw [utf8EncodeChar_eq,hch,if_neg (by omega),if_neg (by omega),if_neg (by omega),ofNat_eq_byte (b := b) (by omega),
    ofNat_eq_byte (b := c) (by omega),ofNat_eq_byte (b := d) (by omega),ofNat_eq_byte (b := e) (by omega)]

private theorem utf8EncodeChar_cases (ch : Char) : (∃ b, String.utf8EncodeChar ch = [b]) ∨
    (∃ b c, String.utf8EncodeChar ch = [b, c] ∧ nonASCIISequenceLength b = 2) ∨
    (∃ b c d, String.utf8EncodeChar ch = [b, c, d] ∧ nonASCIISequenceLength b = 3 ∧ isSecondOfThree b c) ∨
    ∃ b c d e, String.utf8EncodeChar ch = [b, c, d, e] ∧ nonASCIISequenceLength b = 4 ∧ isSecondOfFour b c ∧
      isContinuation d := by
  have hc := toNat_char ch
  have hb (n : Nat) (h : n < 256) : (ofNat n).toNat = n := by rw [toNat_ofNat',mod_eq_of_lt h]
  rw [utf8EncodeChar_eq]
  split_ifs
  · exact .inl ⟨_,rfl⟩
  · refine .inr (.inl ⟨_,_,rfl,?_⟩)
    rw [length_two_iff,hb _ (by omega)]
    omega
  · refine .inr (.inr (.inl ⟨_,_,_,rfl,?_,?_⟩))
    · rw [length_three_iff,hb _ (by omega)]
      omega
    · rw [isSecondOfThree_iff,hb _ (by omega),hb _ (by omega)]
      omega
  · refine .inr (.inr (.inr ⟨_,_,_,_,rfl,?_,?_,?_⟩))
    · rw [length_four_iff,hb _ (by omega)]
      omega
    · rw [isSecondOfFour_iff,hb _ (by omega),hb _ (by omega)]
      omega
    · rw [isContinuation_iff,hb _ (by omega)]
      omega

private theorem exists_isSecondOfThree (b : UInt8) : ∃ c, isSecondOfThree b c := by
  by_cases h : b.toNat = 0xE0
  · exact ⟨0xA0,isSecondOfThree_iff.2 (by simp [h])⟩
  · exact ⟨0x80,isSecondOfThree_iff.2 (by simp [h])⟩

private theorem exists_isSecondOfFour (b : UInt8) : ∃ c, isSecondOfFour b c := by
  by_cases h : b.toNat = 0xF0
  · exact ⟨0x90,isSecondOfFour_iff.2 (by simp [h])⟩
  · exact ⟨0x80,isSecondOfFour_iff.2 (by simp [h])⟩

private theorem wellBegun_of_isPrefix {left : List UInt8} (h : Pending left) {ch : Char}
    (hch : left <+: String.utf8EncodeChar ch) :
    WellBegun left := by
  rcases left with _ | ⟨x,_ | ⟨y,left⟩⟩
  · trivial
  · trivial
  -- The first byte announces more bytes than there are.
  have hcn := h.cons.2.2
  rcases utf8EncodeChar_cases ch with ⟨b,he⟩ | ⟨b,c,he,hb⟩ | ⟨b,c,d,he,hb,hc⟩ | ⟨b,c,d,e,he,hb,hc,hd⟩ <;>
    rw [he] at hch <;> simp only [cons_prefix_cons,prefix_nil,reduceCtorEq,and_false] at hch <;>
      rw [hch.1,hb,length_cons,length_cons] at hcn
  · omega
  · obtain rfl : left = [] := eq_nil_of_length_eq_zero (by omega)
    rw [hch.1,hch.2.1,WellBegun,if_pos hb]
    exact hc
  · rcases left with _ | ⟨z,_ | _⟩
    · rw [hch.1,hch.2.1,WellBegun,if_neg (by omega)]
      exact hc
    · rw [hch.1,hch.2.1,(cons_prefix_cons.1 hch.2.2).1]
      exact ⟨hc,hd⟩
    · simp only [length_cons] at hcn
      omega

private theorem exists_isPrefix_of_wellBegun {left : List UInt8} (h : Pending left) (hw : WellBegun left) :
    ∃ ch : Char, left <+: String.utf8EncodeChar ch := by
  have hlw : isContinuation 0x80 := rfl
  cases left with
  | nil => exact ⟨'a',_,rfl⟩
  | cons b rest =>
    obtain ⟨-,hcn,hl⟩ := h.cons
    rcases (nonASCIISequenceLength_cases b).resolve_left hcn with htw | ht | hf
    · rw [htw] at hl
      match rest, hl with
      | [], _ =>
        obtain ⟨ch,-,hch⟩ := exists_char_two htw hlw
        exact ⟨ch,_,hch.symm⟩
      | _::_, hl => exact absurd hl (by simp)
    · rw [ht] at hl
      match rest, hl, hw with
      | [], _, _ =>
        obtain ⟨c,hc⟩ := exists_isSecondOfThree b
        obtain ⟨ch,-,hch⟩ := exists_char_three ht hc hlw
        exact ⟨ch,_,hch.symm⟩
      | [c], _, hw =>
        rw [WellBegun,if_pos ht] at hw
        obtain ⟨ch,-,hch⟩ := exists_char_three ht hw hlw
        exact ⟨ch,_,hch.symm⟩
      | _::_::_, hl, _ => exact absurd hl (by simp)
    · rw [hf] at hl
      match rest, hl, hw with
      | [], _, _ =>
        obtain ⟨c,hc⟩ := exists_isSecondOfFour b
        obtain ⟨ch,-,hch⟩ := exists_char_four hf hc hlw hlw
        exact ⟨ch,_,hch.symm⟩
      | [c], _, hw =>
        rw [WellBegun,if_neg (by omega)] at hw
        obtain ⟨ch,-,hch⟩ := exists_char_four hf hw hlw hlw
        exact ⟨ch,_,hch.symm⟩
      | [c, d], _, hw =>
        obtain ⟨ch,-,hch⟩ := exists_char_four hf hw.1 hw.2 hlw
        exact ⟨ch,_,hch.symm⟩
      | _::_::_::_, hl, _ => exact absurd hl (by simp)

end Characters

private theorem appendCharacter_toNat (ch : Char) : appendCharacter ch.toNat = utf16EncodeChar ch := by
  rw [appendCharacter,utf16EncodeChar]
  split_ifs with h h' h'
  · rfl
  · omega
  · omega
  · have hl : (ch.toNat &&& 0x3FF) ||| 0xDC00 = 0xDC00 + (ch.toNat-0x10000)%1024 := by
      rw [show (0x3FF : Nat) = 2^10 - 1 from rfl,Nat.and_two_pow_sub_one_eq_mod,Nat.or_comm,
        show (0xDC00 : Nat) = 55 <<< 10 from rfl,← shiftLeft_add_eq_or_of_lt (mod_lt _ (by decide))]
      omega
    have hh : (ch.toNat >>> 10) + 0xD7C0 = 0xD800 + (ch.toNat-0x10000)/1024 := by
      omega
    rw [hl,hh]

private theorem text_eq_utf16 {it : List (Option Nat)} (h : ∀ n, some n ∈ it → ∃ ch : Char, ch.toNat = n) :
    text it = utf16 (it.map itemChar) := by
  induction it with
  | nil => rfl
  | cons item it ih =>
    have ih := ih fun n hn => h n (mem_cons_of_mem _ hn)
    rw [map_cons,utf16_cons,← ih]
    cases item with
    | none => rfl
    | some n =>
      obtain ⟨ch,rfl⟩ := h n mem_cons_self
      rw [text_some,appendCharacter_toNat,itemChar,map_some,getD_some,Char.ofNat_toNat]

private theorem exists_char_of_decode {b : UInt8} {rest : List UInt8} {n : Nat} (hcn : nonASCIISequenceLength b ≠ 0)
    (h : (decodeNonASCIISequence (b::rest) (nonASCIISequenceLength b)).1 = some n) :
    ∃ ch : Char, ch.toNat = n ∧ (String.utf8EncodeChar ch).head? = some b := by
  rcases (nonASCIISequenceLength_cases b).resolve_left hcn with htw | ht | hf
  · rw [htw] at h
    simp only [decodeNonASCIISequence,if_true] at h
    split_ifs at h with hc
    obtain ⟨ch,hch,he⟩ := exists_char_two htw hc
    exact ⟨ch,hch.trans (some.inj h),by rw [he]; rfl⟩
  · rw [ht] at h
    simp only [decodeNonASCIISequence,reduceEqDiff,if_true,if_false,Bool.not_eq_true'] at h
    split_ifs at h with hc hd
    obtain ⟨ch,hch,he⟩ := exists_char_three ht (Bool.not_eq_false _ ▸ hc) (Bool.not_eq_false _ ▸ hd)
    exact ⟨ch,hch.trans (some.inj h),by rw [he]; rfl⟩
  · rw [hf] at h
    simp only [decodeNonASCIISequence,reduceEqDiff,if_false,Bool.not_eq_true'] at h
    split_ifs at h with hc hd hl
    obtain ⟨ch,hch,he⟩ := exists_char_four hf (Bool.not_eq_false _ ▸ hc) (Bool.not_eq_false _ ▸ hd) (Bool.not_eq_false _ ▸ hl)
    exact ⟨ch,hch.trans (some.inj h),by rw [he]; rfl⟩

/-- A character's encoding starts with the first of the bytes that it is decoded from. -/
theorem exists_char_of_firstItem (h : firstItem bytes = some item) {n : Nat}
    (hn : item.1 = some n) : ∃ ch : Char, ch.toNat = n ∧ (String.utf8EncodeChar ch).head? = bytes.head? := by
  cases bytes with
  | nil => cases h
  | cons b rest =>
    rw [firstItem] at h
    split_ifs at h with ha hc hl <;> rw [← some.inj h] at hn
    · have hb := isASCII_iff.1 ha
      obtain ⟨ch,hch⟩ := exists_char (n := b.toNat) (by omega)
      refine ⟨ch,hch.trans (some.inj hn),?_⟩
      rw [utf8EncodeChar_eq,hch,if_pos (by omega),UInt8.ofNat_toNat]
      rfl
    · cases hn
    · exact exists_char_of_decode hc hn

private theorem exists_char_of_mem_scan {n : Nat} (h : some n ∈ (scan bytes).1) : ∃ ch : Char, ch.toNat = n := by
  induction bytes using scan_induction with
  | hn bytes hn =>
    rw [scan_of_none hn] at h
    cases h
  | hs bytes item hi ih =>
    rw [scan_of_some hi,mem_cons] at h
    rcases h with h | h
    · obtain ⟨ch,hch,-⟩ := exists_char_of_firstItem hi h.symm
      exact ⟨ch,hch⟩
    · exact ih h

private theorem utf16EncodeChar_pos (ch : Char) : 0 < (utf16EncodeChar ch).length := by
  rw [utf16EncodeChar]
  split_ifs <;> exact succ_pos _

private theorem length_le_utf16 (cs : List Char) : cs.length ≤ (utf16 cs).length := by
  induction cs with
  | nil => exact Nat.le_refl _
  | cons ch cs ih =>
    have := utf16EncodeChar_pos ch
    rw [utf16_cons,length_append,length_cons]
    omega

private theorem standardUTF8_eq_scan (bytes : List UInt8) : standardUTF8 bytes =
    (text (scan bytes).1 ++ (standardUTF8 (scan bytes).2).1, malformed (scan bytes).1 || (standardUTF8 (scan bytes).2).2) := by
  rw [text_eq_utf16 fun n => exists_char_of_mem_scan,standardUTF8,utf8Decoder_eq_scan bytes,map_append,any_append]
  exact Prod.ext flatMap_append rfl

private theorem isContinuation_of_wellBegun {b c : UInt8} {bf rest : List UInt8} (h : WellBegun (b :: bf ++ c::rest)) :
    isContinuation c := by
  rcases bf with _ | ⟨d,_ | ⟨e,bf⟩⟩
  · rcases rest with _ | ⟨d,_ | ⟨e,rest⟩⟩
    · change (if nonASCIISequenceLength b = 3 then isSecondOfThree b c = true else isSecondOfFour b c = true) at h
      split_ifs at h
      · exact isContinuation_of_second_three h
      · exact isContinuation_of_second_four h
    · exact isContinuation_of_second_four h.1
    · exact h.elim
  · rcases rest with _ | ⟨e,rest⟩
    · exact h.2
    · exact h.elim
  · cases bf <;> exact h.elim

/-- The bytes that are left at the end are the only ones that announce more bytes than there are, if they begin a character. -/
theorem wellBegun_scan_iff (bytes : List UInt8) : WellBegun (scan bytes).2 ↔
    ∀ b rest, b::rest <:+ bytes → rest.length + 1 < nonASCIISequenceLength b → WellBegun (b::rest) := by
  obtain ⟨bf,hb⟩ := exists_eq_append_scan bytes
  constructor
  · rintro hw b rest ⟨t,rfl⟩ hl
    have hc : nonASCIISequenceLength b ≠ 0 := by omega
    obtain ⟨it,hs⟩ | hlt := scan_announces hc t rest
    · rw [hs,scan_of_none (pending_cons hl)] at hw
      exact hw
    · obtain ⟨t',ht⟩ := suffix_of_suffix_length_le (suffix_append t (b::rest)) ⟨bf,hb.symm⟩ (Nat.le_of_lt hlt)
      rw [← ht] at hw
      cases t' with
      | nil => exact hw
      | cons c t' => exact absurd (isContinuation_of_wellBegun hw) (not_isContinuation_of_length hc)
  · intro h
    cases hlf : (scan bytes).2 with
    | nil => trivial
    | cons b rest =>
      have hp := pending_scan bytes
      rw [hlf] at hp hb
      exact h b rest ⟨bf,hb.symm⟩ hp.cons.2.2

/-- A call that flushes follows the standard exactly when every byte at the end that announces more bytes than there are begins
a character with the bytes after it. -/
theorem decodeWhole_eq_standardUTF8_iff (chunk : Chunk) :
    decodeWhole chunk = standardUTF8 chunk.bytes ↔
      ∀ b rest, b::rest <:+ chunk.bytes → rest.length + 1 < nonASCIISequenceLength b →
        ∃ ch : Char, b::rest <+: String.utf8EncodeChar ch := by
  have hp := pending_scan chunk.bytes
  have hw : (∀ b rest, b::rest <:+ chunk.bytes → rest.length + 1 < nonASCIISequenceLength b →
      ∃ ch : Char, b::rest <+: String.utf8EncodeChar ch) ↔ WellBegun (scan chunk.bytes).2 := by
    rw [wellBegun_scan_iff]
    exact forall₄_congr fun b rest _ hl => ⟨fun ⟨ch,hch⟩ => wellBegun_of_isPrefix (pending_cons hl) hch,
      exists_isPrefix_of_wellBegun (pending_cons hl)⟩
  rw [hw,decodeWhole_eq,standardUTF8_eq_scan]
  cases hlf : (scan chunk.bytes).2 with
  | nil =>
    rw [closed,if_pos hlf]
    exact iff_of_true (Prod.ext (append_nil _).symm (Bool.or_false _).symm) trivial
  | cons b rest =>
    rw [hlf] at hp
    rw [closed,if_neg (by rw [hlf]; exact cons_ne_nil _ _),text_append,malformed_append]
    rcases utf8Decoder_pending hp with ⟨hw,hdc⟩ | ⟨hw,hdc⟩
    · have hs : standardUTF8 (b::rest) = (text [none], malformed [none]) := by
        rw [standardUTF8,hdc]
        decide
      rw [hs]
      exact iff_of_true rfl hw
    · -- The standard's text is longer than one replacement character.
      refine iff_of_false (fun he => ?_) hw
      have ht : text [none] = (standardUTF8 (b::rest)).1 := append_cancel_left (congrArg Prod.fst he)
      have hl : (utf8Decoder .start (b::rest)).length ≤ (standardUTF8 (b::rest)).1.length := by
        have := length_le_utf16 ((utf8Decoder .start (b::rest)).map itemChar)
        rwa [length_map] at this
      rw [← ht] at hl
      exact absurd (Nat.le_trans hdc hl) (by decide)

theorem decodeWhole_drops_byte : decodeWhole ⟨0,[0xE0, 0x41]⟩ = ([0xFFFD], true) ∧
    standardUTF8 [0xE0, 0x41] = ([0xFFFD, 0x41], true) := by
  decide +kernel

end WebKit.Text
