import Mathlib.Algebra.Group.Nat.Defs
import WebKit.Base.Codec
import WebKit.WTF.UTF8Conversion

/-! Strings of 16-bit units that are texts are converted to the UTF-8 of these texts and back. The way back also takes
sequences that are not UTF-8. -/
namespace WebKit.WTF

open Base List Bool UInt8 Nat

theorem forall_utf8Byte {P : UInt8 → Prop} (h : ∀ n : Fin 256, P (.ofFin n)) (byte : UInt8) : P byte := h byte.toFin

section
variable {ch : Nat}

private theorem continuationByte (ch : Nat) : UInt8.ofNat ((ch ||| 0x80) &&& 0xBF) = .ofNat (ch%64+128) := by
  have hb : ∀ b : UInt8, (b ||| 0x80) &&& 0xBF = .ofNat (b.toNat%64+128) := forall_utf8Byte (by decide +kernel)
  rw [ofNat_and,ofNat_or]
  refine (hb (.ofNat ch)).trans ?_
  rw [toNat_ofNat',mod_mod_of_dvd _ (by decide)]

theorem or_mark {n mark : Nat} (b hg : Nat) (hm : mark = 2^b*hg) (h : n < 2^b) :
    n ||| mark = n + mark := by
  rw [hm,Nat.or_comm,← Nat.two_pow_add_eq_or_of_lt h,Nat.add_comm]

private theorem utf8Sequence_toNat (c : Char) : utf8Sequence c.toNat = String.utf8EncodeChar c := by
  have hv := toNat_char c
  have hs : ∀ n : Nat, n >>> 6 = n/64 := fun n => shiftRight_eq_div_pow n 6
  rw [utf8Sequence,utf8EncodeChar_eq]
  simp only [writeUTF8Sequence,firstByteMark,continuationByte,hs,Nat.div_div_eq_div_mul,Nat.reduceMul]
  split_ifs <;> try omega
  · rw [or_zero]
  · rw [or_mark 6 3 (by decide) (by omega),mod_eq_of_lt (show c.toNat/64 < 32 by omega)]
  · rw [or_mark 5 7 (by decide) (by omega),Nat.mod_eq_of_lt (show c.toNat/4096 < 16 by omega)]
  · rw [or_mark 4 15 (by decide) (by omega),Nat.mod_eq_of_lt (show c.toNat/262144 < 8 by omega)]

private theorem writeBytes_of_le {α : Type} {bytes : List UInt8} {room : Nat} {o source : List α} {t : List UInt8}
    {r : ConversionResult} {cn : Nat → ConversionResult × List α × List UInt8} (hr : bytes.length ≤ room)
    (h : cn (room-bytes.length) = (r, source, t)) :
    writeBytes bytes room o cn = (r, source, bytes ++ t) := by
  rw [writeBytes,if_neg (Nat.not_lt.2 hr),h]

theorem isLead_iff {unit : UInt16} : isLead unit ↔ 0xD800 ≤ unit.toNat ∧ unit.toNat ≤ 0xDBFF := by
  rw [isLead,and_eq_true,decide_eq_true_iff,decide_eq_true_iff]
  rfl

theorem isTrail_iff {unit : UInt16} : isTrail unit ↔ 0xDC00 ≤ unit.toNat ∧ unit.toNat ≤ 0xDFFF := by
  rw [isTrail,and_eq_true,decide_eq_true_iff,decide_eq_true_iff]
  rfl

section
variable {strict : Bool} {ch ch2 : UInt16} {source : List UInt16} {room : Nat}

theorem convertUTF16ToUTF8_unit (hl : ¬ isLead ch) (ht : ¬ (strict && isTrail ch)) :
    convertUTF16ToUTF8 strict (ch::source) room =
      writeBytes (utf8Sequence ch.toNat) room (ch::source) (convertUTF16ToUTF8 strict source) := by
  rw [convertUTF16ToUTF8.eq_def]
  dsimp only
  rw [if_neg hl,if_neg ht]

private theorem convertUTF16ToUTF8_pair (hl : isLead ch) (ht : isTrail ch2) :
    convertUTF16ToUTF8 strict (ch::ch2::source) room =
      writeBytes (utf8Sequence (((ch.toNat-0xD800) <<< 10) + (ch2.toNat-0xDC00) + 0x10000)) room (ch::ch2::source)
        (convertUTF16ToUTF8 strict source) := by
  rw [convertUTF16ToUTF8.eq_def]
  dsimp only
  rw [if_pos hl,if_pos ht]

end

private theorem convertUTF16ToUTF8_step (strict : Bool) (c : Char) (source : List UInt16) (room : Nat) :
    convertUTF16ToUTF8 strict (utf16EncodeChar c ++ source) room =
      writeBytes (String.utf8EncodeChar c) room (utf16EncodeChar c ++ source) (convertUTF16ToUTF8 strict source) := by
  have hvl := toNat_char c
  rw [utf16EncodeChar]
  split_ifs with hs
  · have hu : (UInt16.ofNat c.toNat).toNat = c.toNat := UInt16.toNat_ofNat_of_lt' hs
    have hl : ¬ isLead (.ofNat c.toNat) := by rw [isLead_iff,hu]; omega
    have ht : ¬ (strict && isTrail (.ofNat c.toNat)) := by
      rw [and_eq_true,isTrail_iff,hu]
      omega
    rw [singleton_append,convertUTF16ToUTF8_unit hl ht,hu,utf8Sequence_toNat]
  · have hu : (UInt16.ofNat (0xD800+(c.toNat-0x10000)/1024)).toNat = 0xD800 + (c.toNat-0x10000)/1024 :=
      UInt16.toNat_ofNat_of_lt' (show _ < 65536 by omega)
    have hu2 : (UInt16.ofNat (0xDC00+(c.toNat-0x10000)%1024)).toNat = 0xDC00 + (c.toNat-0x10000)%1024 :=
      UInt16.toNat_ofNat_of_lt' (show _ < 65536 by omega)
    have hl : isLead (.ofNat (0xD800+(c.toNat-0x10000)/1024)) := by rw [isLead_iff,hu]; omega
    have ht : isTrail (.ofNat (0xDC00+(c.toNat-0x10000)%1024)) := by rw [isTrail_iff,hu2]; omega
    have hv : ((0xD800+(c.toNat-0x10000)/1024-0xD800) <<< 10) + (0xDC00+(c.toNat-0x10000)%1024-0xDC00) +
        0x10000 = c.toNat := by
      omega
    rw [cons_append,singleton_append,convertUTF16ToUTF8_pair hl ht,hu,hu2,hv,utf8Sequence_toNat]

/-- A text is converted, if there is room for three bytes for each unit. -/
theorem convertUTF16ToUTF8_utf16 (strict : Bool) (text : List Char) {room : Nat} (hr : 3*(utf16 text).length ≤ room) :
    convertUTF16ToUTF8 strict (utf16 text) room = (.conversionOK, [], utf8 text) := by
  induction text generalizing room with
  | nil => rfl
  | cons c text ih =>
    have hb := length_utf8EncodeChar_le c
    rw [utf16_cons,length_append] at hr
    rw [utf16_cons,utf8_cons,convertUTF16ToUTF8_step]
    exact writeBytes_of_le (by omega) (ih (by omega))

/-- A string of 8-bit characters is converted as that of 16-bit ones. -/
theorem convertLatin1ToUTF8_eq (strict : Bool) (source : List UInt8) (room : Nat) :
    convertUTF16ToUTF8 strict (source.map UInt8.toUInt16) room =
      let (result, rest, target) := convertLatin1ToUTF8 source room
      (result, rest.map UInt8.toUInt16, target) := by
  induction source generalizing room with
  | nil => rfl
  | cons ch source ih =>
    have hch := ch.toNat_lt
    have hl : ¬ isLead ch.toUInt16 := by rw [isLead_iff,toNat_toUInt16]; omega
    have ht : ¬ (strict && isTrail ch.toUInt16) := by
      rw [and_eq_true,isTrail_iff,toNat_toUInt16]
      omega
    have hb : utf8Sequence ch.toUInt16.toNat =
        writeUTF8Sequence (if ch < 0x80 then 1 else 2) (if ch < 0x80 then 1 else 2) ch.toNat [] := by
      rw [utf8Sequence,toNat_toUInt16,if_pos (show ch.toNat < 0x800 by omega)]
      by_cases ha : ch.toNat < 0x80
      · rw [if_pos ha,if_pos (show ch < 0x80 from ha)]
      · rw [if_neg ha,if_neg (show ¬ ch < 0x80 from ha)]
    rw [map_cons,convertUTF16ToUTF8_unit hl ht,convertLatin1ToUTF8,hb]
    generalize writeUTF8Sequence _ _ _ _ = bytes
    rw [writeBytes,writeBytes]
    split_ifs with hr
    · rfl
    · rw [ih]

end

theorem isContinuation_iff (a : UInt8) : isLegalUTF8.isContinuation a ↔ 0x80 ≤ a.toNat ∧ a.toNat ≤ 0xBF := by
  revert a
  exact forall_utf8Byte (by decide +kernel)

theorem isLegalFirst_iff (b0 : UInt8) :
    isLegalUTF8.isLegalFirst b0 ↔ (b0.toNat < 0x80 ∨ 0xC2 ≤ b0.toNat) ∧ b0.toNat ≤ 0xF4 := by
  revert b0
  exact forall_utf8Byte (by decide +kernel)

theorem isLegalSecond_iff (b0 a : UInt8) : isLegalUTF8.isLegalSecond b0 a ↔ a.toNat ≤ 0xBF ∧
    (if b0.toNat = 0xE0 then 0xA0 ≤ a.toNat else if b0.toNat = 0xED then a.toNat ≤ 0x9F
      else if b0.toNat = 0xF0 then 0x90 ≤ a.toNat else if b0.toNat = 0xF4 then a.toNat ≤ 0x8F else 0x80 ≤ a.toNat) := by
  have hb0 : ∀ n : UInt8, b0 = n ↔ b0.toNat = n.toNat := fun n => UInt8.toNat_inj.symm
  simp only [isLegalUTF8.isLegalSecond,hb0,gt_iff_lt,lt_iff_toNat_lt,not_eq_true',decide_eq_false_iff_not,
    ite_eq_true_distrib,false_eq_true,reduceToNat]
  split_ifs
  all_goals try rw [false_iff]
  all_goals omega

theorem sequenceLength_eq (b0 : UInt8) : inlineUTF8SequenceLength b0 =
    if b0.toNat < 0x80 then 1 else if b0.toNat < 0xC0 then 0 else if b0.toNat < 0xE0 then 2
    else if b0.toNat < 0xF0 then 3 else if b0.toNat < 0xF8 then 4 else 0 := by
  revert b0
  exact forall_utf8Byte (by decide +kernel)

/-- A legal sequence with the length that its first byte says, which is read as a character. -/
def ReadAs (c : Char) (bytes : List UInt8) : Prop := ∃ b0 tail, bytes = b0 :: tail ∧
  inlineUTF8SequenceLength b0 = (b0::tail).length ∧ isLegalUTF8 (b0::tail) = true ∧ readUTF8Sequence (b0::tail) = c.toNat

private theorem readAs_utf8EncodeChar (c : Char) : ReadAs c (String.utf8EncodeChar c) := by
  have hv := toNat_char c
  have hb : ∀ n, n < 256 → (UInt8.ofNat n).toNat = n := fun n h => UInt8.toNat_ofNat_of_lt' h
  rw [utf8EncodeChar_eq]
  -- The same argument for each of the four lengths.
  split_ifs <;> refine ⟨_,_,rfl,?_,?_,?_⟩
  all_goals simp (disch := omega) only [sequenceLength_eq,isLegalUTF8,and_eq_true,isContinuation_iff,isLegalFirst_iff,
    isLegalSecond_iff,readUTF8Sequence,offsetsFromUTF8,length_cons,length_nil,foldl_cons,foldl_nil,
    Nat.add_one_sub_one,getD_cons_zero,getD_cons_succ,Nat.shiftLeft_eq,hb]
  all_goals (try split_ifs) <;> omega

/-- Taken for a character though the second byte is no continuation. -/
inductive Loose : Char → List UInt8 → Prop where
  | three (c : Char) (b1 b2 : UInt8) (hb1 : b1.toNat < 0x80) (hb2 : 0x80 ≤ b2.toNat ∧ b2.toNat ≤ 0xBF)
    (hc : c.toNat = 0xB000 + b1.toNat*64 + (b2.toNat-0x80)) : Loose c [0xED, b1, b2]
  | four (c : Char) (b1 b2 b3 : UInt8) (hb1 : b1.toNat < 0x80) (hb2 : 0x80 ≤ b2.toNat ∧ b2.toNat ≤ 0xBF)
    (hb3 : 0x80 ≤ b3.toNat ∧ b3.toNat ≤ 0xBF)
    (hc : c.toNat = 0x80000 + b1.toNat*4096 + (b2.toNat-0x80)*64 + (b3.toNat-0x80)) : Loose c [0xF4, b1, b2, b3]

/-- The bytes are the encoding of a character. -/
def Strict (c : Char) (bytes : List UInt8) : Prop := bytes = String.utf8EncodeChar c

/-- The bytes are taken for a character. -/
def Accepted (c : Char) (bytes : List UInt8) : Prop := Strict c bytes ∨ Loose c bytes

variable {bytes source : List UInt8} {room : Nat} {c : Char}

theorem Loose.readAs (h : Loose c bytes) : ReadAs c bytes := by
  cases h with
  | three b1 b2 hb1 hb2 hc =>
    refine ⟨_,_,rfl,rfl,?_,?_⟩
    · rw [isLegalUTF8,and_eq_true,and_eq_true,isContinuation_iff,isLegalSecond_iff]
      exact ⟨⟨hb2,by omega,(by omega : b1.toNat ≤ 0x9F)⟩,rfl⟩
    · rw [readUTF8Sequence]
      simp only [foldl_cons,foldl_nil,shiftLeft_eq]
      change ((0*2^6+0xED)*2^6+b1.toNat)*2^6 + b2.toNat - 0x000E2080 = _
      omega
  | four b1 b2 b3 hb1 hb2 hb3 hc =>
    refine ⟨_,_,rfl,rfl,?_,?_⟩
    · rw [isLegalUTF8,and_eq_true,and_eq_true,and_eq_true,isContinuation_iff,isContinuation_iff,
        isLegalSecond_iff]
      exact ⟨⟨⟨hb3,hb2⟩,by omega,(by omega : b1.toNat ≤ 0x8F)⟩,rfl⟩
    · rw [readUTF8Sequence]
      simp only [foldl_cons,foldl_nil,shiftLeft_eq]
      change (((0*2^6+0xF4)*2^6+b1.toNat)*2^6+b2.toNat)*2^6 + b3.toNat - 0x03C82080 = _
      omega

private theorem accepted_of_isLegalUTF8 {b0 : UInt8} {tail : List UInt8}
    (hln : inlineUTF8SequenceLength b0 = (b0::tail).length) (hl : isLegalUTF8 (b0::tail)) :
    ∃ c, Accepted c (b0::tail) := by
  have hf := (sequenceLength_eq b0).symm.trans hln
  match tail with
  | [] =>
    have hb0 : b0.toNat < 0x80 := by
      split_ifs at hf <;> first | assumption | cases hf
    obtain ⟨c,hc⟩ := exists_char (.inl (show b0.toNat < 0xD800 by omega))
    exact ⟨c,.inl (by rw [Strict,utf8EncodeChar_eq,hc,if_pos (by omega),UInt8.ofNat_toNat])⟩
  | [b1] =>
    rw [isLegalUTF8,and_eq_true,isLegalFirst_iff,isLegalSecond_iff] at hl
    have hb0 : 0xC2 ≤ b0.toNat ∧ b0.toNat < 0xE0 := by
      split_ifs at hf <;> first | omega | cases hf
    have hb1 : 0x80 ≤ b1.toNat ∧ b1.toNat ≤ 0xBF := by
      split_ifs at hl <;> omega
    obtain ⟨n,hn⟩ : ∃ n, n = b0.toNat*64 + b1.toNat - 0x3080 := ⟨_,rfl⟩
    have h0 : n/64%32 + 192 = b0.toNat := by omega
    have h1 : n%64 + 128 = b1.toNat := by omega
    obtain ⟨c,hc⟩ := exists_char (.inl (show n < 0xD800 by omega))
    refine ⟨c,.inl ?_⟩
    rw [Strict,utf8EncodeChar_eq,hc,if_neg (by omega),if_pos (by omega),h0,h1,UInt8.ofNat_toNat,UInt8.ofNat_toNat]
  | [b1, b2] =>
    rw [isLegalUTF8,and_eq_true,and_eq_true,isContinuation_iff,isLegalFirst_iff,isLegalSecond_iff] at hl
    have hb0 : 0xE0 ≤ b0.toNat ∧ b0.toNat < 0xF0 := by
      split_ifs at hf <;> first | omega | cases hf
    have hb1 : b1.toNat ≤ 0xBF ∧ (b0.toNat = 0xE0 → 0xA0 ≤ b1.toNat) ∧ (b0.toNat = 0xED → b1.toNat ≤ 0x9F) ∧
        (b0.toNat ≠ 0xED → 0x80 ≤ b1.toNat) := by
      split_ifs at hl <;> omega
    by_cases hls : b1.toNat < 0x80
    · have hb0 : b0 = 0xED := UInt8.toNat_inj.1 (show b0.toNat = 0xED by omega)
      obtain ⟨c,hc⟩ := exists_char (.inl (show 0xB000 + b1.toNat*64 + (b2.toNat-0x80) < 0xD800 by omega))
      exact ⟨c,.inr (hb0 ▸ .three c b1 b2 hls hl.1.1 hc)⟩
    · obtain ⟨n,hn⟩ : ∃ n, n = (b0.toNat*64+b1.toNat)*64 + b2.toNat - 0xE2080 := ⟨_,rfl⟩
      have h0 : n/4096%16 + 224 = b0.toNat := by omega
      have h1 : n/64%64 + 128 = b1.toNat := by omega
      have h2 : n%64 + 128 = b2.toNat := by omega
      obtain ⟨c,hc⟩ := exists_char (show n < 0xD800 ∨ 0xDFFF < n ∧ n < 0x110000 by omega)
      refine ⟨c,.inl ?_⟩
      rw [Strict,utf8EncodeChar_eq,hc,if_neg (by omega),if_neg (by omega),if_pos (by omega),h0,h1,h2,
        UInt8.ofNat_toNat,UInt8.ofNat_toNat,UInt8.ofNat_toNat]
  | [b1, b2, b3] =>
    rw [isLegalUTF8,and_eq_true,and_eq_true,and_eq_true,isContinuation_iff,isContinuation_iff,
      isLegalFirst_iff,isLegalSecond_iff] at hl
    have hb0 : 0xF0 ≤ b0.toNat ∧ b0.toNat ≤ 0xF4 := by
      split_ifs at hf <;> first | omega | cases hf
    have hb1 : b1.toNat ≤ 0xBF ∧ (b0.toNat = 0xF0 → 0x90 ≤ b1.toNat) ∧ (b0.toNat = 0xF4 → b1.toNat ≤ 0x8F) ∧
        (b0.toNat ≠ 0xF4 → 0x80 ≤ b1.toNat) := by
      split_ifs at hl <;> omega
    by_cases hls : b1.toNat < 0x80
    · have hb0 : b0 = 0xF4 := UInt8.toNat_inj.1 (show b0.toNat = 0xF4 by omega)
      obtain ⟨c,hc⟩ := exists_char (.inr (show 0xDFFF < 0x80000 + b1.toNat*4096 + (b2.toNat-0x80)*64 + (b3.toNat-0x80) ∧
        0x80000 + b1.toNat*4096 + (b2.toNat-0x80)*64 + (b3.toNat-0x80) < 0x110000 by omega))
      exact ⟨c,.inr (hb0 ▸ .four c b1 b2 b3 hls hl.1.1.2 hl.1.1.1 hc)⟩
    · obtain ⟨n,hn⟩ : ∃ n, n = ((b0.toNat*64+b1.toNat)*64+b2.toNat)*64 + b3.toNat - 0x3C82080 := ⟨_,rfl⟩
      have h0 : n/262144%8 + 240 = b0.toNat := by omega
      have h1 : n/4096%64 + 128 = b1.toNat := by omega
      have h2 : n/64%64 + 128 = b2.toNat := by omega
      have h3 : n%64 + 128 = b3.toNat := by omega
      obtain ⟨c,hc⟩ := exists_char (.inr (show 0xDFFF < n ∧ n < 0x110000 by omega))
      refine ⟨c,.inl ?_⟩
      rw [Strict,utf8EncodeChar_eq,hc,if_neg (by omega),if_neg (by omega),if_neg (by omega),h0,h1,h2,h3,
        UInt8.ofNat_toNat,UInt8.ofNat_toNat,UInt8.ofNat_toNat,UInt8.ofNat_toNat]
  | _::_::_::_::_ => cases hl

theorem Accepted.readAs (h : Accepted c bytes) : ReadAs c bytes := by
  obtain rfl | h := h
  · exact readAs_utf8EncodeChar c
  · exact h.readAs

private theorem writeCharacter_eq (c : Char) {o : List UInt8}
    {cn : Nat → ConversionResult × List UInt8 × List UInt16} (hr : (utf16EncodeChar c).length ≤ room) :
    writeCharacter true c.toNat room o cn =
      let (result, source, target) := cn (room-(utf16EncodeChar c).length)
      (result, source, utf16EncodeChar c ++ target) := by
  have hv := toNat_char c
  rw [writeCharacter]
  rw [utf16EncodeChar] at hr ⊢
  by_cases hs : c.toNat < 0x10000
  · rw [if_pos hs,length_singleton] at hr
    rw [if_neg (by omega),if_pos (by omega),if_neg (by omega),if_pos hs]
    rfl
  · have hl : (c.toNat >>> 10) + 0xD7C0 = 0xD800 + (c.toNat-0x10000)/1024 := by
      omega
    have ht : (c.toNat &&& 0x3FF) ||| 0xDC00 = 0xDC00 + (c.toNat-0x10000)%1024 := by
      rw [and_two_pow_sub_one_eq_mod c.toNat 10,or_mark 10 55 (by decide) (by omega)]
      omega
    rw [if_neg hs,length_cons,length_singleton] at hr
    rw [if_neg (by omega),if_neg (by omega),if_pos (by omega),if_neg (by omega),if_neg hs,hl,ht]
    rfl

theorem convertUTF8ToUTF16_step (h : Accepted c bytes) (f : Nat)
    (source : List UInt8) (hrm : (utf16EncodeChar c).length ≤ room) :
    convertUTF8ToUTF16 true (f+1) (bytes ++ source) room =
      let (result, source', target) := convertUTF8ToUTF16 true f source (room-(utf16EncodeChar c).length)
      (result, source', utf16EncodeChar c ++ target) := by
  obtain ⟨b0,tail,rfl,hln,hl,hr⟩ := h.readAs
  have hs : ¬ (b0 :: (tail ++ source)).length < (b0::tail).length := by
    rw [length_cons,length_cons,length_append]
    omega
  rw [cons_append,convertUTF8ToUTF16,hln,if_neg hs,← cons_append,take_left,drop_left]
  dsimp only
  rw [hl,hr]
  exact writeCharacter_eq c hrm

theorem length_utf16EncodeChar_le_of_accepted (h : Accepted c bytes) : (utf16EncodeChar c).length ≤ bytes.length := by
  obtain rfl | ⟨_,_,hb1,hb2,hc⟩ | ⟨_,_,_,_,_,_,_⟩ := h
  · exact length_utf16EncodeChar_le c
  · rw [utf16EncodeChar,if_pos (by omega)]
    exact le_add_left 1 2
  · rw [utf16EncodeChar]
    split_ifs
    · exact le_add_left 1 3
    · exact le_add_left 2 2

variable {text : List Char}

/-- With enough fuel and room, accepted sequences are converted. -/
theorem convertUTF8ToUTF16_of_sequence (h : Sequence Accepted text source)
    {f : Nat} (hf : source.length ≤ f) (hr : source.length ≤ room) :
    convertUTF8ToUTF16 true f source room = (.conversionOK, [], utf16 text) := by
  induction h generalizing f room with
  | nil => cases f <;> rfl
  | @cons c text bytes source hc _ ih =>
    obtain ⟨b0,tail,rfl,-⟩ := hc.readAs
    have hu := length_utf16EncodeChar_le_of_accepted hc
    rw [length_append] at hf hr
    obtain ⟨f,rfl⟩ : ∃ n, f = n + 1 := exists_eq_add_one.2 (by rw [length_cons] at hf; omega)
    rw [length_cons] at hf
    rw [convertUTF8ToUTF16_step hc f source (by omega),ih (by omega) (by omega),utf16_cons]

/-- What is converted is made of accepted sequences. -/
theorem sequence_of_convertUTF8ToUTF16 {f : Nat} {rs : List UInt8} {t : List UInt16}
    (hr : source.length ≤ room) (h : convertUTF8ToUTF16 true f source room = (.conversionOK, rs, t)) :
    ∃ text, Sequence Accepted text source := by
  induction f generalizing source rs room t with
  | zero =>
    cases source with
    | nil => exact ⟨[],.nil⟩
    | cons b0 source => cases h
  | succ f ih =>
    cases source with
    | nil => exact ⟨[],.nil⟩
    | cons b0 source =>
      by_cases hs : (b0::source).length < inlineUTF8SequenceLength b0
      · rw [convertUTF8ToUTF16,if_pos hs] at h
        cases h
      cases hl : isLegalUTF8 ((b0::source).take (inlineUTF8SequenceLength b0)) with
      | false =>
        rw [convertUTF8ToUTF16,if_neg hs] at h
        dsimp only at h
        rw [hl] at h
        cases h
      | true =>
        obtain ⟨tail,ht⟩ : ∃ tail, (b0::source).take (inlineUTF8SequenceLength b0) = b0::tail := by
          cases hln : inlineUTF8SequenceLength b0 with
          | zero =>
            rw [hln] at hl
            cases hl
          | succ n => exact ⟨source.take n,rfl⟩
        have hln : inlineUTF8SequenceLength b0 = (b0::tail).length := by
          rw [← ht,length_take_of_le (Nat.le_of_not_lt hs)]
        obtain ⟨c,hc⟩ := accepted_of_isLegalUTF8 hln (ht ▸ hl)
        have hu := length_utf16EncodeChar_le_of_accepted hc
        have hsr := take_append_drop (inlineUTF8SequenceLength b0) (b0::source)
        rw [ht] at hsr
        rw [← hsr] at hr h ⊢
        rw [length_append] at hr
        rw [convertUTF8ToUTF16_step hc f _ (by omega)] at h
        rcases hcn : convertUTF8ToUTF16 true f ((b0::source).drop (inlineUTF8SequenceLength b0))
          (room-(utf16EncodeChar c).length) with ⟨r,rs',t'⟩
        rw [hcn] at h
        obtain ⟨rfl,-⟩ := Prod.mk.inj h
        obtain ⟨text,htx⟩ := ih (by omega) hcn
        exact ⟨c::text,.cons hc htx⟩

theorem sequence_strict_iff : Sequence Strict text source ↔ source = utf8 text := by
  induction text generalizing source with
  | nil => exact sequence_nil_iff
  | cons c text ih => simp only [sequence_cons_iff,ih,Strict,exists_and_left,exists_eq_left,utf8_cons]

theorem sequence_ascii (h : source.all (· < 0x80)) :
    ∃ text, Sequence Strict text source ∧ utf16 text = source.map UInt8.toUInt16 := by
  induction source with
  | nil => exact ⟨[],.nil,rfl⟩
  | cons b source ih =>
    rw [all_cons,and_eq_true,decide_eq_true_iff] at h
    have hb : b.toNat < 0x80 := h.1
    obtain ⟨text,ht,hu⟩ := ih h.2
    obtain ⟨c,hc⟩ := exists_char (.inl (show b.toNat < 0xD800 by omega))
    have hs : Strict c [b] := by
      rw [Strict,utf8EncodeChar_eq,hc,if_pos (by omega),UInt8.ofNat_toNat]
    refine ⟨c::text,Sequence.cons hs ht,?_⟩
    have hun : UInt16.ofNat b.toNat = b.toUInt16 := by
      apply UInt16.toNat_inj.1
      rw [UInt16.toNat_ofNat_of_lt' (show b.toNat < 65536 by omega),toNat_toUInt16]
    rw [utf16_cons,utf16EncodeChar,hc,if_pos (by omega),hu,hun]
    rfl

/-- There is memory for a string that is read from a source. -/
def Fits (source : List UInt8) (characters : List UInt16) : Prop :=
  source.length ≤ MaxLength ∧ (source.all (· < 0x80) = true ∨ characters.length ≤ maxInternalLength)

/-- A string is made just of a source of accepted sequences. -/
theorem fromUTF8_eq_string {characters : List UInt16} : fromUTF8 source = .string characters ↔
    ∃ text, Sequence Accepted text source ∧ characters = utf16 text ∧ Fits source characters := by
  have hcn : ∀ text, Sequence Accepted text source →
      convertUTF8ToUTF16 true source.length source source.length = (.conversionOK, [], utf16 text) :=
    fun text h => convertUTF8ToUTF16_of_sequence h (Nat.le_refl _) (Nat.le_refl _)
  rw [fromUTF8]
  split_ifs with hl he ha
  · exact ⟨nofun,fun ⟨_,_,_,h,_⟩ => absurd hl (Nat.not_lt.2 h)⟩
  · obtain rfl := eq_nil_of_length_eq_zero he
    constructor
    · rintro h
      obtain rfl := FromUTF8.string.inj h
      exact ⟨[],.nil,rfl,zero_le _,.inl rfl⟩
    · rintro ⟨text,ht,rfl,-⟩
      rw [← (Prod.mk.inj (Prod.mk.inj (hcn text ht)).2).2]
  · obtain ⟨text,hs,hu⟩ := sequence_ascii ha
    have ht : Sequence Accepted text source := hs.imp_of_mem fun _ _ _ => .inl
    rw [← hu]
    constructor
    · rintro h
      obtain rfl := FromUTF8.string.inj h
      exact ⟨text,ht,rfl,Nat.not_lt.1 hl,.inl ha⟩
    · rintro ⟨text',ht',rfl,-⟩
      rw [(Prod.mk.inj (Prod.mk.inj ((hcn text ht).symm.trans (hcn text' ht'))).2).2]
  · constructor
    · intro h
      split at h
      next r t hr =>
        obtain ⟨text,ht⟩ := sequence_of_convertUTF8ToUTF16 (Nat.le_refl _) hr
        obtain ⟨-,rfl⟩ := Prod.mk.inj (Prod.mk.inj (hr.symm.trans (hcn text ht))).2
        split_ifs at h with hs
        obtain rfl := FromUTF8.string.inj h
        exact ⟨text,ht,rfl,Nat.not_lt.1 hl,.inr (Nat.not_lt.1 hs)⟩
      · cases h
    · rintro ⟨text,ht,rfl,-,hf⟩
      rw [hcn text ht]
      exact if_neg (Nat.not_lt.2 (hf.resolve_left ha))

theorem eq_nil_of_fromUTF8 (h : fromUTF8 source = .string []) : source = [] := by
  obtain ⟨text,ht,hu,-⟩ := fromUTF8_eq_string.1 h
  cases ht with
  | nil => rfl
  | @cons c text _ _ _ _ =>
    rw [utf16_cons,utf16EncodeChar] at hu
    split_ifs at hu <;> cases hu

theorem fits_utf8 (h : (utf16 text).length ≤ MaxLength/3) : Fits (utf8 text) (utf16 text) := by
  have hb : (utf8 text).length ≤ 3*(utf16 text).length := by
    clear h
    induction text with
    | nil => exact zero_le _
    | cons c text ih =>
      have hc := length_utf8EncodeChar_le c
      rw [utf8_cons,utf16_cons,length_append,length_append]
      omega
  have hm : MaxLength = 2147483647 := rfl
  refine ⟨by omega,.inr ?_⟩
  rw [maxInternalLength]
  omega

theorem tryGetUtf8_utf16 (h : (utf16 text).length ≤ MaxLength/3) : tryGetUtf8 (utf16 text) = some (utf8 text) := by
  have hcn := convertUTF16ToUTF8_utf16 false text (Nat.le_of_eq (Nat.mul_comm 3 (utf16 text).length))
  rw [tryGetUtf8]
  split_ifs with he hl
  · rw [eq_nil_of_length_eq_zero he] at hcn
    rw [← (Prod.mk.inj (Prod.mk.inj hcn).2).2]
  · omega
  · rw [lenientUTF8,hcn]

theorem tryGetUtf8_eq_none {s : List UInt16} : tryGetUtf8 s = none ↔ MaxLength/3 < s.length := by
  rw [tryGetUtf8]
  split_ifs with he hl
  · rw [he]
    exact ⟨nofun,fun h => absurd h (by decide)⟩
  · exact ⟨fun _ => hl,fun _ => rfl⟩
  · exact ⟨nofun,fun h => absurd h hl⟩

end WebKit.WTF
