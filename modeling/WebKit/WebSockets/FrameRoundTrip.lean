import WebKit.WebSockets.WebSocketFrame

/-! A WebSocket frame that has been sent is parsed back, and not before it has arrived completely. -/
namespace WebKit.WebSockets

open Base UInt64 Nat

/-- The bytes after the second one that a payload's length takes. -/
def extendedLengthSize (payloadLength : Nat) : Nat :=
  if payloadLength ≤ 125 then 0 else if payloadLength ≤ 65535 then 2 else 8

def lengthCode (payloadLength : Nat) : UInt8 :=
  if payloadLength ≤ 125 then .ofNat payloadLength else if payloadLength ≤ 65535 then 126 else 127

section
variable {n : Nat} {secondByte : UInt8}

theorem forall_byte {P : UInt8 → Prop} (h : ∀ n : Fin 256, P (.ofFin n)) (byte : UInt8) : P byte := h byte.toFin

theorem lengthCode_lt (n : Nat) : lengthCode n < 128 := by
  rw [lengthCode]
  split_ifs with hs
  · change n%256 < 128
    omega
  · decide
  · decide

theorem secondByte_bits (m : Bool) (c : UInt8) (h : c < 128) :
    ((if m then maskBit else 0) ||| c) &&& payloadLengthMask = c ∧
      (((if m then maskBit else 0) ||| c) &&& maskBit ≠ 0 ↔ m) := by
  revert c
  exact forall_byte (by revert m; decide +kernel)

private theorem firstByte_bits (f cs : Bool) (o : UInt8) (h : o < 16) :
    let firstByte := (if f then finalBit else 0) ||| (if cs then compressBit else 0) ||| o
    firstByte &&& opCodeMask = o ∧ (firstByte &&& finalBit ≠ 0 ↔ f) ∧
      (firstByte &&& compressBit ≠ 0 ↔ cs) ∧ firstByte &&& reserved2Bit = 0 ∧ firstByte &&& reserved3Bit = 0 := by
  revert o
  exact forall_byte (by revert f cs; decide +kernel)

private theorem extendedLength_toNat (hn : n < 18446744073709551616) (hl : 125 < n) :
    ((bigEndian (extendedLengthSize n) n).foldl shiftIn 0).toNat = n := by
  have hs : extendedLengthSize n ≤ 8 := by
    rw [extendedLengthSize]
    split_ifs <;> omega
  rw [foldl_shiftIn_toNat (by rwa [length_bigEndian]),ofBigEndian_bigEndian]
  rw [extendedLengthSize]
  split_ifs <;> omega

theorem length_cases (n : Nat) : (n ≤ 125 ∧ extendedLengthSize n = 0 ∧ (lengthCode n).toNat = n) ∨
      (125 < n ∧ n ≤ 65535 ∧ extendedLengthSize n = 2 ∧ lengthCode n = 126) ∨
      (65535 < n ∧ extendedLengthSize n = 8 ∧ lengthCode n = 127) := by
  rw [extendedLengthSize,lengthCode]
  split_ifs with hs hm
  · exact .inl ⟨hs,rfl,by rw [UInt8.toNat_ofNat',mod_eq_of_lt (by omega)]⟩
  · exact .inr (.inl ⟨by omega,hm,rfl,rfl⟩)
  · exact .inr (.inr ⟨by omega,rfl,rfl⟩)

theorem readPayloadLength_short (hcd : (secondByte &&& payloadLengthMask).toNat ≤ 125) (p : List UInt8) :
    readPayloadLength secondByte p = .ok ((secondByte &&& payloadLengthMask).toUInt64, p) := by
  refine if_neg ?_
  exact not_lt.2 hcd

/-- An extended length takes the given number of bytes and has a least value. -/
def readExtendedLength (size least : Nat) (p : List UInt8) : Except ParseFrameResult (UInt64 × List UInt8) :=
  if p.length < size then .error .frameIncomplete
  else if ((p.take size).foldl shiftIn 0).toNat < least then
    .error (.frameError "The minimal number of bytes MUST be used to encode the length")
  else .ok ((p.take size).foldl shiftIn 0, p.drop size)

theorem readPayloadLength_extended {size l : Nat}
    (hf : (secondByte &&& payloadLengthMask = 126 ∧ size = 2 ∧ l = 126) ∨
      (125 < (secondByte &&& payloadLengthMask).toNat ∧ secondByte &&& payloadLengthMask ≠ 126 ∧ size = 8 ∧ l = 65536))
    (p : List UInt8) :
    readPayloadLength secondByte p = readExtendedLength size l p := by
  have hl : (secondByte &&& payloadLengthMask).toUInt64 > maxPayloadLengthWithoutExtendedLengthField := by
    obtain ⟨hcd,-⟩ | ⟨hcd,-⟩ := hf
    · rw [hcd]
      decide
    · exact hcd
  have hs : (if (secondByte &&& payloadLengthMask).toUInt64 = payloadLengthWithTwoByteExtendedLengthField then 2 else 8)
      = size := by
    obtain ⟨hcd,rfl,-⟩ | ⟨-,hcd,rfl,-⟩ := hf
    · rw [hcd]
      rfl
    · refine if_neg fun h => hcd (UInt8.toNat_inj.1 ?_)
      rw [← UInt8.toNat_toUInt64,h]
      rfl
  rw [readPayloadLength,readExtendedLength]
  rw [if_pos hl,hs]
  refine if_congr Iff.rfl rfl ?_
  generalize (p.take size).foldl shiftIn 0 = length
  obtain ⟨-,rfl,rfl⟩ | ⟨-,-,rfl,rfl⟩ := hf
  · have hi : length ≤ maxPayloadLengthWithoutExtendedLengthField ↔ length.toNat < 126 := by
      exact Nat.lt_succ_iff.symm
    simp only [true_and,hi,reduceEqDiff,false_and,if_false]
  · have hi : length ≤ 0xFFFF ↔ length.toNat < 65536 := by
      exact Nat.lt_succ_iff.symm
    simp only [true_and,hi,reduceEqDiff,false_and,if_false]

private theorem readExtendedLength_bigEndian {size l : Nat} (hn : n < 18446744073709551616) (hln : 125 < n)
    (hs : extendedLengthSize n = size) (hl : l ≤ n) (rest : List UInt8) :
    readExtendedLength size l (bigEndian size n ++ rest) = .ok (.ofNat n, rest) := by
  have hv := extendedLength_toNat hn hln
  rw [hs] at hv
  have hlength : (bigEndian size n).foldl shiftIn 0 = .ofNat n := by
    rw [← UInt64.toNat_inj,hv,UInt64.toNat_ofNat',mod_eq_of_lt hn]
  rw [readExtendedLength,List.take_left' (length_bigEndian _ _),List.drop_left' (length_bigEndian _ _),List.length_append,
    length_bigEndian,if_neg (by omega),hv,if_neg (by omega),hlength]

private theorem readExtendedLength_sound {size l : Nat} {p rest : List UInt8} {length : UInt64} (hw : size ≤ 8)
    (hs : ∀ n, l ≤ n → n < 256^size → extendedLengthSize n = size)
    (h : readExtendedLength size l p = .ok (length, rest)) :
    p = bigEndian (extendedLengthSize length.toNat) length.toNat ++ rest := by
  rw [readExtendedLength] at h
  split_ifs at h with hlength hl
  cases h
  have ht : (p.take size).length = size := List.length_take_of_le (by omega)
  have hlt := ofBigEndian_lt (p.take size)
  have hb := bigEndian_ofBigEndian (p.take size)
  rw [ht] at hlt hb
  rw [foldl_shiftIn_toNat (ht.trans_le hw)] at hl ⊢
  rw [hs _ (by omega) hlt,hb,List.take_append_drop]

section
variable (hcd : secondByte &&& payloadLengthMask = lengthCode n)
include hcd

private theorem readPayloadLength_bigEndian (hn : n < 18446744073709551616) (rest : List UInt8) :
    readPayloadLength secondByte (bigEndian (extendedLengthSize n) n ++ rest) = .ok (.ofNat n, rest) := by
  obtain ⟨hs,hsz,hv⟩ | ⟨hl,hm,hsz,hv⟩ | ⟨hl,hsz,hv⟩ := length_cases n
  · rw [hsz,readPayloadLength_short (by rw [hcd,hv]; exact hs),hcd]
    congr 2
    rw [← UInt64.toNat_inj,UInt8.toNat_toUInt64,hv,UInt64.toNat_ofNat',mod_eq_of_lt hn]
  · rw [hsz,readPayloadLength_extended (.inl ⟨hcd.trans hv,rfl,rfl⟩)]
    exact readExtendedLength_bigEndian hn hl hsz hl rest
  · rw [hsz,readPayloadLength_extended (.inr ⟨by rw [hcd,hv]; decide,by rw [hcd,hv]; decide,rfl,rfl⟩)]
    exact readExtendedLength_bigEndian hn (by omega) hsz hl rest

private theorem readPayloadLength_incomplete {p : List UInt8} (hp : p.length < extendedLengthSize n) :
    readPayloadLength secondByte p = .error .frameIncomplete := by
  obtain ⟨_,hs,_⟩ | ⟨_,_,hs,hv⟩ | ⟨_,hs,hv⟩ := length_cases n
  · omega
  · rw [readPayloadLength_extended (.inl ⟨hcd.trans hv,rfl,rfl⟩)]
    exact if_pos (hs ▸ hp)
  · rw [readPayloadLength_extended (.inr ⟨by rw [hcd,hv]; decide,by rw [hcd,hv]; decide,rfl,rfl⟩)]
    exact if_pos (hs ▸ hp)

end

/-- A length that is read takes as few bytes as possible. -/
theorem readPayloadLength_sound {p rest : List UInt8} {length : UInt64}
    (h : readPayloadLength secondByte p = .ok (length, rest)) :
    p = bigEndian (extendedLengthSize length.toNat) length.toNat ++ rest := by
  obtain hs | hln := le_or_gt (secondByte &&& payloadLengthMask).toNat 125
  · rw [readPayloadLength_short hs] at h
    cases h
    rw [extendedLengthSize,if_pos (by rwa [UInt8.toNat_toUInt64])]
    rfl
  · by_cases ht : secondByte &&& payloadLengthMask = 126
    · rw [readPayloadLength_extended (.inl ⟨ht,rfl,rfl⟩)] at h
      refine readExtendedLength_sound (by omega) (fun n hl hlt => ?_) h
      rw [extendedLengthSize,if_neg (by omega),if_pos (by omega)]
    · rw [readPayloadLength_extended (.inr ⟨hln,ht,rfl,rfl⟩)] at h
      refine readExtendedLength_sound (by omega) (fun n hl hlt => ?_) h
      rw [extendedLengthSize,if_neg (by omega),if_neg (by omega)]

end

section
variable (firstByte : UInt8) {secondByte : UInt8} {p rest : List UInt8} {length : UInt64}
  (hrd : readPayloadLength secondByte p = .ok (length, rest)) (hmx : length.toNat < 9223372036854775808)

def maskingKeyLength (secondByte : UInt8) : Nat := if secondByte &&& maskBit ≠ 0 then 4 else 0

private theorem maskingKeyLength_le (secondByte : UInt8) : maskingKeyLength secondByte ≤ 4 := by
  rw [maskingKeyLength]
  split <;> omega

include hrd

theorem suffix_length : p.length = extendedLengthSize length.toNat + rest.length := by
  have := congrArg List.length (readPayloadLength_sound hrd)
  rwa [List.length_append,length_bigEndian] at this

include hmx

theorem parseFrame_of_read : parseFrame (firstByte::secondByte::p) =
      if rest.length < maskingKeyLength secondByte + length.toNat then (.frameIncomplete, firstByte::secondByte::p)
      else
        let start := 2 + extendedLengthSize length.toNat + maskingKeyLength secondByte
        let received := (rest.drop (maskingKeyLength secondByte)).take length.toNat
        let payload := if secondByte &&& maskBit ≠ 0 then applyMask (rest.take 4) received else received
        (.frameOK
          { opCode := firstByte &&& opCodeMask
            final := firstByte &&& finalBit ≠ 0
            compress := firstByte &&& compressBit ≠ 0
            reserved2 := firstByte &&& reserved2Bit ≠ 0
            reserved3 := firstByte &&& reserved3Bit ≠ 0
            masked := secondByte &&& maskBit ≠ 0
            payload } (start+length.toNat),
          (firstByte::secondByte::p).take start ++ payload ++
            (firstByte::secondByte::p).drop (start+length.toNat)) := by
  have hky : (if secondByte &&& maskBit ≠ 0 then ofNat maskingKeyWidthInBytes else 0).toNat =
      maskingKeyLength secondByte := by
    rw [maskingKeyLength]
    split <;> rfl
  have hk := maskingKeyLength_le secondByte
  have hsm : ((if secondByte &&& maskBit ≠ 0 then ofNat maskingKeyWidthInBytes else 0) + length).toNat =
      maskingKeyLength secondByte + length.toNat := by
    rw [UInt64.toNat_add,hky,mod_eq_of_lt (by omega)]
  have hs : ¬ (length > maxPayloadLength ∨
      length + (if secondByte &&& maskBit ≠ 0 then ofNat maskingKeyWidthInBytes else 0) > 0xFFFFFFFFFFFFFFFF) := by
    rintro (h | h)
    · have : (9223372036854775807 : Nat) < length.toNat := lt_iff_toNat_lt.1 h
      omega
    · have : (18446744073709551615 : Nat) < _ := lt_iff_toNat_lt.1 h
      have := toNat_lt (length + if secondByte &&& maskBit ≠ 0 then ofNat maskingKeyWidthInBytes else 0)
      omega
  have hst : (firstByte::secondByte::p).length - rest.length = 2 + extendedLengthSize length.toNat := by
    have := suffix_length hrd
    simp only [List.length_cons]
    omega
  have hdr : (firstByte::secondByte::p).drop (2+extendedLengthSize length.toNat+maskingKeyLength secondByte) =
      rest.drop (maskingKeyLength secondByte) := by
    rw [readPayloadLength_sound hrd,← List.drop_drop,add_comm 2,List.drop_succ_cons,List.drop_succ_cons,
      List.drop_left' (length_bigEndian _ _)]
  simp only [parseFrame,hrd]
  rw [if_neg hs,hsm,hky,hst,hdr]
  rfl

end

private theorem applyMask_applyMask (maskingKey payload : List UInt8) :
    applyMask maskingKey (applyMask maskingKey payload) = payload := by
  rw [applyMask,applyMask,List.mapIdx_mapIdx]
  refine List.ext_getElem (by simp) fun i _ _ => ?_
  rw [List.getElem_mapIdx]
  exact (UInt8.xor_assoc _ _ _).trans (by rw [UInt8.xor_self,UInt8.xor_zero])

theorem length_applyMask (maskingKey payload : List UInt8) : (applyMask maskingKey payload).length = payload.length :=
  List.length_mapIdx

namespace WebSocketFrame
variable (frame : WebSocketFrame) (maskingKey : Vector UInt8 4)

def firstByte : UInt8 :=
  (if frame.final then finalBit else 0) ||| (if frame.compress then compressBit else 0) ||| frame.opCode

def secondByte : UInt8 := (if frame.masked then maskBit else 0) ||| lengthCode frame.payload.length

/-- The masking key, if there is one, and the payload as it is sent. -/
def body : List UInt8 :=
  if frame.masked then maskingKey.toList ++ applyMask maskingKey.toList frame.payload else frame.payload

theorem maskBit_secondByte : frame.secondByte &&& maskBit ≠ 0 ↔ frame.masked :=
  (secondByte_bits frame.masked _ (lengthCode_lt _)).2

theorem lengthCode_secondByte : frame.secondByte &&& payloadLengthMask = lengthCode frame.payload.length :=
  (secondByte_bits frame.masked _ (lengthCode_lt _)).1

theorem maskingKeyLength_secondByte : maskingKeyLength frame.secondByte = if frame.masked then 4 else 0 := by
  exact if_congr frame.maskBit_secondByte rfl rfl

theorem length_body : (frame.body maskingKey).length = maskingKeyLength frame.secondByte + frame.payload.length := by
  rw [body,maskingKeyLength_secondByte]
  split
  · rw [List.length_append,length_applyMask,Vector.length_toList]
  · rw [zero_add]

variable {frame maskingKey} (hlength : frame.payload.length < 9223372036854775808)
include hlength

theorem makeFrameData_eq : makeFrameData frame maskingKey = frame.firstByte :: frame.secondByte ::
      (bigEndian (extendedLengthSize frame.payload.length) frame.payload.length ++ frame.body maskingKey) := by
  have hv : (ofNat frame.payload.length).toNat = frame.payload.length := by
    rw [toNat_ofNat',mod_eq_of_lt (by omega)]
  have ha (he : List UInt8) : appendFramePayload frame maskingKey he = he ++ frame.body maskingKey := by
    rw [appendFramePayload,body]
    split
    · rw [List.append_assoc]
    · rfl
  have hs : ofNat frame.payload.length ≤ maxPayloadLengthWithoutExtendedLengthField ↔ frame.payload.length ≤ 125 := by
    rw [le_iff_toNat_le,hv]
    rfl
  have hm : ofNat frame.payload.length ≤ 0xFFFF ↔ frame.payload.length ≤ 65535 := by
    rw [le_iff_toNat_le,hv]
    rfl
  have hl : (ofNat frame.payload.length &&& 0xFF).toUInt8 = .ofNat frame.payload.length := by
    rw [← UInt8.toNat_inj,UInt64.toNat_toUInt8,UInt64.toNat_and,hv,UInt8.toNat_ofNat']
    exact (congrArg (· % 256) (and_two_pow_sub_one_eq_mod _ 8)).trans (mod_mod _ _)
  have hh : ((ofNat frame.payload.length &&& 0xFF00) >>> 8).toUInt8 = .ofNat (frame.payload.length/256) := by
    rw [← UInt8.toNat_inj,UInt64.toNat_toUInt8,UInt64.toNat_shiftRight,UInt64.toNat_and,hv,UInt8.toNat_ofNat']
    rw [shiftRight_and_distrib,shiftRight_eq_div_pow]
    exact (congrArg (· % 256) (and_two_pow_sub_one_eq_mod _ 8)).trans (mod_mod _ _)
  simp only [makeFrameData,ha,hs,hm]
  rw [extendedLengthSize,secondByte,lengthCode]
  by_cases hle : frame.payload.length ≤ 125
  · have hb : (ofNat frame.payload.length).toUInt8 = .ofNat frame.payload.length := by
      rw [← UInt8.toNat_inj,toNat_toUInt8,hv,UInt8.toNat_ofNat']
    simp only [if_pos hle,hb]
    rfl
  · by_cases hle' : frame.payload.length ≤ 65535
    · simp only [if_neg hle,if_pos hle',hl,hh]
      rfl
    · simp only [if_neg hle,if_neg hle',shiftOut_eq,hv,List.append_nil]
      rfl

theorem readPayloadLength_frame (rest : List UInt8) : readPayloadLength frame.secondByte
        (bigEndian (extendedLengthSize frame.payload.length) frame.payload.length ++ rest) =
      .ok (.ofNat frame.payload.length, rest) :=
  readPayloadLength_bigEndian frame.lengthCode_secondByte (by omega) rest

theorem length_toNat : (ofNat frame.payload.length).toNat = frame.payload.length := by
  rw [toNat_ofNat',mod_eq_of_lt (by omega)]

omit hlength in
private theorem body_payload (s : List UInt8) : (if frame.secondByte &&& maskBit ≠ 0 then
        applyMask ((frame.body maskingKey ++ s).take 4)
          (((frame.body maskingKey ++ s).drop (maskingKeyLength frame.secondByte)).take frame.payload.length)
      else ((frame.body maskingKey ++ s).drop (maskingKeyLength frame.secondByte)).take frame.payload.length) =
      frame.payload := by
  rw [maskingKeyLength_secondByte,body]
  by_cases hm : frame.masked
  · rw [if_pos (frame.maskBit_secondByte.2 hm),if_pos hm,if_pos hm,List.append_assoc,
      List.take_left' (by simp),List.drop_left' (by simp),List.take_left' (length_applyMask _ _),applyMask_applyMask]
  · rw [if_neg (mt frame.maskBit_secondByte.1 hm),if_neg hm,if_neg hm,List.drop_zero,List.take_left]

private theorem parseFrame_append (ho : frame.opCode < 16) (s : List UInt8) :
    parseFrame (makeFrameData frame maskingKey ++ s) =
      (.frameOK { frame with reserved2 := false, reserved3 := false } (makeFrameData frame maskingKey).length,
        (makeFrameData frame maskingKey).take ((makeFrameData frame maskingKey).length-frame.payload.length) ++
          frame.payload ++ s) := by
  have hbd := length_body frame maskingKey
  have hm := @makeFrameData_eq frame maskingKey hlength
  have hv := length_toNat hlength
  have hrd := readPayloadLength_frame hlength (frame.body maskingKey ++ s)
  obtain ⟨hop,hf,hc,hr2,hr3⟩ := firstByte_bits frame.final frame.compress frame.opCode ho
  have hp := parseFrame_of_read frame.firstByte hrd (by rwa [hv])
  have hs : (makeFrameData frame maskingKey).length =
      2 + extendedLengthSize frame.payload.length + maskingKeyLength frame.secondByte + frame.payload.length := by
    rw [hm]
    simp only [List.length_cons,List.length_append,length_bigEndian,hbd]
    omega
  have hb : makeFrameData frame maskingKey ++ s = frame.firstByte :: frame.secondByte ::
      (bigEndian (extendedLengthSize frame.payload.length) frame.payload.length ++ (frame.body maskingKey ++ s)) := by
    rw [hm,List.cons_append,List.cons_append,List.append_assoc]
  rw [hv,if_neg (by rw [List.length_append,hbd]; omega)] at hp
  dsimp only at hp
  rw [body_payload,← hb,← hs,List.drop_left,List.take_append_of_le_length (by omega)] at hp
  rw [hp,hs,Nat.add_sub_cancel]
  rw [firstByte]
  simp only [hop,hf,hc,hr2,hr3,frame.maskBit_secondByte,Bool.decide_eq_true,ne_eq,not_true,
    decide_false]

private theorem parseFrame_front {f : List UInt8} (hf : f <+: makeFrameData frame maskingKey)
    (hn : f ≠ makeFrameData frame maskingKey) : parseFrame f = (.frameIncomplete, f) := by
  have hb := length_body frame maskingKey
  have hl : f.length < (makeFrameData frame maskingKey).length :=
    lt_of_le_of_ne hf.length_le fun h => hn (hf.eq_of_length h)
  rw [makeFrameData_eq hlength] at hf hl
  match f with
  | [] => rfl
  | [_] => rfl
  | byte1::byte2::q =>
    obtain ⟨rfl,hf'⟩ := List.cons_prefix_cons.1 hf
    obtain ⟨rfl,hlf⟩ := List.cons_prefix_cons.1 hf'
    simp only [List.length_cons,List.length_append,length_bigEndian,hb] at hl
    by_cases he : q.length < extendedLengthSize frame.payload.length
    · simp only [parseFrame,readPayloadLength_incomplete frame.lengthCode_secondByte he]
    · obtain ⟨rest,rfl⟩ := List.prefix_of_prefix_length_le (List.prefix_append _ _) hlf (by rw [length_bigEndian]; omega)
      simp only [List.length_append,length_bigEndian] at hl
      rw [parseFrame_of_read frame.firstByte (readPayloadLength_frame hlength rest) (by rwa [length_toNat hlength]),
        length_toNat hlength,if_pos (by omega)]

end WebSocketFrame

variable {secondByte : UInt8}

theorem readPayloadLength_error {p : List UInt8} {r : ParseFrameResult}
    (h : readPayloadLength secondByte p = .error r) (frame : WebSocketFrame) (frameEnd : Nat) :
    r ≠ .frameOK frame frameEnd := by
  simp only [readPayloadLength] at h
  split_ifs at h <;> (rw [← Except.error.inj h]; exact nofun)

variable {frame : WebSocketFrame}

private theorem length_le_of_parseFrame {firstByte : UInt8} {p rest : List UInt8} {length : UInt64}
    (hrd : readPayloadLength secondByte p = .ok (length, rest)) {f : Nat} {b : List UInt8}
    (h : parseFrame (firstByte::secondByte::p) = (.frameOK frame f, b)) :
    length.toNat < 9223372036854775808 := by
  by_contra hl
  have hl : length > maxPayloadLength := lt_iff_toNat_lt.2 (not_lt.1 hl)
  simp only [parseFrame,hrd] at h
  rw [if_pos (.inl hl)] at h
  cases h

theorem parseFrame_ok_length {d : List UInt8} {f : Nat} {b : List UInt8}
    (h : parseFrame d = (.frameOK frame f, b)) :
    f = 2 + extendedLengthSize frame.payload.length + (if frame.masked then 4 else 0) + frame.payload.length := by
  match d with
  | [] => cases h
  | [_] => cases h
  | firstByte::secondByte::p =>
    cases hrd : readPayloadLength secondByte p with
    | error r =>
      simp only [parseFrame,hrd] at h
      exact absurd (Prod.mk.inj h).1 (readPayloadLength_error hrd frame f)
    | ok read =>
      obtain ⟨length,rest⟩ := read
      rw [parseFrame_of_read firstByte hrd (length_le_of_parseFrame hrd h)] at h
      by_cases hi : rest.length < maskingKeyLength secondByte + length.toNat
      · rw [if_pos hi] at h
        cases h
      rw [if_neg hi] at h
      obtain ⟨ho,-⟩ := Prod.mk.inj h
      obtain ⟨rfl,rfl⟩ := ParseFrameResult.frameOK.inj ho
      have hr : ((rest.drop (maskingKeyLength secondByte)).take length.toNat).length = length.toNat := by
        rw [List.length_take,List.length_drop]
        omega
      have hp : (if secondByte &&& maskBit ≠ 0 then
          applyMask (rest.take 4) ((rest.drop (maskingKeyLength secondByte)).take length.toNat)
          else (rest.drop (maskingKeyLength secondByte)).take length.toNat).length = length.toNat := by
        split
        · rw [length_applyMask,hr]
        · exact hr
      rw [hp,maskingKeyLength]
      simp only [decide_eq_true_eq]

/-- A frame is parsed back with its reserved bits clear, whatever follows it, and not before all of it is there. The length of
a frame that is accepted takes no more bytes than it must. -/
theorem parseFrame_makeFrameData (frame : WebSocketFrame) (maskingKey : Vector UInt8 4) (hopCode : frame.opCode < 16)
    (hlength : frame.payload.length < 9223372036854775808) :
    (∀ suffix, parseFrame (makeFrameData frame maskingKey ++ suffix) =
      (.frameOK { frame with reserved2 := false, reserved3 := false } (makeFrameData frame maskingKey).length,
        (makeFrameData frame maskingKey).take ((makeFrameData frame maskingKey).length-frame.payload.length) ++
          frame.payload ++ suffix)) ∧
    (∀ front, front <+: makeFrameData frame maskingKey → front ≠ makeFrameData frame maskingKey →
      parseFrame front = (.frameIncomplete, front)) ∧
    ∀ data frame' frameEnd buffer, parseFrame data = (.frameOK frame' frameEnd, buffer) →
      frameEnd = 2 + extendedLengthSize frame'.payload.length + (if frame'.masked then 4 else 0) + frame'.payload.length :=
  ⟨frame.parseFrame_append hlength hopCode,fun _ => WebSocketFrame.parseFrame_front hlength,
    fun _ _ _ _ => parseFrame_ok_length⟩

/-- A reserved bit is lost. -/
theorem makeFrameData_drops_reserved :
    parseFrame (makeFrameData ⟨1,true,false,true,false,false,[104, 105]⟩ ⟨#[0, 0, 0, 0],rfl⟩) =
      (.frameOK ⟨1,true,false,false,false,false,[104, 105]⟩ 4, [0x81, 2, 104, 105]) := by
  decide

theorem parseFrame_makeFrameData_text :
    parseFrame (makeFrameData ⟨1,true,false,false,false,true,[104, 105]⟩ ⟨#[1, 2, 3, 4],rfl⟩ ++ [0x81]) =
      (.frameOK ⟨1,true,false,false,false,true,[104, 105]⟩ 8, [0x81, 0x82, 1, 2, 3, 4, 104, 105, 0x81]) :=
  (parseFrame_makeFrameData ⟨1,true,false,false,false,true,[104, 105]⟩ ⟨#[1, 2, 3, 4],rfl⟩ (by decide) (by decide)).1 _

end WebKit.WebSockets
