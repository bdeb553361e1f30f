import WebKit.WebAuthn.CBORCodec

/-! The first bytes of an item are read just as they are written. -/
namespace WebKit.WebAuthn

open Base List UInt8

def additionalInformation (value : UInt64) : UInt8 :=
  match getNumUintBytes value with
  | 0 => value.toUInt8
  | 1 => kAdditionalInformation1Byte
  | 2 => kAdditionalInformation2Bytes
  | 4 => kAdditionalInformation4Bytes
  | _ => kAdditionalInformation8Bytes

theorem getNumUintBytes_cases (value : UInt64) :
    getNumUintBytes value = 0 ∧ value.toNat < 24 ∨ getNumUintBytes value = 1 ∧ 24 ≤ value.toNat ∧ value.toNat < 256^1 ∨
      getNumUintBytes value = 2 ∧ 256^1 ≤ value.toNat ∧ value.toNat < 256^2 ∨
      getNumUintBytes value = 4 ∧ 256^2 ≤ value.toNat ∧ value.toNat < 256^4 ∨
      getNumUintBytes value = 8 ∧ 256^4 ≤ value.toNat ∧ value.toNat < 256^8 := by
  have hl := value.toNat_lt
  simp only [getNumUintBytes,UInt64.lt_iff_toNat_lt,UInt64.le_iff_toNat_le,UInt64.reduceToNat]
  split_ifs <;> omega

theorem startItem_eq (type : ValueType) (size : UInt64) :
    startItem type size = setAdditionalInformation (ofInt type.toInt <<< kMajorTypeBitShift) (additionalInformation size) ::
      bigEndian (getNumUintBytes size) size.toNat := by
  rw [startItem,setUint,additionalInformation]
  obtain ⟨h,-⟩ | ⟨h,-⟩ | ⟨h,-⟩ | ⟨h,-⟩ | ⟨h,-⟩ := getNumUintBytes_cases size
  all_goals rw [h]
  · rfl
  all_goals exact congrArg _ (shiftDown_eq size (by decide))

variable {rest : List UInt8} {type : ValueType} {it : List UInt8} {value : UInt64}

private theorem readAdditionalBytes_eq_ok {more : Nat} (hb : more ≤ 8) : readAdditionalBytes more it = .ok (value, rest) ↔
      value.toNat < 256^more ∧ checkMinimalEncoding more value ∧ it = bigEndian more value.toNat ++ rest := by
  rw [readAdditionalBytes]
  constructor
  · intro h
    split_ifs at h with hs
    have hl : (it.take more).length = more := length_take_of_le (by omega)
    dsimp only at h
    split_ifs at h with hm
    cases h
    have hv := foldl_shiftIn_toNat (show (it.take more).length ≤ 8 by omega)
    have hlt := ofBigEndian_lt (it.take more)
    have hw := bigEndian_ofBigEndian (it.take more)
    rw [hl] at hlt hw
    rw [hv,hw,take_append_drop]
    exact ⟨hlt,hm,rfl⟩
  · rintro ⟨hlt,hm,rfl⟩
    have hl := length_bigEndian more value.toNat
    have hv : (bigEndian more value.toNat).foldl shiftIn 0 = value := by
      apply UInt64.toNat_inj.1
      rw [foldl_shiftIn_toNat (by omega),ofBigEndian_bigEndian hlt]
    rw [if_neg (by rw [length_append]; omega),take_left' hl,drop_left' hl,hv,if_pos hm]

section
variable {more : Nat} {value : UInt64}

/-- A number that is read with more bytes would not fit into fewer. -/
theorem checkMinimalEncoding_iff (h : more ∈ [1, 2, 4, 8]) : checkMinimalEncoding more value ↔
    (if more = 1 then 24 else 256^(more/2)) ≤ value.toNat := by
  have hl : (((1 : UInt64) <<< UInt64.ofNat (8*(more >>> 1))) - 1).toNat + 1 = 256^(more/2) := by
    simp only [mem_cons,not_mem_nil,or_false] at h
    obtain rfl | rfl | rfl | rfl := h <;> rfl
  rw [checkMinimalEncoding,Bool.not_eq_true',Bool.or_eq_false_iff,Bool.and_eq_false_iff,beq_eq_false_iff_ne,
    decide_eq_false_iff_not,decide_eq_false_iff_not,UInt64.lt_iff_toNat_lt,UInt64.le_iff_toNat_le,← hl]
  split_ifs with ho
  · rw [ho] at hl ⊢
    simp only [UInt64.reduceToNat]
    omega
  · omega

private theorem readMinimal_eq_ok {it rest : List UInt8} (h : more ∈ [1, 2, 4, 8]) :
    readAdditionalBytes more it = .ok (value, rest) ↔
      getNumUintBytes value = more ∧ it = bigEndian more value.toNat ++ rest := by
  have hc := getNumUintBytes_cases value
  have hl : ∀ n ∈ [1, 2, 4, 8], n ≤ 8 := by decide
  rw [readAdditionalBytes_eq_ok (hl _ h),checkMinimalEncoding_iff h,← and_assoc]
  apply and_congr_left'
  simp only [mem_cons,not_mem_nil,or_false] at h
  obtain rfl | rfl | rfl | rfl := h
  · rw [if_pos rfl]
    omega
  all_goals rw [if_neg (by decide)]
  all_goals omega

end

variable {additionalInfo : UInt8}

theorem readVariadicLengthInteger_eq_ok : readVariadicLengthInteger additionalInfo it = .ok (value, rest) ↔
      additionalInfo = additionalInformation value ∧ it = bigEndian (getNumUintBytes value) value.toNat ++ rest := by
  have hc := getNumUintBytes_cases value
  constructor
  · intro h
    rw [additionalInformation]
    rw [readVariadicLengthInteger] at h
    split_ifs at h with hdr h1 h2 h4 h8
    · cases h
      have hl : additionalInfo.toNat < 24 := hdr
      rw [toNat_toUInt64] at hc
      have hb : getNumUintBytes additionalInfo.toUInt64 = 0 := by omega
      rw [hb]
      exact ⟨(toUInt8_toUInt64 additionalInfo).symm,rfl⟩
    all_goals
      obtain ⟨hb,rfl⟩ := (readMinimal_eq_ok (by decide)).1 h
      rw [hb]
      exact ⟨by assumption,rfl⟩
  · rintro ⟨rfl,rfl⟩
    have hm {more : Nat} {i : UInt8} (hb : getNumUintBytes value = more) (hmm : more ∈ [1, 2, 4, 8])
        (hi : additionalInformation value = i)
        (hr : ∀ it, readVariadicLengthInteger i it = readAdditionalBytes more it) :
        readVariadicLengthInteger (additionalInformation value) (bigEndian (getNumUintBytes value) value.toNat ++ rest) =
          .ok (value, rest) := by
      rw [hi,hr,hb]
      exact (readMinimal_eq_ok hmm).2 ⟨hb,rfl⟩
    obtain ⟨hb,hl⟩ | ⟨hb,-⟩ | ⟨hb,-⟩ | ⟨hb,-⟩ | ⟨hb,-⟩ := hc
    · have hi : additionalInformation value = value.toUInt8 := by rw [additionalInformation,hb]; rfl
      have hby : value.toUInt8.toNat = value.toNat := by
        rw [UInt64.toNat_toUInt8]
        omega
      have hdr : value.toUInt8 < 24 := by
        rw [lt_iff_toNat_lt,hby]
        exact hl
      have hv : value.toUInt8.toUInt64 = value := by
        apply UInt64.toNat_inj.1
        rw [toNat_toUInt64,hby]
      rw [hi,hb,readVariadicLengthInteger,if_pos hdr,hv]
      rfl
    all_goals exact hm hb (by decide) (by rw [additionalInformation,hb]) fun _ => rfl

variable {initialByte : UInt8}

private theorem initialByte_iff (ht : type ≠ .none) (hi : additionalInfo.toNat < 32) :
    getMajorType initialByte = some type ∧ getAdditionalInfo initialByte = additionalInfo ↔
      initialByte = setAdditionalInformation (ofInt type.toInt <<< kMajorTypeBitShift) additionalInfo := by
  have hr : ∀ b : Fin 256, getMajorType (.ofFin b) = some type →
      ofFin b = setAdditionalInformation (ofInt type.toInt <<< kMajorTypeBitShift)
        (getAdditionalInfo (.ofFin b)) := by
    cases type <;> decide +kernel
  have hw : ∀ info : Fin 32, getMajorType (setAdditionalInformation (ofInt type.toInt <<< kMajorTypeBitShift)
        (.ofNat info)) = some type ∧
      getAdditionalInfo (setAdditionalInformation (ofInt type.toInt <<< kMajorTypeBitShift) (.ofNat info)) =
        .ofNat info := by
    cases type <;> first | exact absurd rfl ht | decide +kernel
  constructor
  · rintro ⟨hm,rfl⟩
    exact hr initialByte.toFin hm
  · rintro rfl
    have h := hw ⟨additionalInfo.toNat,hi⟩
    rwa [UInt8.ofNat_toNat] at h

theorem additionalInformation_lt (value : UInt64) : (additionalInformation value).toNat < 32 := by
  have hc := getNumUintBytes_cases value
  rw [additionalInformation]
  obtain ⟨hb,hl⟩ | ⟨hb,-⟩ | ⟨hb,-⟩ | ⟨hb,-⟩ | ⟨hb,-⟩ := hc
  all_goals rw [hb]
  · change value.toUInt8.toNat < 32
    rw [UInt64.toNat_toUInt8]
    omega
  all_goals exact of_decide_eq_true rfl

section
variable (ht : type ≠ .none)
include ht

/-- The type and the number that are read are those that are written. -/
theorem header_iff :
    getMajorType initialByte = some type ∧ readVariadicLengthInteger (getAdditionalInfo initialByte) it = .ok (value, rest) ↔
      initialByte :: it = startItem type value ++ rest := by
  rw [startItem_eq,cons_append,List.cons.injEq,← initialByte_iff ht (additionalInformation_lt value),
    readVariadicLengthInteger_eq_ok,and_assoc]

theorem startItem_inj {type' : ValueType} (ht' : type' ≠ .none) {m n : UInt64}
    {rest' : List UInt8} (h : startItem type m ++ rest = startItem type' n ++ rest') : type = type' ∧ m = n ∧ rest = rest' := by
  rw [startItem_eq,cons_append] at h
  obtain ⟨hm,hv⟩ := (header_iff ht').2 h
  obtain ⟨hm',hv'⟩ := (header_iff ht).2 (cons_append.symm.trans (by rw [← startItem_eq]))
  obtain ⟨rfl,rfl⟩ := Prod.mk.inj (Except.ok.inj (hv'.symm.trans hv))
  exact ⟨Option.some.inj (hm'.symm.trans hm),rfl,rfl⟩

theorem initialByte_toNat {info : UInt8} (hi : info.toNat < 32) :
    ((setAdditionalInformation (ofInt type.toInt <<< kMajorTypeBitShift) info).toNat : Int) =
      type.toInt*32 + info.toNat := by
  have h : ∀ info : Fin 32, ((setAdditionalInformation (ofInt type.toInt <<< kMajorTypeBitShift) (.ofNat info)).toNat : Int) =
      type.toInt*32 + info := by
    cases type <;> first | exact absurd rfl ht | decide +kernel
  have hb := h ⟨info.toNat,hi⟩
  rwa [UInt8.ofNat_toNat] at hb

theorem head_startItem (size : UInt64) (rest : List UInt8) :
    ((startItem type size ++ rest).headD 0).toNat/32 = type.toInt := by
  have hl := additionalInformation_lt size
  rw [startItem_eq,cons_append,headD_cons,initialByte_toNat ht hl]
  omega

end

theorem length_startItem (type : ValueType) (size : UInt64) : (startItem type size).length = getNumUintBytes size + 1 := by
  rw [startItem_eq,length_cons,length_bigEndian]

theorem getNumUintBytes_mono {m n : UInt64} (h : m.toNat ≤ n.toNat) : getNumUintBytes m ≤ getNumUintBytes n := by
  have hm := getNumUintBytes_cases m
  have hn := getNumUintBytes_cases n
  omega

/-- A smaller number has a shorter encoding, or one that comes before. -/
theorem startItem_lt (ht : type ≠ .none) {m n : UInt64} (h : m.toNat < n.toNat) :
    (startItem type m).length < (startItem type n).length ∨
      (startItem type m).length = (startItem type n).length ∧ startItem type m < startItem type n := by
  rw [length_startItem,length_startItem]
  obtain hl | he := Nat.lt_or_eq_of_le (getNumUintBytes_mono (Nat.le_of_lt h))
  · exact .inl (by omega)
  refine .inr ⟨by omega,?_⟩
  have hm := getNumUintBytes_cases m
  have hn := getNumUintBytes_cases n
  rw [startItem_eq,startItem_eq,cons_lt_cons_iff]
  by_cases hz : getNumUintBytes m = 0
  · have hi : ∀ {k : UInt64}, getNumUintBytes k = 0 → k.toNat < 24 → (additionalInformation k).toNat = k.toNat := by
      intro k hk hl
      rw [additionalInformation,hk]
      change k.toUInt8.toNat = _
      rw [UInt64.toNat_toUInt8]
      omega
    have hby := initialByte_toNat ht (additionalInformation_lt m)
    have hby' := initialByte_toNat ht (additionalInformation_lt n)
    rw [hi hz (by omega)] at hby
    rw [hi (by omega) (by omega)] at hby'
    refine .inl ?_
    rw [lt_iff_toNat_lt]
    omega
  · have hb : m.toNat < 256^getNumUintBytes m ∧ n.toNat < 256^getNumUintBytes m := by
      obtain ⟨_,_⟩ | ⟨hk,_⟩ | ⟨hk,_⟩ | ⟨hk,_⟩ | ⟨hk,_⟩ := hm
      · omega
      all_goals rw [hk]; omega
    refine .inr ⟨?_,?_⟩
    · rw [additionalInformation,additionalInformation,he]
      split
      · omega
      all_goals rfl
    · rw [← he]
      apply bigEndian_lt
      rwa [Nat.mod_eq_of_lt hb.1,Nat.mod_eq_of_lt hb.2]

end WebKit.WebAuthn
