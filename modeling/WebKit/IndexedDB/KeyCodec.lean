import WebKit.IndexedDB.KeySerialization

/-! Serialized IndexedDB keys are read back, and nothing else is accepted. -/
namespace WebKit.IndexedDB

open Base List SIDBKeyType

mutual

/-- Strings, buffers and arrays have sizes that they can have. -/
def IDBKeyData.Valid (sizeOfKey : Nat) : IDBKeyData → Prop
  | .min => True
  | .max => True
  | .number _ => True
  | .date _ => True
  | .string value => value.length ≤ 2147483647
  | .binary value => value.length ≤ 4294967295
  | .array value => value.length ≤ maximumVectorSize/sizeOfKey ∧ AllValid sizeOfKey value

def AllValid (sizeOfKey : Nat) : List IDBKeyData → Prop
  | [] => True
  | key::keys => key.Valid sizeOfKey ∧ AllValid sizeOfKey keys

end

/-- Data that asks for a vector of an impossible size: a string whose size in bytes wraps around, a buffer or array that is too
large, or such data after the first elements of an array. -/
inductive Oversized (sizeOfKey : Nat) : List UInt8 → Prop where
  | string (length : Nat) (rest : List UInt8) (hlength : length < 4294967296) (hlarge : 2147483647 < length)
    (hrest : length*2%4294967296 ≤ rest.length) : Oversized sizeOfKey (string :: (writeLittleEndian 4 length ++ rest))
  | binary (size : Nat) (rest : List UInt8) (hsize : size < 18446744073709551616) (hlarge : 4294967295 < size)
    (hrest : size ≤ rest.length) : Oversized sizeOfKey (binary :: (writeLittleEndian 8 size ++ rest))
  | array (size : Nat) (rest : List UInt8) (hsize : size < 18446744073709551616) (hlarge : maximumVectorSize/sizeOfKey < size) :
    Oversized sizeOfKey (array :: (writeLittleEndian 8 size ++ rest))
  | element (size : Nat) (keys : List IDBKeyData) (rest : List UInt8) (hsize : size < 18446744073709551616)
    (hfits : size ≤ maximumVectorSize/sizeOfKey) (hkeys : keys.length < size) (hvalid : AllValid sizeOfKey keys)
    (hrest : Oversized sizeOfKey rest) :
    Oversized sizeOfKey (array :: (writeLittleEndian 8 size ++ (encodeKeys keys ++ rest)))

section
variable {width n : Nat} {data rest : List UInt8}

theorem read_eq_ok : read width data = .ok (n, rest) ↔ n < 256^width ∧ data = writeLittleEndian width n ++ rest := by
  constructor
  · intro h
    rw [read] at h
    split at h
    next r hr =>
      rw [Except.ok.inj h] at hr
      exact (readLittleEndian_eq_some hr).symm
    · cases h
  · rintro ⟨hn,rfl⟩
    rw [read,readLittleEndian_write hn]

section
variable {β : Type} {f : Nat × List UInt8 → Except DecodeFailure β}

theorem read_bind_eq_ok {b : β} : read width data >>= f = .ok b ↔
    ∃ n rest, n < 256^width ∧ data = writeLittleEndian width n ++ rest ∧ f (n, rest) = .ok b := by
  rw [bind_eq_ok,Prod.exists]
  simp only [read_eq_ok,and_assoc]

theorem read_bind_eq_crash : read width data >>= f = .error .crash ↔
    ∃ n rest, n < 256^width ∧ data = writeLittleEndian width n ++ rest ∧ f (n, rest) = .error .crash := by
  have hr : read width data ≠ .error .crash := by
    rw [read]
    split <;> exact nofun
  rw [bind_eq_error,or_iff_right hr,Prod.exists]
  simp only [read_eq_ok,and_assoc]

end

theorem read_ofNat_eq_ok {α : Type} {o : Nat → α} {t : α → Nat} {a : α} (hl : ∀ a, t a < 256^width)
    (ho : ∀ a, o (t a) = a) (ht : ∀ n, n < 256^width → t (o n) = n) :
    (do
      let (value, data) ← read width data
      return (o value, data)) = .ok (a, rest) ↔ data = writeLittleEndian width (t a) ++ rest := by
  simp only [bind_make_eq_ok,read_eq_ok]
  constructor
  · rintro ⟨n,⟨hn,rfl⟩,rfl⟩
    rw [ht n hn]
  · rintro rfl
    exact ⟨t a,⟨hl a,rfl⟩,(ho a).symm⟩

theorem readDouble_eq_ok {v : UInt64} :
    readDouble data = .ok (v, rest) ↔ data = writeLittleEndian 8 v.toNat ++ rest :=
  read_ofNat_eq_ok UInt64.toNat_lt (fun _ => UInt64.ofNat_toNat) fun _ h => UInt64.toNat_ofNat_of_lt' h

theorem readUnit_decodes {bound : Nat} :
    Decodes readUnit (fun unit => writeLittleEndian 2 unit.toNat) (fun _ => True) bound := by
  intro data unit rest _
  rw [true_and]
  exact read_ofNat_eq_ok UInt16.toNat_lt (fun _ => UInt16.ofNat_toNat) fun _ h => UInt16.toNat_ofNat_of_lt' h

theorem readDouble_ne_crash : readDouble data ≠ .error .crash := by
  intro h
  obtain ⟨_,_,_,_,h⟩ := read_bind_eq_crash.1 h
  cases h

theorem readUnit_ne_crash : readUnit data ≠ .error .crash := by
  intro h
  obtain ⟨_,_,_,_,h⟩ := read_bind_eq_crash.1 h
  cases h

end

section
variable {β : Type} {count size : Nat} {f : Unit → Except DecodeFailure β}

theorem reserve_bind_eq_ok {b : β} :
    reserveInitialCapacity count size >>= f = .ok b ↔ count ≤ maximumVectorSize/size ∧ f () = .ok b := by
  rw [reserveInitialCapacity]
  split_ifs with hl
  · exact ⟨nofun,fun h => absurd hl (not_lt.2 h.1)⟩
  · exact (and_iff_right (not_lt.1 hl)).symm

theorem reserve_bind_eq_crash : reserveInitialCapacity count size >>= f = .error .crash ↔
    maximumVectorSize/size < count ∨ count ≤ maximumVectorSize/size ∧ f () = .error .crash := by
  rw [reserveInitialCapacity]
  split_ifs with hl
  · exact iff_of_true rfl (.inl hl)
  · exact (and_iff_right (not_lt.1 hl)).symm.trans (or_iff_right hl).symm

end

section
variable {data rest : List UInt8}

theorem decodeString_eq_ok {v : List UInt16} : decodeString data = .ok (v, rest) ↔ v.length ≤ 2147483647 ∧
      data = writeLittleEndian 4 v.length ++ (v.flatMap fun unit => writeLittleEndian 2 unit.toNat) ++ rest := by
  rw [decodeString,read_bind_eq_ok]
  constructor
  · rintro ⟨l,data',-,rfl,h⟩
    dsimp only at h
    split_ifs at h with hsize
    obtain ⟨hs,h⟩ := reserve_bind_eq_ok.1 h
    obtain ⟨⟨rfl,-⟩,rfl⟩ := (readUnit_decodes.elements l data' v rest le_rfl).1 h
    exact ⟨hs,(append_assoc _ _ _).symm⟩
  · rintro ⟨hl,rfl⟩
    refine ⟨_,_,by omega,append_assoc _ _ _,?_⟩
    have hb : (v.flatMap fun unit => writeLittleEndian 2 unit.toNat).length = v.length*2 := by
      simp [length_flatMap]
    dsimp only
    rw [if_neg (by rw [length_append,hb]; omega)]
    refine reserve_bind_eq_ok.2 ⟨hl,?_⟩
    exact (readUnit_decodes.elements _ _ v rest le_rfl).2 ⟨⟨rfl,fun _ _ => trivial⟩,rfl⟩

theorem decodeString_eq_crash :
    decodeString data = .error .crash ↔ ∃ l rest, l < 4294967296 ∧ 2147483647 < l ∧
      l*2%4294967296 ≤ rest.length ∧ data = writeLittleEndian 4 l ++ rest := by
  rw [decodeString,read_bind_eq_crash]
  constructor
  · rintro ⟨l,rest,hlt,rfl,h⟩
    dsimp only at h
    split_ifs at h with hs
    · cases h
    obtain hl | ⟨-,h⟩ := reserve_bind_eq_crash.1 h
    · exact ⟨l,rest,hlt,hl,not_lt.1 hs,rfl⟩
    · obtain ⟨_,rest',_,_,_,hu⟩ := (readUnit_decodes.elements_error le_rfl).1 h
      exact absurd hu readUnit_ne_crash
  · rintro ⟨l,rest,hlt,hl,hs,rfl⟩
    refine ⟨l,rest,hlt,rfl,?_⟩
    dsimp only
    rw [if_neg (not_lt.2 hs)]
    exact reserve_bind_eq_crash.2 (.inl hl)

theorem decodeBinary_eq_ok {v : List UInt8} : decodeBinary data = .ok (v, rest) ↔ v.length ≤ 4294967295 ∧
      data = writeLittleEndian 8 v.length ++ v ++ rest := by
  rw [decodeBinary,read_bind_eq_ok]
  constructor
  · rintro ⟨size,data',-,rfl,h⟩
    dsimp only at h
    split_ifs at h with hs
    obtain ⟨hf,h⟩ := reserve_bind_eq_ok.1 h
    cases h
    rw [length_take_of_le (not_lt.1 hs),append_assoc,take_append_drop]
    exact ⟨hf,rfl⟩
  · rintro ⟨hs,rfl⟩
    refine ⟨_,_,by omega,append_assoc _ _ _,?_⟩
    dsimp only
    rw [if_neg (by rw [length_append]; omega),take_left',drop_left'] <;> try rfl
    exact reserve_bind_eq_ok.2 ⟨hs,rfl⟩

theorem decodeBinary_eq_crash :
    decodeBinary data = .error .crash ↔ ∃ size rest, size < 18446744073709551616 ∧ 4294967295 < size ∧
      size ≤ rest.length ∧ data = writeLittleEndian 8 size ++ rest := by
  rw [decodeBinary,read_bind_eq_crash]
  constructor
  · rintro ⟨size,rest,hlt,rfl,h⟩
    dsimp only at h
    split_ifs at h with hs
    · cases h
    obtain hl | ⟨-,h⟩ := reserve_bind_eq_crash.1 h
    · exact ⟨size,rest,hlt,hl,not_lt.1 hs,rfl⟩
    · cases h
  · rintro ⟨size,rest,hlt,hl,hs,rfl⟩
    refine ⟨size,rest,hlt,rfl,?_⟩
    dsimp only
    rw [if_neg (not_lt.2 hs)]
    exact reserve_bind_eq_crash.2 (.inl hl)

end

theorem encodeKeys_eq_flatMap (keys : List IDBKeyData) : encodeKeys keys = keys.flatMap encodeKey := by
  induction keys with
  | nil => rw [encodeKeys,flatMap_nil]
  | cons key keys ih => rw [encodeKeys,ih,flatMap_cons]

variable {ksize : Nat}

theorem allValid_iff {keys : List IDBKeyData} : AllValid ksize keys ↔ ∀ key ∈ keys, key.Valid ksize := by
  induction keys with
  | nil => exact ⟨fun _ => nofun,fun _ => by trivial⟩
  | cons key keys ih => rw [AllValid,ih,forall_mem_cons]

section
variable {ksize bound : Nat} {decode : List UInt8 → Except DecodeFailure (IDBKeyData × List UInt8)}
  {data rest : List UInt8}

section
variable (hdc : Decodes decode encodeKey (IDBKeyData.Valid ksize) bound) (hb : data.length ≤ bound)
include hdc hb

theorem decodeArray_eq_ok
    {v : List IDBKeyData} :
    decodeArray ksize decode data = .ok (v, rest) ↔
      (v.length ≤ maximumVectorSize/ksize ∧ AllValid ksize v) ∧
        data = writeLittleEndian 8 v.length ++ encodeKeys v ++ rest := by
  rw [decodeArray,read_bind_eq_ok,allValid_iff,encodeKeys_eq_flatMap]
  constructor
  · rintro ⟨size,data',-,rfl,h⟩
    rw [length_append] at hb
    obtain ⟨hf,h⟩ := reserve_bind_eq_ok.1 h
    obtain ⟨⟨rfl,hv⟩,rfl⟩ := (hdc.elements size data' v rest (by omega)).1 h
    exact ⟨⟨hf,hv⟩,(append_assoc _ _ _).symm⟩
  · rintro ⟨⟨hs,hv⟩,rfl⟩
    rw [append_assoc] at hb ⊢
    refine ⟨_,_,?_,rfl,reserve_bind_eq_ok.2 ⟨hs,?_⟩⟩
    · exact (hs.trans (Nat.div_le_self _ _)).trans_lt (by decide)
    · rw [length_append] at hb
      exact (hdc.elements _ _ v rest (by omega)).2 ⟨⟨rfl,hv⟩,rfl⟩

theorem decodeArray_eq_crash : decodeArray ksize decode data = .error .crash ↔ ∃ size rest, size < 18446744073709551616 ∧
      data = writeLittleEndian 8 size ++ rest ∧ (maximumVectorSize/ksize < size ∨ size ≤ maximumVectorSize/ksize ∧
        ∃ keys rest', keys.length < size ∧ AllValid ksize keys ∧ rest = encodeKeys keys ++ rest' ∧
          decode rest' = .error .crash) := by
  rw [decodeArray,read_bind_eq_crash]
  refine exists_congr fun size => exists_congr fun rest => and_congr_right fun _ => and_congr_right fun hdt => ?_
  rw [hdt,length_append] at hb
  refine reserve_bind_eq_crash.trans (or_congr_right (and_congr_right fun _ => ?_))
  rw [hdc.elements_error (by omega)]
  simp only [allValid_iff,encodeKeys_eq_flatMap]

end

end

section
variable {α : Type} {make : α → IDBKeyData} {decoded : Except DecodeFailure (α × List UInt8)}

theorem set_eq_ok {key : IDBKeyData} {rest : List UInt8} :
    set make decoded = .ok (key, rest) ↔ ∃ value, decoded = .ok (value, rest) ∧ key = make value := bind_make_eq_ok

theorem set_eq_error {failure : DecodeFailure} : set make decoded = .error failure ↔ decoded = .error failure := by
  rw [set,bind_eq_error]
  exact or_iff_left fun ⟨_,_,h⟩ => nomatch h

end

variable {fuel : Nat}

theorem valid_of_decodeKey {data rest : List UInt8} {key : IDBKeyData}
    (hdc : Decodes (decodeKey ksize fuel) encodeKey (IDBKeyData.Valid ksize) data.tail.length)
    (h : decodeKey ksize (fuel+1) data = .ok (key, rest)) : key.Valid ksize ∧ data = encodeKey key ++ rest := by
  cases data with
  | nil => cases h
  | cons type data =>
    rw [decodeKey] at h
    split_ifs at h with hmn hm hn hdt hs hb ha
    · cases h
      exact ⟨trivial,by rw [hmn,encodeKey]; rfl⟩
    · cases h
      exact ⟨trivial,by rw [hm,encodeKey]; rfl⟩
    · obtain ⟨v,hv,rfl⟩ := set_eq_ok.1 h
      exact ⟨trivial,by rw [hn,encodeKey,readDouble_eq_ok.1 hv]; rfl⟩
    · obtain ⟨v,hv,rfl⟩ := set_eq_ok.1 h
      exact ⟨trivial,by rw [hdt,encodeKey,readDouble_eq_ok.1 hv]; rfl⟩
    · obtain ⟨v,hv,rfl⟩ := set_eq_ok.1 h
      obtain ⟨hvl,rfl⟩ := decodeString_eq_ok.1 hv
      exact ⟨hvl,by rw [hs,encodeKey]; rfl⟩
    · obtain ⟨v,hv,rfl⟩ := set_eq_ok.1 h
      obtain ⟨hvl,rfl⟩ := decodeBinary_eq_ok.1 hv
      exact ⟨hvl,by rw [hb,encodeKey]; rfl⟩
    · obtain ⟨v,hv,rfl⟩ := set_eq_ok.1 h
      obtain ⟨hvl,rfl⟩ := (decodeArray_eq_ok hdc le_rfl).1 hv
      exact ⟨hvl,by rw [ha,encodeKey]; rfl⟩

theorem decodeKey_encodeKey {rest : List UInt8} {key : IDBKeyData}
    (hdc : Decodes (decodeKey ksize fuel) encodeKey (IDBKeyData.Valid ksize) (encodeKey key ++ rest).tail.length)
    (h : key.Valid ksize) : decodeKey ksize (fuel+1) (encodeKey key ++ rest) = .ok (key, rest) := by
  cases key with
  | min => rfl
  | max => rfl
  | number v => exact set_eq_ok.2 ⟨v,readDouble_eq_ok.2 rfl,rfl⟩
  | date v => exact set_eq_ok.2 ⟨v,readDouble_eq_ok.2 rfl,rfl⟩
  | string v => exact set_eq_ok.2 ⟨v,decodeString_eq_ok.2 ⟨h,rfl⟩,rfl⟩
  | binary v => exact set_eq_ok.2 ⟨v,decodeBinary_eq_ok.2 ⟨h,rfl⟩,rfl⟩
  | array v =>
    exact set_eq_ok.2 ⟨v,(decodeArray_eq_ok hdc le_rfl).2 ⟨h,rfl⟩,rfl⟩

/-- With enough fuel, just what is written for a key is accepted. -/
theorem decodeKey_decodes (ksize fuel : Nat) :
    Decodes (decodeKey ksize (fuel+1)) encodeKey (IDBKeyData.Valid ksize) fuel := by
  induction fuel with
  | zero =>
    intro data key rest hb
    obtain rfl := eq_nil_of_length_eq_zero (Nat.le_zero.1 hb)
    refine ⟨nofun,fun ⟨_,h⟩ => ?_⟩
    cases key <;> rw [encodeKey] at h <;> cases h
  | succ fuel ih =>
    intro data key rest hb
    have hdc : Decodes (decodeKey ksize (fuel+1)) encodeKey (IDBKeyData.Valid ksize) data.tail.length := by
      apply Decodes.mono ih
      rw [length_tail]
      omega
    constructor
    · exact valid_of_decodeKey hdc
    · rintro ⟨hv,rfl⟩
      exact decodeKey_encodeKey hdc hv

/-- With enough fuel, the process stops just on oversized data. -/
theorem decodeKey_eq_crash {data : List UInt8} (hb : data.length ≤ fuel) :
    decodeKey ksize (fuel+1) data = .error .crash ↔ Oversized ksize data := by
  induction fuel generalizing data with
  | zero =>
    obtain rfl := eq_nil_of_length_eq_zero (Nat.le_zero.1 hb)
    exact ⟨nofun,nofun⟩
  | succ fuel ih =>
    constructor
    · intro h
      cases data with
      | nil => cases h
      | cons type data =>
        replace hb : data.length ≤ fuel := Nat.le_of_succ_le_succ hb
        rw [decodeKey] at h
        split_ifs at h with hmn hm hn hdt hs hbn ha
        · exact absurd (set_eq_error.1 h) readDouble_ne_crash
        · exact absurd (set_eq_error.1 h) readDouble_ne_crash
        · obtain ⟨l,rest,hln,hl,hr,rfl⟩ := decodeString_eq_crash.1 (set_eq_error.1 h)
          exact hs ▸ .string l rest hln hl hr
        · obtain ⟨size,rest,hsz,hl,hr,rfl⟩ := decodeBinary_eq_crash.1 (set_eq_error.1 h)
          exact hbn ▸ .binary size rest hsz hl hr
        · obtain ⟨size,rest,hsz,rfl,hl | ⟨hf,keys,rest',hk,hv,rfl,hr⟩⟩ :=
            (decodeArray_eq_crash (decodeKey_decodes ksize fuel) hb).1 (set_eq_error.1 h)
          · exact ha ▸ .array size rest hsz hl
          · refine ha ▸ .element size keys rest' hsz hf hk hv ((ih ?_).1 hr)
            rw [length_append,length_append] at hb
            omega
        · cases h
    · intro h
      cases h with
      | string l rest hln hl hr =>
        exact set_eq_error.2 (decodeString_eq_crash.2 ⟨l,rest,hln,hl,hr,rfl⟩)
      | binary size rest hsz hl hr =>
        exact set_eq_error.2 (decodeBinary_eq_crash.2 ⟨size,rest,hsz,hl,hr,rfl⟩)
      | array size rest hsz hl =>
        exact set_eq_error.2 ((decodeArray_eq_crash (decodeKey_decodes ksize fuel) (Nat.le_of_succ_le_succ hb)).2
          ⟨size,rest,hsz,rfl,.inl hl⟩)
      | element size keys rest hsz hf hk hv hr =>
        replace hb := Nat.le_of_succ_le_succ hb
        refine set_eq_error.2 ((decodeArray_eq_crash (decodeKey_decodes ksize fuel) hb).2
          ⟨size,_,hsz,rfl,.inr ⟨hf,keys,rest,hk,hv,rfl,(ih ?_).2 hr⟩⟩)
        rw [length_append,length_append] at hb
        omega

section
variable {ksize : Nat} {bytes : List UInt8}

theorem deserialize_eq_ok {key : IDBKeyData} :
    deserializeIDBKeyData ksize bytes = .ok key ↔ key.Valid ksize ∧ bytes = serializeIDBKeyData key := by
  cases bytes with
  | nil => exact ⟨nofun,fun h => nomatch h.2⟩
  | cons v data =>
    have hk := decodeKey_decodes ksize data.length data key [] le_rfl
    rw [append_nil] at hk
    rw [deserializeIDBKeyData,serializeIDBKeyData,List.cons.injEq]
    split_ifs with hv
    · exact ⟨nofun,fun h => absurd h.2.1 hv⟩
    · rw [and_left_comm,← hk,and_iff_right (not_not.1 hv)]
      rcases decodeKey ksize (data.length+1) data with failure | ⟨key',_ | ⟨b,rest⟩⟩
      · exact ⟨nofun,nofun⟩
      · simp
      · simp

theorem deserialize_eq_crash : deserializeIDBKeyData ksize bytes = .error .crash ↔
    ∃ rest, bytes = SIDBKeyVersion :: rest ∧ Oversized ksize rest := by
  cases bytes with
  | nil => exact ⟨nofun,fun ⟨_,h,_⟩ => nomatch h⟩
  | cons v data =>
    rw [deserializeIDBKeyData]
    split_ifs with hv
    · exact ⟨nofun,fun ⟨_,h,_⟩ => absurd (List.cons.inj h).1 hv⟩
    · have hc : decodeKey ksize (data.length+1) data = .error .crash ↔ Oversized ksize data :=
        decodeKey_eq_crash le_rfl
      simp only [not_not.1 hv,List.cons.injEq,true_and,exists_eq_left',← hc]
      rcases decodeKey ksize (data.length+1) data with failure | ⟨key',_ | ⟨b,rest⟩⟩ <;> simp

end

/-- A key is read back from what is written for it. Data is read as a key for which just this data is written or is rejected,
if and only if it does not ask for a vector of an impossible size. -/
theorem deserializeIDBKeyData_iff (sizeOfKey : Nat) (key : IDBKeyData) (hkey : key.Valid sizeOfKey) (bytes : List UInt8) :
    deserializeIDBKeyData sizeOfKey (serializeIDBKeyData key) = .ok key ∧
      ((∃ key', deserializeIDBKeyData sizeOfKey bytes = .ok key' ∧ serializeIDBKeyData key' = bytes) ∨
          deserializeIDBKeyData sizeOfKey bytes = .error .rejected ↔
        ¬ ∃ rest, bytes = SIDBKeyVersion :: rest ∧ Oversized sizeOfKey rest) := by
  refine ⟨deserialize_eq_ok.2 ⟨hkey,rfl⟩,?_⟩
  rw [← deserialize_eq_crash]
  rcases hr : deserializeIDBKeyData sizeOfKey bytes with (_ | _) | key'
  · exact ⟨nofun,fun _ => .inr rfl⟩
  · exact ⟨fun h => h.elim (fun ⟨_,h,_⟩ => nomatch h) (fun h => nomatch h),fun h => absurd rfl h⟩
  · exact ⟨nofun,fun _ => .inl ⟨key',rfl,(deserialize_eq_ok.1 hr).2.symm⟩⟩

theorem deserializeIDBKeyData_pair :
    deserializeIDBKeyData 32 (serializeIDBKeyData (.array [.number 0x3FF0000000000000, .string [0x61]])) =
        .ok (.array [.number 0x3FF0000000000000, .string [0x61]]) ∧
      ((∃ key', deserializeIDBKeyData 32 [SIDBKeyVersion, max] = .ok key' ∧
          serializeIDBKeyData key' = [SIDBKeyVersion, max]) ∨
          deserializeIDBKeyData 32 [SIDBKeyVersion, max] = .error .rejected ↔
        ¬ ∃ rest, [SIDBKeyVersion, max] = SIDBKeyVersion :: rest ∧ Oversized 32 rest) :=
  deserializeIDBKeyData_iff 32 (.array [.number 0x3FF0000000000000, .string [0x61]])
    ⟨by decide,trivial,(by decide : 1 ≤ 2147483647),trivial⟩ [SIDBKeyVersion, max]

/-- The size in bytes of a string of 2147483648 units is zero modulo 4294967296. -/
theorem deserializeIDBKeyData_stops :
    deserializeIDBKeyData 32 [SIDBKeyVersion, string, 0x00, 0x00, 0x00, 0x80] = .error .crash := by
  rfl

end WebKit.IndexedDB
