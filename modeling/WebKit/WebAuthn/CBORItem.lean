import WebKit.WTF.UTF8Text
import WebKit.WebAuthn.CBORHeader

/-! What the reader accepts: for each value the bytes that stand for it. -/
namespace WebKit.WebAuthn

open Base WTF List Nat
open UInt64 (toNat_ofNat_of_lt')

/-- The reader knows the key of a map. -/
def IsKey (key : CBORValue) : Prop := key.type = .string ∨ key.type = .unsigned

def Ordered (map : List (CBORValue × CBORValue)) : Prop := map.Pairwise fun entry entry' => CTAPLess entry.1 entry'.1 = true

/-- The bytes of a key, and then those of its value. -/
def Entry (item : CBORValue → List UInt8 → Prop) (entry : CBORValue × CBORValue) (bytes : List UInt8) : Prop :=
  ∃ keyBytes valueBytes, item entry.1 keyBytes ∧ item entry.2 valueBytes ∧ bytes = keyBytes ++ valueBytes

/-- The bytes of a value within a number of levels, where the characters of strings have a given code. -/
def Item (code : Char → List UInt8 → Prop) : Nat → CBORValue → List UInt8 → Prop
  | 0, _, _ => False
  | levels + 1, value, bytes =>
    match value with
    | .none => False
    | .integer value =>
      bytes = if 0 ≤ value then startItem .unsigned value.toUInt64 else startItem .negative (-(value+1)).toUInt64
    | .byteString value =>
      value.length < 18446744073709551616 ∧ bytes = startItem .byteString (.ofNat value.length) ++ value
    | .string value => ∃ text payload, value = utf16 text ∧ Sequence code text payload ∧ Fits payload value ∧
      bytes = startItem .string (.ofNat payload.length) ++ payload
    | .array value => value.length < 18446744073709551616 ∧
      ∃ payload, Sequence (Item code levels) value payload ∧ bytes = startItem .array (.ofNat value.length) ++ payload
    | .map value => value.length < 18446744073709551616 ∧ Ordered value ∧ (∀ entry ∈ value, IsKey entry.1) ∧
      ∃ payload, Sequence (Entry (Item code levels)) value payload ∧ bytes = startItem .map (.ofNat value.length) ++ payload
    | .simpleValue value => bytes = startItem .simpleValue (.ofNat value.toNat)

section
variable {value : UInt64} {n : Int64}

theorem toInt_neg_sub_one (n : Int64) : (-n-1).toInt = -n.toInt - 1 := by
  have hl : -9223372036854775808 ≤ n.toInt := Int64.minValue_le_toInt n
  have hh := Int64.toInt_lt n
  rw [Int64.toInt_sub,Int64.toInt_neg]
  change Int.bmod (Int.bmod (-n.toInt) (2^64)-1) (2^64) = _
  rw [Int.bmod_sub_bmod]
  exact Int.bmod_eq_of_le (by omega) (by omega)

theorem toInt_eq (n : Int64) :
    n.toInt = if 2*n.toUInt64.toNat < 2^64 then (n.toUInt64.toNat : Int) else n.toUInt64.toNat - 2^64 :=
  BitVec.toInt_eq_toNat_cond n.toBitVec

theorem toNat_toUInt64 {n : Int64} (h : 0 ≤ n) : (n.toUInt64.toNat : Int) = n.toInt := by
  have ht := toInt_eq n
  have hl := n.toUInt64.toNat_lt
  have hn : 0 ≤ n.toInt := Int64.le_iff_toInt_le.1 h
  split_ifs at ht <;> omega

theorem nonneg_iff (n : Int64) : 0 ≤ n ↔ n.toUInt64 ≤ maxInteger := by
  have hl := n.toUInt64.toNat_lt
  have hm : maxInteger.toNat = 9223372036854775807 := rfl
  rw [Int64.le_iff_toInt_le,UInt64.le_iff_toNat_le,hm,toInt_eq n]
  change 0 ≤ _ ↔ _
  split_ifs <;> omega

theorem nonneg_neg_sub_one (n : Int64) : 0 ≤ -n - 1 ↔ ¬ 0 ≤ n := by
  rw [Int64.le_iff_toInt_le,Int64.le_iff_toInt_le,toInt_neg_sub_one]
  change 0 ≤ _ ↔ ¬ 0 ≤ _
  omega

private theorem unsigned_iff : value ≤ maxInteger ∧ n = value.toInt64 ↔ 0 ≤ n ∧ value = n.toUInt64 := by
  constructor
  · rintro ⟨h,rfl⟩
    exact ⟨(nonneg_iff _).2 h,rfl⟩
  · rintro ⟨h,rfl⟩
    exact ⟨(nonneg_iff n).1 h,rfl⟩

private theorem negative_iff : value ≤ maxInteger ∧ n = -value.toInt64 - 1 ↔ ¬ 0 ≤ n ∧ value = (-(n+1)).toUInt64 := by
  constructor
  · rintro ⟨h,rfl⟩
    have hv : -(-value.toInt64-1+1) = value.toInt64 := by grind
    rw [nonneg_neg_sub_one,not_not,hv]
    exact ⟨(nonneg_iff _).2 h,rfl⟩
  · rintro ⟨h,rfl⟩
    have hv : -(n+1) = -n - 1 := by grind
    have hn : n = -(-n-1) - 1 := by grind
    rw [hv]
    exact ⟨(nonneg_iff _).1 ((nonneg_neg_sub_one n).2 h),hn⟩

end

section
variable {value : UInt64} {it rest : List UInt8} {v : CBORValue}

theorem integer_eq_ok {f : ReadFailure} {n : Int64} {kind : Int64 → Prop} {c : Int64 → UInt64}
    (h : ∀ m, value ≤ maxInteger ∧ m = n ↔ kind m ∧ value = c m) :
    (if value > maxInteger then .error f else .ok (.integer n, it)) = Except.ok (v, rest) ↔
      ∃ m, v = .integer m ∧ kind m ∧ value = c m ∧ it = rest := by
  constructor
  · intro ho
    split_ifs at ho with hl
    cases ho
    obtain ⟨hn,hv⟩ := (h n).1 ⟨UInt64.not_lt.1 hl,rfl⟩
    exact ⟨n,rfl,hn,hv,rfl⟩
  · rintro ⟨m,rfl,hm,hv,rfl⟩
    obtain ⟨hle,rfl⟩ := (h m).2 ⟨hm,hv⟩
    rw [if_neg (UInt64.not_lt.2 hle)]

private theorem decodeValueToUnsigned_eq_ok : decodeValueToUnsigned value it = .ok (v, rest) ↔
    ∃ n : Int64, v = .integer n ∧ 0 ≤ n ∧ value = n.toUInt64 ∧ it = rest :=
  integer_eq_ok fun _ => unsigned_iff

private theorem decodeValueToNegative_eq_ok : decodeValueToNegative value it = .ok (v, rest) ↔
    ∃ n : Int64, v = .integer n ∧ ¬ 0 ≤ n ∧ value = (-(n+1)).toUInt64 ∧ it = rest :=
  integer_eq_ok fun _ => negative_iff

private theorem readBytes_eq_ok : readBytes value it = .ok (v, rest) ↔
    ∃ bs, v = .byteString bs ∧ value.toNat = bs.length ∧ it = bs ++ rest := by
  rw [readBytes]
  constructor
  · intro h
    split_ifs at h with hs
    cases h
    exact ⟨_,rfl,(length_take_of_le (not_lt.1 hs)).symm,(take_append_drop _ _).symm⟩
  · rintro ⟨bs,rfl,hl,rfl⟩
    rw [hl,if_neg (by rw [length_append]; omega),take_left,drop_left]

private theorem readString_eq_ok : readString value it = .ok (v, rest) ↔
    ∃ p cs, v = .string cs ∧ value.toNat = p.length ∧ fromUTF8 p = .string cs ∧
      it = p ++ rest := by
  rw [readString]
  constructor
  · intro h
    by_cases hsh : it.length < value.toNat
    · rw [if_pos hsh] at h
      cases h
    rw [if_neg hsh] at h
    have hl : value.toNat = (it.take value.toNat).length := (length_take_of_le (not_lt.1 hsh)).symm
    have hsp := (take_append_drop value.toNat it).symm
    dsimp only at h
    split at h
    · cases h
    next hn =>
      split_ifs at h with hz
      rw [hz] at hn
      cases hn
    next cs hs =>
      split_ifs at h
      cases h
      exact ⟨_,cs,rfl,hl,hs,hsp⟩
  · rintro ⟨p,cs,rfl,hl,hs,rfl⟩
    have hr : value = 0 ∨ cs ≠ [] := by
      by_cases he : cs = []
      · rw [he] at hs
        rw [eq_nil_of_fromUTF8 hs] at hl
        exact .inl (UInt64.toNat_inj.1 hl)
      · exact .inr he
    rw [hl,if_neg (by rw [length_append]; omega),take_left,drop_left,hs]
    exact if_pos hr

private theorem readSimpleValue_eq_ok : readSimpleValue (additionalInformation value) value it = .ok (v, rest) ↔
    ∃ s : SimpleValue, v = .simpleValue s ∧ value = .ofNat s.toNat ∧ it = rest := by
  constructor
  · intro h
    have hv : ∀ {n : Nat}, value.toNat = n → value = .ofNat n := fun h => by rw [← h,UInt64.ofNat_toNat]
    rw [readSimpleValue] at h
    split_ifs at h
    split at h
    iterate 4
      next hn =>
        cases h
        exact ⟨_,rfl,hv hn,rfl⟩
    cases h
  · rintro ⟨s,rfl,rfl,rfl⟩
    cases s <;> rfl

end

section
variable {item : CBORValue → List UInt8 → Prop} {decode : List UInt8 → Except ReadFailure (CBORValue × List UInt8)}
  {value : UInt64} {it rest : List UInt8} {v : CBORValue}

private theorem readCBORArray_eq_ok (hdc : ∀ b, Parses decode item b) :
    readCBORArray decode value it = .ok (v, rest) ↔ ∃ a p, v = .array a ∧ value.toNat = a.length ∧
      Sequence item a p ∧ it = p ++ rest := by
  rw [readCBORArray,bind_make_eq_ok]
  refine exists_congr fun a => ?_
  rw [and_comm,(hdc _).elements _ it a rest le_rfl]
  simp only [and_assoc,exists_and_left,eq_comm]

theorem readKeyAndValue_parses (hdc : ∀ bound, Parses decode item bound) (bound : Nat) :
    Parses (readKeyAndValue decode) (Entry item) bound := by
  intro d e rest _
  rw [readKeyAndValue]
  constructor
  · intro h
    split at h
    next key it hk =>
      obtain ⟨ks,hkb,rfl⟩ := (hdc _ d key it le_rfl).1 hk
      split at h
      next value it' hv =>
        obtain ⟨rfl,rfl⟩ := Prod.mk.inj (Except.ok.inj h)
        obtain ⟨vs,hvb,rfl⟩ := (hdc _ it value it' le_rfl).1 hv
        exact ⟨_,⟨ks,vs,hkb,hvb,rfl⟩,(append_assoc _ _ _).symm⟩
      · exact nomatch h
    · split at h <;> exact nomatch h
    · exact nomatch h
  · rintro ⟨_,⟨ks,vs,hk,hv,rfl⟩,rfl⟩
    rw [append_assoc,(hdc _ _ e.1 _ le_rfl).2 ⟨ks,hk,rfl⟩]
    dsimp only
    rw [(hdc _ _ e.2 _ le_rfl).2 ⟨vs,hv,rfl⟩]

variable {map : List (CBORValue × CBORValue)}

private theorem emplace_eq {key value : CBORValue}
    (h : ∀ e ∈ map, CTAPLess e.1 key) : emplace key value map = map ++ [(key, value)] := by
  induction map with
  | nil => rfl
  | cons e map ih =>
    obtain ⟨he,h⟩ := forall_mem_cons.1 h
    rw [emplace,if_neg (ctapLess_asymm he),if_pos he,ih h]
    rfl

/-- A new key passes both checks just if it comes after all others. -/
theorem check_iff {key : CBORValue} (hm : Ordered map) :
    checkDuplicateKey key map ∧ checkOutOfOrderKey key map ↔ ∀ e ∈ map, CTAPLess e.1 key := by
  rw [checkDuplicateKey,checkOutOfOrderKey,Bool.not_eq_true',any_eq_false]
  simp only [Bool.and_eq_true,Bool.not_eq_true',not_and,Bool.not_eq_false]
  obtain rfl | ⟨map,l,rfl⟩ := eq_nil_or_concat map
  · exact ⟨fun _ => nofun,fun _ => ⟨nofun,rfl⟩⟩
  rw [concat_eq_append] at hm ⊢
  rw [getLast?_concat]
  constructor
  · rintro ⟨hn,hls⟩
    have hl : CTAPLess l.1 key :=
      hn l (mem_append_right _ (mem_singleton_self _)) (Bool.not_eq_true' _ ▸ hls)
    intro e he
    obtain he | he := mem_append.1 he
    · exact ctapLess_trans ((pairwise_append.1 hm).2.2 e he l (mem_singleton_self _)) hl
    · rwa [mem_singleton.1 he]
  · intro h
    refine ⟨fun e he _ => h e he,?_⟩
    have hl := ctapLess_asymm (h l (mem_append_right _ (mem_singleton_self _)))
    rw [Bool.not_eq_true] at hl
    dsimp only
    rw [hl]
    rfl

/-- The entries that are read follow those already there in the order of the keys. -/
theorem readEntries_eq_ok (hdc : ∀ b, Parses decode item b) {l : Nat}
    {r : List (CBORValue × CBORValue)} (hm : Ordered map) :
    readEntries decode l it map = .ok (r, rest) ↔ ∃ entries p, r = map ++ entries ∧
      entries.length = l ∧ Ordered r ∧ (∀ e ∈ entries, IsKey e.1) ∧ Sequence (Entry item) entries p ∧
        it = p ++ rest := by
  induction l generalizing it map with
  | zero =>
    constructor
    · intro h
      cases h
      exact ⟨[],[],(append_nil _).symm,rfl,hm,nofun,.nil,rfl⟩
    · rintro ⟨entries,p,rfl,hln,-,-,hp,rfl⟩
      cases hp with
      | nil => rw [append_nil]; rfl
      | cons _ _ => cases hln
  | succ l ih =>
    rw [readEntries,bind_eq_ok]
    constructor
    · rintro ⟨⟨⟨key,value⟩,it'⟩,he,h⟩
      obtain ⟨bs,hb,rfl⟩ := (readKeyAndValue_parses hdc _ it _ it' le_rfl).1 he
      dsimp only at h
      split_ifs at h with ht hdp ho
      have hky : IsKey key := by
        rw [not_and_or,not_not,not_not] at ht
        exact ht
      rw [Bool.not_eq_true',Bool.not_eq_false] at hdp ho
      have hl := (check_iff hm).1 ⟨hdp,ho⟩
      rw [emplace_eq hl] at h
      have hm' : Ordered (map ++ [(key, value)]) :=
        pairwise_append.2 ⟨hm,pairwise_singleton _ _,fun e he e' he' => by
          rw [mem_singleton.1 he']
          exact hl e he⟩
      obtain ⟨entries,p,rfl,rfl,hr,hk,hp,rfl⟩ := (ih hm').1 h
      exact ⟨(key, value) :: entries,bs ++ p,append_assoc _ _ _,rfl,hr,
        forall_mem_cons.2 ⟨hky,hk⟩,.cons hb hp,(append_assoc _ _ _).symm⟩
    · rintro ⟨entries,p,rfl,hln,hr,hk,hp,rfl⟩
      cases hp with
      | nil => cases hln
      | @cons e entries bs p hb hp =>
        obtain ⟨hky,hk⟩ := forall_mem_cons.1 hk
        have hs : map ++ e :: entries = map ++ [e] ++ entries := append_cons _ _ _
        rw [hs] at hr
        have hm' : Ordered (map ++ [e]) := (pairwise_append.1 hr).1
        have hl : ∀ e' ∈ map, CTAPLess e'.1 e.1 := fun e' he' =>
          (pairwise_append.1 hm').2.2 e' he' e (mem_singleton_self _)
        obtain ⟨hdp,ho⟩ := (check_iff hm).2 hl
        refine ⟨(e, p ++ rest),(readKeyAndValue_parses hdc _ _ _ _ le_rfl).2 ⟨bs,hb,
          append_assoc _ _ _⟩,?_⟩
        dsimp only
        rw [if_neg (by rw [not_and_or,not_not,not_not]; exact hky),hdp,ho,emplace_eq hl]
        exact (ih hm').2 ⟨entries,p,hs,succ.inj hln,hs ▸ hr,hk,hp,rfl⟩

private theorem readCBORMap_eq_ok (hdc : ∀ b, Parses decode item b) :
    readCBORMap decode value it = .ok (v, rest) ↔ ∃ map p, v = .map map ∧ value.toNat = map.length ∧ Ordered map ∧
      (∀ e ∈ map, IsKey e.1) ∧ Sequence (Entry item) map p ∧ it = p ++ rest := by
  rw [readCBORMap,bind_make_eq_ok]
  refine exists_congr fun map => ?_
  rw [and_comm,readEntries_eq_ok hdc .nil]
  simp only [nil_append,exists_and_left,exists_eq_left',eq_comm]

end

private theorem decodeCBOR_succ {ls : Nat} (hl : ls ≤ kCBORMaxDepth) {d rest : List UInt8} {v : CBORValue} :
    decodeCBOR (ls+1) d = .ok (v, rest) ↔ ∃ type value it, type ≠ .none ∧ d = startItem type value ++ it ∧
      readItem (decodeCBOR ls) (some type) (additionalInformation value) value it = .ok (v, rest) := by
  cases d with
  | nil =>
    rw [decodeCBOR,if_neg (not_lt.2 hl)]
    refine ⟨nofun,fun ⟨type,value,_,_,h,_⟩ => ?_⟩
    rw [startItem_eq] at h
    cases h
  | cons i it =>
    rw [decodeCBOR,if_neg (not_lt.2 hl)]
    rw [bind_eq_ok]
    constructor
    · rintro ⟨⟨value,it'⟩,hv,h⟩
      have hi := (readVariadicLengthInteger_eq_ok.1 hv).1
      cases ht : getMajorType i with
      | none =>
        rw [ht] at h
        cases h
      | some type =>
        rw [ht] at h
        have hn : type ≠ .none := by
          rintro rfl
          cases h
        exact ⟨type,value,it',hn,(header_iff hn).1 ⟨ht,hv⟩,hi ▸ h⟩
    · rintro ⟨type,value,it',hn,hdt,h⟩
      obtain ⟨ht,hv⟩ := (header_iff hn).2 hdt
      refine ⟨(value, it'),hv,?_⟩
      rw [ht,(readVariadicLengthInteger_eq_ok.1 hv).1]
      exact h

private theorem eq_ofNat {value : UInt64} {n : Nat} (h : value.toNat = n) : n < 18446744073709551616 ∧ value = .ofNat n := by
  rw [← h,UInt64.ofNat_toNat]
  exact ⟨value.toNat_lt,rfl⟩

/-- The reader accepts just the items within its levels. -/
theorem decodeCBOR_parses {ls : Nat} (hl : ls ≤ kCBORMaxDepth + 1) (bound : Nat) :
    Parses (decodeCBOR ls) (Item Accepted ls) bound := by
  induction ls generalizing bound with
  | zero =>
    intro d v rest _
    exact ⟨nofun,fun ⟨_,h,_⟩ => h.elim⟩
  | succ ls ih =>
    intro d v rest _
    have hdc := ih (by omega)
    rw [decodeCBOR_succ (by omega)]
    constructor
    · rintro ⟨type,value,it,hnn,rfl,h⟩
      cases type with
      | unsigned =>
        obtain ⟨n,rfl,hn,rfl,rfl⟩ := decodeValueToUnsigned_eq_ok.1 h
        exact ⟨_,(if_pos hn).symm,rfl⟩
      | negative =>
        obtain ⟨n,rfl,hn,rfl,rfl⟩ := decodeValueToNegative_eq_ok.1 h
        exact ⟨_,(if_neg hn).symm,rfl⟩
      | byteString =>
        obtain ⟨bs,rfl,hln,rfl⟩ := readBytes_eq_ok.1 h
        obtain ⟨hlt,rfl⟩ := eq_ofNat hln
        exact ⟨_,⟨hlt,rfl⟩,(append_assoc _ _ _).symm⟩
      | string =>
        obtain ⟨payload,cs,rfl,hln,hs,rfl⟩ := readString_eq_ok.1 h
        obtain ⟨text,ht,hu,hf⟩ := fromUTF8_eq_string.1 hs
        exact ⟨_,⟨text,payload,hu,ht,hf,rfl⟩,by rw [(eq_ofNat hln).2,append_assoc]⟩
      | array =>
        obtain ⟨array,payload,rfl,hln,hp,rfl⟩ := (readCBORArray_eq_ok hdc).1 h
        obtain ⟨hlt,rfl⟩ := eq_ofNat hln
        exact ⟨_,⟨hlt,payload,hp,rfl⟩,(append_assoc _ _ _).symm⟩
      | map =>
        obtain ⟨map,payload,rfl,hln,hm,hk,hp,rfl⟩ := (readCBORMap_eq_ok hdc).1 h
        obtain ⟨hlt,rfl⟩ := eq_ofNat hln
        exact ⟨_,⟨hlt,hm,hk,payload,hp,rfl⟩,(append_assoc _ _ _).symm⟩
      | simpleValue =>
        obtain ⟨s,rfl,rfl,rfl⟩ := readSimpleValue_eq_ok.1 h
        exact ⟨_,rfl,rfl⟩
      | none => exact absurd rfl hnn
    · rintro ⟨bs,hi,rfl⟩
      cases v with
      | none => exact hi.elim
      | integer n =>
        obtain rfl : bs = _ := hi
        split_ifs with hn
        · exact ⟨.unsigned,_,rest,nofun,rfl,decodeValueToUnsigned_eq_ok.2 ⟨n,rfl,hn,rfl,rfl⟩⟩
        · exact ⟨.negative,_,rest,nofun,rfl,decodeValueToNegative_eq_ok.2 ⟨n,rfl,hn,rfl,rfl⟩⟩
      | byteString value =>
        obtain ⟨hlt,rfl⟩ := hi
        exact ⟨.byteString,_,_,nofun,append_assoc _ _ _,readBytes_eq_ok.2 ⟨value,rfl,toNat_ofNat_of_lt' hlt,rfl⟩⟩
      | string value =>
        obtain ⟨text,payload,hu,ht,hf,rfl⟩ := hi
        have hlt : payload.length < 18446744073709551616 := hf.1.trans_lt (by decide)
        exact ⟨.string,_,_,nofun,append_assoc _ _ _,readString_eq_ok.2 ⟨payload,value,rfl,toNat_ofNat_of_lt' hlt,
          fromUTF8_eq_string.2 ⟨text,ht,hu,hf⟩,rfl⟩⟩
      | array value =>
        obtain ⟨hlt,payload,hp,rfl⟩ := hi
        exact ⟨.array,_,_,nofun,append_assoc _ _ _,
          (readCBORArray_eq_ok hdc).2 ⟨value,payload,rfl,toNat_ofNat_of_lt' hlt,hp,rfl⟩⟩
      | map value =>
        obtain ⟨hlt,hm,hk,payload,hp,rfl⟩ := hi
        exact ⟨.map,_,_,nofun,append_assoc _ _ _,
          (readCBORMap_eq_ok hdc).2 ⟨value,payload,rfl,toNat_ofNat_of_lt' hlt,hm,hk,hp,rfl⟩⟩
      | simpleValue value =>
        obtain rfl : bs = _ := hi
        exact ⟨.simpleValue,_,rest,nofun,rfl,readSimpleValue_eq_ok.2 ⟨value,rfl,rfl,rfl⟩⟩

theorem read_eq_ok {data : List UInt8} {v : CBORValue} : read data = .ok v ↔ Item Accepted (kCBORMaxDepth+1) v data := by
  have hp := decodeCBOR_parses le_rfl data.length data v [] le_rfl
  simp only [append_nil,exists_eq_right'] at hp
  rw [read,← hp]
  rcases decodeCBOR (kCBORMaxDepth+1) data with (_ | _) | ⟨value,_ | ⟨b,rest⟩⟩
  · exact ⟨nofun,nofun⟩
  · exact ⟨nofun,nofun⟩
  · simp
  · simp

end WebKit.WebAuthn
