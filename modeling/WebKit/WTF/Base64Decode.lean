import Mathlib.Tactic.IntervalCases
import WebKit.WTF.Base64Encode

/-! Decoding what the Base64 encoder wrote gives the bytes back. -/
namespace WebKit.WTF.Base64
open List UInt8 Nat

/-- The sextets of the bytes, without padding. -/
def sextets : List UInt8 → List UInt8
  | a::b::c::rest => firstSextet a :: secondSextet a b :: thirdSextet b c :: fourthSextet c :: sextets rest
  | [a, b] => [firstSextet a, secondSextet a b, lastOfTwo b]
  | [a] => [firstSextet a, lastOfOne a]
  | [] => []

section Bytes
variable (a b c : UInt8)

private theorem firstByte_sextets : firstByte (firstSextet a) (secondSextet a b) = a := by
  apply UInt8.toBitVec_inj.1
  ext i hi
  simp only [firstByte,firstSextet,secondSextet]
  interval_cases i <;> simp

private theorem firstByte_lastOfOne : firstByte (firstSextet a) (lastOfOne a) = a := by
  apply UInt8.toBitVec_inj.1
  ext i hi
  simp only [firstByte,firstSextet,lastOfOne]
  interval_cases i <;> simp

private theorem secondByte_sextets : secondByte (secondSextet a b) (thirdSextet b c) = b := by
  apply UInt8.toBitVec_inj.1
  ext i hi
  simp only [secondByte,secondSextet,thirdSextet]
  interval_cases i <;> simp

private theorem secondByte_lastOfTwo : secondByte (secondSextet a b) (lastOfTwo b) = b := by
  apply UInt8.toBitVec_inj.1
  ext i hi
  simp only [secondByte,secondSextet,lastOfTwo]
  interval_cases i <;> simp

private theorem thirdByte_sextets : thirdByte (thirdSextet b c) (fourthSextet c) = c := by
  apply UInt8.toBitVec_inj.1
  ext i hi
  simp only [thirdByte,thirdSextet,fourthSextet]
  interval_cases i <;> simp

end Bytes

private theorem lt_of_mem_sextets (d : List UInt8) : ∀ s ∈ sextets d, s.toNat < 64 := by
  have hms (byt : UInt8) : (byt &&& 0o77).toNat < 64 := by
    exact Nat.lt_succ_of_le Nat.and_le_right
  have ho (x m y : UInt8) (hm : m.toNat < 64) : (x &&& m ||| y &&& 0o77).toNat < 64 := by
    refine or_lt_two_pow (n := 6) ?_ (hms y)
    exact Nat.and_le_right.trans_lt hm
  fun_induction sextets d with
  | case1 a b c r ih =>
    simp only [forall_mem_cons]
    exact ⟨hms _,ho _ _ _ (by decide),ho _ _ _ (by decide),hms _,ih⟩
  | case2 a b =>
    simp only [forall_mem_cons]
    exact ⟨hms _,ho _ _ _ (by decide),hms _,nofun⟩
  | case3 a =>
    simp only [forall_mem_cons]
    exact ⟨hms _,hms _,nofun⟩
  | case4 => exact nofun

private theorem length_sextets (d : List UInt8) : (sextets d).length = d.length + (d.length+2)/3 := by
  fun_induction sextets d with
  | case1 a b c r ih =>
    simp only [length_cons,ih]
    omega
  | case2 a b => simp
  | case3 a => simp
  | case4 => simp

private theorem plainText_eq_sextets (e : List UInt8) (p : EncodePolicy) (data : List UInt8) :
    plainText e p data = (sextets data).map (encodeAt e) ++ padding p data := by
  rw [plainText]
  congr 1
  fun_induction sextets data with
  | case1 a b c r ih =>
    rw [fullGroups,lastGroup,flatten_cons,append_assoc,ih]
    rfl
  | case2 a b => rfl
  | case3 a => rfl
  | case4 => rfl

/-- An alphabet's tables are inverse, without the equals sign and the line feed. -/
theorem Alphabet.spec (ab : Alphabet) {sextet : UInt8} (h : sextet.toNat < 64) :
    encodeAt ab.encodeMap sextet ≠ equalsSign ∧ (encodeAt ab.encodeMap sextet).toNat < 128 ∧
      byteAt ab.decodeMap (encodeAt ab.encodeMap sextet).toNat = sextet := by
  have hb64 : ∀ sextet < 64, encodeAt base64EncMap (ofNat sextet) ≠ equalsSign ∧
      (encodeAt base64EncMap (ofNat sextet)).toNat < 128 ∧
      byteAt base64DecMap (encodeAt base64EncMap (ofNat sextet)).toNat = ofNat sextet := by decide
  have hbase64URL : ∀ sextet < 64, encodeAt base64URLEncMap (ofNat sextet) ≠ equalsSign ∧
      (encodeAt base64URLEncMap (ofNat sextet)).toNat < 128 ∧
      byteAt base64URLDecMap (encodeAt base64URLEncMap (ofNat sextet)).toNat = ofNat sextet := by decide
  rw [← UInt8.ofNat_toNat (x := sextet)]
  cases ab with
  | base64 => exact hb64 sextet.toNat h
  | base64URL => exact hbase64URL sextet.toNat h

section Scan
variable {ws : Nat → Bool} {opts : DecodeOptions} {scan : Scan}

private theorem scanCharacter_lineFeed (ab : Alphabet) (hs : opts.ignoreSpacesAndNewLines) :
    scanCharacter ws opts ab.decodeMap scan lineFeed.toNat = .ok scan := by
  have hm : byteAt ab.decodeMap lineFeed.toNat = nonAlphabet := by cases ab <;> decide
  have hsp : isSpaceOrNewline ws lineFeed.toNat := rfl
  rw [scanCharacter,if_neg (by decide)]
  simp only [if_pos (show lineFeed.toNat < 128 by decide),hm,hsp,hs,ne_eq,not_true_eq_false,or_self,if_false]

/-- What the decoder has read: the sextets and the equals signs. -/
structure Scanned (scan : Scan) (read : List UInt8) (signs size : Nat) : Prop where
  length : scan.out.length = size
  outLength : scan.outLength = read.length
  take : scan.out.take read.length = read
  equalsSignCount : scan.equalsSignCount = signs

variable {read : List UInt8} {size : Nat} (ws opts)

theorem Scanned.sextet (h : Scanned scan read 0 size) (hsz : read.length < size) (ab : Alphabet) {s : UInt8}
    (hs : s.toNat < 64) :
    ∃ scan', scanCharacter ws opts ab.decodeMap scan (encodeAt ab.encodeMap s).toNat = .ok scan' ∧
      Scanned scan' (read ++ [s]) 0 size := by
  obtain ⟨hn,hl,hdc⟩ := ab.spec hs
  have hi : s ≠ nonAlphabet := by
    rintro rfl
    exact absurd hs (by decide)
  refine ⟨{ scan with out := scan.out.set scan.outLength s, outLength := scan.outLength + 1 },?_,?_,?_,?_,
    h.equalsSignCount⟩
  · rw [scanCharacter,if_neg (fun he => hn (UInt8.toNat_inj.1 he))]
    simp only [if_pos hl,hdc,if_pos hi,h.equalsSignCount,ne_eq,not_true_eq_false,if_false]
  · rw [length_set,h.length]
  · rw [h.outLength,length_append,length_singleton]
  · rw [h.outLength,length_append,length_singleton,take_add_one,take_set_of_le le_rfl,h.take,
      getElem?_set_self (by rw [h.length]; exact hsz)]
    rfl

theorem Scanned.sextets (ab : Alphabet) (r : List UInt8) (hr : ∀ s ∈ r, s.toNat < 64)
    (h : Scanned scan read 0 size) (hsz : read.length + r.length ≤ size) :
    ∃ scan', (r.map (fun s => (encodeAt ab.encodeMap s).toNat)).foldlM
        (scanCharacter ws opts ab.decodeMap) scan = .ok scan' ∧ Scanned scan' (read ++ r) 0 size := by
  induction r generalizing scan read with
  | nil => exact ⟨scan,rfl,by rwa [append_nil]⟩
  | cons s r ih =>
    rw [length_cons] at hsz
    obtain ⟨hs,hr⟩ := forall_mem_cons.1 hr
    obtain ⟨scan₁,hsc,h₁⟩ := h.sextet ws opts (by omega) ab hs
    obtain ⟨scan₂,hf,h₂⟩ := ih hr h₁ (by rw [length_append,length_singleton]; omega)
    refine ⟨scan₂,?_,by rwa [append_assoc] at h₂⟩
    rw [map_cons,foldlM_cons,hsc]
    exact hf

theorem Scanned.signs (d : List UInt8) {ss : Nat} (cn : Nat) (h : Scanned scan read ss size)
    (hc : ss + cn ≤ 2) :
    ∃ scan', (replicate cn equalsSign.toNat).foldlM (scanCharacter ws opts d) scan = .ok scan' ∧
      Scanned scan' read (ss+cn) size := by
  induction cn generalizing scan ss with
  | zero => exact ⟨scan,rfl,h⟩
  | succ cn ih =>
    have hs : scanCharacter ws opts d scan equalsSign.toNat =
        .ok { scan with equalsSignCount := ss + 1 } := by
      rw [scanCharacter,if_pos rfl,← h.equalsSignCount]
      exact if_neg (fun hm => absurd hm.2 (by dsimp only; rw [h.equalsSignCount]; omega))
    have h₁ : Scanned { scan with equalsSignCount := ss + 1 } read (ss+1) size := ⟨h.length,h.outLength,h.take,rfl⟩
    obtain ⟨scan₂,hf,h₂⟩ := ih h₁ (by omega)
    refine ⟨scan₂,?_,by rwa [add_right_comm] at h₂⟩
    rw [replicate_succ,foldlM_cons,hs]
    exact hf

private theorem foldlM_breakLines (ab : Alphabet) (hs : opts.ignoreSpacesAndNewLines) (text : List UInt8) :
    ((breakLines text).map toNat).foldlM (scanCharacter ws opts ab.decodeMap) scan =
      (text.map toNat).foldlM (scanCharacter ws opts ab.decodeMap) scan := by
  fun_induction breakLines text generalizing scan with
  | case1 text hsh => rfl
  | case2 text hl ih =>
    conv_rhs => rw [← take_append_drop 76 text]
    rw [map_append,map_append,foldlM_append,foldlM_append]
    congr 1
    funext scan'
    rw [map_cons,foldlM_cons,scanCharacter_lineFeed ab hs]
    exact ih

end Scan

section Unpack
variable {out before tail : List UInt8} {sidx : Nat}

/-- The bytes before and the sextets that are not read yet, in one vector. -/
structure Unpacking (out before tail : List UInt8) (sidx : Nat) : Prop where
  take : out.take before.length = before
  drop : out.drop sidx = tail
  le : before.length ≤ sidx

theorem Unpacking.byteAt (h : Unpacking out before tail sidx) (i : Nat) : byteAt out (sidx+i) = Base64.byteAt tail i := by
  rw [Base64.byteAt,Base64.byteAt,← h.drop,getD_eq_getElem?_getD,getD_eq_getElem?_getD,getElem?_drop]

theorem Unpacking.unpack {s t : UInt8} (f : UInt8 → UInt8 → UInt8) (h : Unpacking out before (s::t::tail) sidx) :
    Unpacking (out.set before.length (f (Base64.byteAt out sidx) (Base64.byteAt out (sidx+1)))) (before ++ [f s t]) (t::tail)
      (sidx+1) := by
  have hl : sidx < out.length := by
    by_contra ho
    have hn := drop_eq_nil_of_le (Nat.le_of_not_lt ho)
    rw [h.drop] at hn
    cases hn
  have hle := h.le
  have hs : Base64.byteAt out sidx = s := h.byteAt 0
  have ht : Base64.byteAt out (sidx+1) = t := h.byteAt 1
  rw [hs,ht]
  refine ⟨?_,?_,?_⟩
  · rw [length_append,length_singleton,take_add_one,take_set_of_le le_rfl,h.take,
      getElem?_set_self (by omega)]
    rfl
  · rw [drop_set_of_lt (by omega),← drop_drop,h.drop]
    rfl
  · rw [length_append,length_singleton]
    omega

theorem Unpacking.skip {s : UInt8} (h : Unpacking out before (s::tail) sidx) :
    Unpacking out before tail (sidx+1) :=
  ⟨h.take,by rw [← drop_drop,h.drop]; rfl,le_succ_of_le h.le⟩

/-- The loop and the rest after it give the bytes. -/
theorem unpack_spec (rest : List UInt8) (h : Unpacking out before (sextets rest) sidx) :
    let groups := decodeGroups out (before.length+rest.length) sidx before.length
    (decodeRest groups.1 (before.length+rest.length) groups.2.1 groups.2.2).take (before.length+rest.length) = before ++ rest := by
  fun_induction sextets rest generalizing out before sidx with
  | case1 a b c rest ih =>
    have h₁ := h.unpack firstByte
    rw [firstByte_sextets] at h₁
    have h₂ := h₁.unpack secondByte
    rw [secondByte_sextets] at h₂
    have h₃ := (h₂.unpack thirdByte).skip
    rw [thirdByte_sextets] at h₃
    have hdn := ih h₃
    simp only [length_append,length_cons,length_nil,append_assoc,cons_append,nil_append,
      Nat.add_assoc,Nat.reduceAdd] at hdn
    have hl : before.length + (a::b::c::rest).length = before.length + (3+rest.length) := by
      simp only [length_cons]
      omega
    rw [hl,decodeGroups,if_pos (by omega)]
    exact hdn
  | case2 a b =>
    have h₁ := h.unpack firstByte
    rw [firstByte_sextets] at h₁
    have h₂ := h₁.unpack secondByte
    rw [secondByte_lastOfTwo] at h₂
    have ht := h₂.take
    simp only [length_append,length_cons,length_nil,append_assoc,cons_append,nil_append,
      Nat.add_assoc,Nat.reduceAdd] at ht
    rw [decodeGroups,if_neg (by simp only [length_cons,length_nil]; omega)]
    simp only [decodeRest,length_cons,length_nil,Nat.reduceAdd]
    rw [if_pos (by omega),if_pos (by omega)]
    exact ht
  | case3 a =>
    have h₁ := h.unpack firstByte
    rw [firstByte_lastOfOne] at h₁
    have ht := h₁.take
    rw [length_append,length_singleton] at ht
    rw [decodeGroups,if_neg (by simp only [length_cons,length_nil]; omega)]
    simp only [decodeRest,length_cons,length_nil,Nat.reduceAdd]
    rw [if_neg (by omega),if_pos (by omega)]
    exact ht
  | case4 =>
    rw [decodeGroups,if_neg (by simp only [length_nil]; omega)]
    simp only [decodeRest,length_nil,add_zero]
    rw [if_neg (by omega),if_neg (by omega),append_nil]
    exact h.take

end Unpack

/-- Sextets and at most two equals signs that fill up the last group. -/
theorem decode_spec (m : Nat → UInt8) (ws : Nat → Bool) (opts : DecodeOptions) (d : List UInt8)
    {text : List Nat} {dt : List UInt8} {ss : Nat} {scan : Scan} (hdt : dt ≠ [])
    (hsc : text.foldlM (scanCharacter ws opts d) ⟨(range text.length).map m,0,0⟩ = .ok scan)
    (h : Scanned scan (sextets dt) ss text.length) (hs : ss = 0 ∨ ss = (3-dt.length%3)%3) :
    base64DecodeInternal ws opts d m text = (true, dt) := by
  have hps := length_pos_iff.2 hdt
  have hl := length_sextets dt
  have htx : text.length ≠ 0 := by
    have ht := congrArg length h.take
    rw [length_take,h.length] at ht
    omega
  have ho : scan.outLength - (scan.outLength+3)/4 = dt.length := by
    rw [h.outLength]
    omega
  have hp : ¬ (opts.validatePadding ∧ scan.equalsSignCount ≠ 0 ∧ (scan.outLength+scan.equalsSignCount)%4 ≠ 0) := by
    rw [h.equalsSignCount,h.outLength]
    rintro ⟨-,hn,hm⟩
    omega
  have hu := unpack_spec dt (show Unpacking (sextets dt) [] (sextets dt) 0 from ⟨rfl,drop_zero,le_refl 0⟩)
  rw [base64DecodeInternal,if_neg htx,hsc]
  dsimp only
  rw [if_neg (by omega),if_neg hp,if_neg (by rw [h.outLength]; omega),ho,if_neg (by omega),
    h.outLength,h.take]
  rw [length_nil,zero_add,nil_append] at hu
  exact congrArg (Prod.mk true) hu

/-- A text without line feeds is read as the sextets and the padding. -/
theorem scan_plainText (ab : Alphabet) (ws : Nat → Bool) (opts : DecodeOptions) (p : EncodePolicy)
    (d out : List UInt8) (ho : (plainText ab.encodeMap p d).length ≤ out.length) :
    ∃ scan, ((plainText ab.encodeMap p d).map toNat).foldlM
        (scanCharacter ws opts ab.decodeMap) ⟨out,0,0⟩ = .ok scan ∧
      Scanned scan (sextets d) (padding p d).length out.length := by
  have hp : padding p d = replicate (padding p d).length equalsSign := by
    rw [padding]
    split_ifs
    · rfl
    · rw [length_replicate]
  have hsg : (padding p d).length ≤ 2 := by
    rw [padding]
    split_ifs
    · exact zero_le 2
    · rw [length_replicate]
      omega
  rw [plainText_eq_sextets,length_append,length_map] at ho
  have hs : Scanned ⟨out,0,0⟩ [] 0 out.length := ⟨rfl,rfl,rfl,rfl⟩
  obtain ⟨scan₁,hf₁,h₁⟩ := hs.sextets ws opts ab (sextets d) (lt_of_mem_sextets d)
    (by rw [length_nil]; omega)
  obtain ⟨scan₂,hf₂,h₂⟩ := h₁.signs ws opts ab.decodeMap (padding p d).length (by omega)
  rw [nil_append,zero_add] at h₂
  refine ⟨scan₂,?_,h₂⟩
  rw [plainText_eq_sextets,map_append,foldlM_append,map_map,Function.comp_def,hf₁,hp,map_replicate]
  exact hf₂

/-- The encoder writes its text for every old contents of the memory, it fills the vector it has computed the length of, and decoding
with the tables of the same alphabet gives the bytes back. -/
theorem decode_encode (alphabet : Alphabet) (policy : EncodePolicy) (options : DecodeOptions) (whiteSpaceNeutral : Nat → Bool)
    (memory memory' : Nat → UInt8) (data : List UInt8) (hlen : data.length ≤ maxInputBufferSize)
    (hcount : policy = .insertLFs → 4*(data.length/3) < 2^31)
    (hspaces : policy = .insertLFs → options.ignoreSpacesAndNewLines = true) :
    ∃ text, base64EncodeInternal memory data policy alphabet.encodeMap = some text ∧
      text = (if policy = .insertLFs then breakLines (plainText alphabet.encodeMap policy data)
        else plainText alphabet.encodeMap policy data) ∧
      (policy ≠ .url → text.length = (outLength policy data.length).2) ∧
      base64DecodeInternal whiteSpaceNeutral options alphabet.decodeMap memory' (text.map toNat) = (true, data) := by
  refine ⟨_,encode_eq memory policy hlen hcount,rfl,fun hp => length_encoded hp hlen,?_⟩
  by_cases hdt : data = []
  · rw [hdt]
    cases policy <;> simp [plainText,padding,fullGroups,lastGroup,breakLines,base64DecodeInternal]
  generalize ht : (if policy = .insertLFs then breakLines (plainText alphabet.encodeMap policy data)
    else plainText alphabet.encodeMap policy data) = text
  have hf (scan : Scan) : (text.map toNat).foldlM (scanCharacter whiteSpaceNeutral options alphabet.decodeMap) scan =
      ((plainText alphabet.encodeMap policy data).map toNat).foldlM
        (scanCharacter whiteSpaceNeutral options alphabet.decodeMap) scan := by
    rw [← ht]
    split_ifs with hp
    · exact foldlM_breakLines whiteSpaceNeutral options alphabet (hspaces hp) _
    · rfl
  have hl : (plainText alphabet.encodeMap policy data).length ≤ text.length := by
    rw [← ht]
    split_ifs
    · rw [length_breakLines]
      omega
    · exact le_rfl
  have hsg : (padding policy data).length = 0 ∨ (padding policy data).length = (3-data.length%3)%3 := by
    rw [padding]
    split_ifs
    · exact .inl rfl
    · exact .inr length_replicate
  obtain ⟨scan,hs,h⟩ := scan_plainText alphabet whiteSpaceNeutral options policy data
    ((range (text.map toNat).length).map memory') (by simpa using hl)
  rw [← hf] at hs
  rw [length_map,length_range] at h
  exact decode_spec memory' whiteSpaceNeutral options alphabet.decodeMap hdt hs h hsg

/-- Five bytes, with an equals sign that is validated. -/
theorem decode_encode_five :
    ∃ text, base64EncodeInternal (fun _ => 0) [0xFF, 0x00, 0xFB, 0xEF, 0x3E] .insertLFs Alphabet.base64.encodeMap = some text ∧
      base64DecodeInternal (fun _ => false) ⟨true,true⟩ Alphabet.base64.decodeMap (fun _ => 0) (text.map toNat) =
        (true, [0xFF, 0x00, 0xFB, 0xEF, 0x3E]) := by
  obtain ⟨text,he,-,-,hdc⟩ := decode_encode .base64 .insertLFs ⟨true,true⟩ (fun _ => false) (fun _ => 0) (fun _ => 0)
    [0xFF, 0x00, 0xFB, 0xEF, 0x3E] (by decide) (fun _ => by decide) (fun _ => rfl)
  exact ⟨text,he,hdc⟩

end WebKit.WTF.Base64
