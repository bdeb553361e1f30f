import Mathlib.Data.Nat.Bitwise

/-! LEB128 decoding: seven payload bits a byte, lowest first, and the top bit while more bytes follow. What does not fit is
dropped. -/
namespace WebKit.WTF.LEBDecoder
open List Nat

/-- The answer of a decoder, and the offset and result it leaves. -/
structure Outcome (w : Nat) where
  status : Bool
  offset : Nat
  result : BitVec w
  deriving DecidableEq

def maxByteLength (numBits : Nat) : Nat := (numBits-1)/7 + 1

def continues (byte : UInt8) : Bool := byte &&& 0x80 != 0

def payload (byte : UInt8) : Nat := (byte &&& 0x7f).toNat

section
variable {w : Nat}

/-- The loop of both decoders, with the rounds that may follow this one; beside the outcome the shift and the last byte. A read
outside the buffer gives none. -/
def decodeBytes : List UInt8 → Nat → Nat → Nat → BitVec w → Option (Outcome w × Nat × UInt8)
  | [], _, _, _, _ => none
  | byte::bytes, remaining, offset, shift, result =>
    let result := result ||| BitVec.ofNat w (payload byte) <<< shift
    if !continues byte then some (⟨true,offset + 1,result⟩, shift + 7, byte)
    else
      match remaining with
      | 0 => some (⟨false,offset + 1,result⟩, shift + 7, byte)
      | remaining + 1 => decodeBytes bytes remaining (offset+1) (shift+7) result

/-- The loop and what follows it. -/
def decode (finish : Outcome w × Nat × UInt8 → Outcome w) (bytes : List UInt8) (offset : Nat) (result : BitVec w) :
    Option (Outcome w) :=
  if bytes.length ≤ offset then some ⟨false,offset,result⟩
  else
    let last := min (maxByteLength w) (bytes.length-offset) - 1
    (decodeBytes (bytes.drop offset) last offset 0 0#w).map finish

def signExtend : Outcome w × Nat × UInt8 → Outcome w
  | (outcome, shift, byte) =>
    if outcome.status && decide (shift < w) && byte &&& 0x40 != 0 then
      { outcome with result := outcome.result ||| (-1#w) <<< shift }
    else outcome

end

def decodeUInt (w : Nat) := decode (w := w) Prod.fst

def decodeInt (w : Nat) := decode (w := w) signExtend

def decodeUInt32 := decodeUInt 32

def decodeUInt64 := decodeUInt 64

def decodeInt32 := decodeInt 32

def decodeInt64 := decodeInt 64

/-- The bytes are one number: all but the last say that more follow. -/
inductive IsNumber : List UInt8 → UInt8 → Prop
  | last {byte : UInt8} (h : continues byte = false) : IsNumber [byte] byte
  | more {byte last : UInt8} {number : List UInt8} (hbyte : continues byte = true) (h : IsNumber number last) :
    IsNumber (byte::number) last

def unsignedValue : List UInt8 → Nat
  | [] => 0
  | byte::bytes => payload byte + 2^7*unsignedValue bytes

/-- The payload as a two's complement number of seven bits a byte. -/
def signedValue (number : List UInt8) : Int :=
  if number.getLast?.any (· &&& 0x40 != 0) then unsignedValue number - 2^(7*number.length) else unsignedValue number

variable {w : Nat}

/-- A decoder reads inside the buffer, gives the value of the number it consumed modulo the width, so the value itself when that
is one of the type, and takes every number that is not too long. -/
def Decodes (decode : List UInt8 → Nat → BitVec w → Option (Outcome w)) (value : List UInt8 → Int)
    (reading : BitVec w → Int) : Prop :=
  ∀ bytes offset result, ∃ outcome, decode bytes offset result = some outcome ∧
    (outcome.status = true → ∃ number last, IsNumber number last ∧ number <+: bytes.drop offset ∧
      outcome.offset = offset + number.length ∧ outcome.offset ≤ bytes.length ∧
      outcome.result = BitVec.ofInt w (value number) ∧
      ((∃ x, reading x = value number) → reading outcome.result = value number)) ∧
    ∀ number last, IsNumber number last → number <+: bytes.drop offset → number.length ≤ maxByteLength w →
      outcome.status = true

theorem payload_lt (b : UInt8) : payload b < 2^7 := by
  exact and_lt_two_pow _ (by decide)

private theorem unsignedValue_lt (number : List UInt8) : unsignedValue number < 2^(7*number.length) := by
  induction number with
  | nil => exact Nat.zero_lt_one
  | cons b bytes ih =>
    have hbyte := payload_lt b
    rw [unsignedValue,length_cons,mul_succ,pow_add]
    omega

variable {number bytes : List UInt8} {last : UInt8} {shift seen remaining offset : Nat}

theorem ofNat_or_shiftLeft (hs : seen < 2^shift) (p : Nat) :
    BitVec.ofNat w seen ||| BitVec.ofNat w p <<< shift = BitVec.ofNat w (seen+p*2^shift) := by
  apply BitVec.eq_of_toNat_eq
  have ho := shiftLeft_add_eq_or_of_lt hs p
  rw [Nat.shiftLeft_eq,Nat.or_comm] at ho
  simp only [BitVec.toNat_or,BitVec.toNat_shiftLeft,BitVec.toNat_ofNat,shiftLeft_eq,mod_mul_mod]
  rw [← or_mod_two_pow,← ho,add_comm]

/-- A number that is not too long is read to its end. -/
theorem decodeBytes_of_isNumber (h : IsNumber number last) (hs : seen < 2^shift)
    (hl : number.length ≤ remaining + 1) : decodeBytes (number ++ bytes) remaining offset shift (.ofNat w seen) =
      some (⟨true,offset + number.length,.ofNat w (seen+unsignedValue number*2^shift)⟩,
        shift + 7*number.length, last) := by
  induction h generalizing remaining offset shift seen with
  | last hb => simp [decodeBytes,hb,unsignedValue,ofNat_or_shiftLeft hs]
  | @more b last number hb h ih =>
    cases remaining with
    | zero => cases h <;> simp at hl
    | succ remaining =>
      have hn : seen + payload b*2^shift < 2^(shift+7) := by
        have := mul_le_mul_right (2^shift) (le_sub_one_of_lt (payload_lt b))
        rw [pow_add]
        omega
      have hv : seen + payload b*2^shift + unsignedValue number*2^(shift+7) =
          seen + unsignedValue (b::number)*2^shift := by
        rw [unsignedValue,add_mul,pow_add]
        ac_rfl
      rw [cons_append,decodeBytes,ofNat_or_shiftLeft hs,hb]
      refine (ih hn (le_of_succ_le_succ hl)).trans ?_
      rw [hv,length_cons,add_assoc offset,add_assoc shift,add_comm 1,add_comm 7,← mul_succ]

/-- The loop gives up when no number ends in time. -/
theorem decodeBytes_of_forall {r : BitVec w} (hln : remaining < bytes.length)
    (h : ∀ number last, IsNumber number last → number <+: bytes → remaining + 1 < number.length) :
    ∃ left, decodeBytes bytes remaining offset shift r = some left ∧ left.1.status = false := by
  induction bytes generalizing remaining offset shift r with
  | nil => cases hln
  | cons b bytes ih =>
    have hb : continues b := by
      by_contra hl
      exact nomatch h [b] b (.last (Bool.not_eq_true _ ▸ hl)) ⟨bytes,rfl⟩
    rw [decodeBytes.eq_def]
    simp only [hb]
    cases remaining with
    | zero => exact ⟨_,rfl,rfl⟩
    | succ remaining =>
      refine ih (lt_of_succ_lt_succ hln) fun number last hv hn => ?_
      exact lt_of_succ_lt_succ (h (b::number) last (.more hb hv) (cons_prefix_cons.2 ⟨rfl,hn⟩))

theorem ofInt_sub_two_pow : BitVec.ofInt w (seen-2^shift) = BitVec.ofNat w seen - BitVec.ofNat w (2^shift) := by
  rw [Int.sub_eq_add_neg,BitVec.ofInt_add,BitVec.ofInt_neg,← BitVec.sub_eq_add_neg,BitVec.ofInt_natCast,
    ← BitVec.ofInt_natCast w (2^shift),Int.natCast_pow,Int.cast_ofNat_Int]

private theorem ofNat_or_neg_one (hs : seen < 2^shift) :
    BitVec.ofNat w seen ||| (-1#w) <<< shift = BitVec.ofInt w (seen-2^shift) := by
  have ho : -1#w = BitVec.ofNat w (2^w-1) := by
    rw [BitVec.neg_one_eq_allOnes,← BitVec.ofNatLT_eq_ofNat]
    rfl
  have hsm : seen + (2^w-1)*2^shift + 2^shift = seen + 2^w*2^shift := by
    rw [Nat.add_assoc,← Nat.succ_mul,Nat.succ_eq_add_one,Nat.sub_add_cancel (Nat.two_pow_pos w)]
  rw [ho,ofNat_or_shiftLeft hs,ofInt_sub_two_pow,BitVec.eq_sub_iff_add_eq,← BitVec.ofNat_add,hsm]
  apply BitVec.eq_of_toNat_eq
  rw [BitVec.toNat_ofNat,BitVec.toNat_ofNat,add_mul_mod_self_left]

/-- From the loop to a decoder. -/
theorem decodes_of_finish {v : List UInt8 → Int} {reading : BitVec w → Int} {f : Outcome w × Nat × UInt8 → Outcome w}
    (hfl : ∀ left, left.1.status = false → (f left).status = false)
    (hf : ∀ number last offset, IsNumber number last →
      f (⟨true,offset,.ofNat w (unsignedValue number)⟩, 7*number.length, last) =
        ⟨true,offset,.ofInt w (v number)⟩)
    (hr : ∀ x, BitVec.ofInt w (reading x) = x) : Decodes (decode f) v reading := by
  intro bytes offset r
  rw [decode]
  split_ifs with he
  · refine ⟨_,rfl,nofun,fun number last h hn => ?_⟩
    rw [drop_eq_nil_of_le he,prefix_nil] at hn
    subst hn
    cases h
  dsimp only
  generalize hl : min (maxByteLength w) (bytes.length-offset) - 1 = remaining
  have hln {number : List UInt8} (h : number <+: bytes.drop offset) : number.length ≤ bytes.length - offset :=
    length_drop ▸ h.length_le
  by_cases hex : ∃ number last, IsNumber number last ∧ number <+: bytes.drop offset ∧ number.length ≤ remaining + 1
  · obtain ⟨number,last,h,⟨rs,hrs⟩,hs⟩ := hex
    rw [← hrs,decodeBytes_of_isNumber h (Nat.two_pow_pos 0) hs,Nat.zero_add,Nat.zero_add,Nat.pow_zero,Nat.mul_one]
    refine ⟨_,congrArg some (hf number last _ h),fun _ => ⟨number,last,h,⟨rs,rfl⟩,rfl,?_,rfl,?_⟩,
      fun _ _ _ _ _ => rfl⟩
    · have := hln ⟨rs,hrs⟩
      dsimp only
      omega
    · rintro ⟨x,hx⟩
      rw [← hx,hr]
  · push Not at hex
    have hrd : remaining < (bytes.drop offset).length := by
      rw [length_drop,← hl]
      omega
    obtain ⟨left,heq,hlf⟩ := decodeBytes_of_forall hrd hex
    rw [heq]
    refine ⟨f left,rfl,by simp [hfl left hlf],fun number last h hn hm => ?_⟩
    have := hex number last h hn
    have := hln hn
    omega

private theorem decodes_decodeUInt : Decodes (decodeUInt w) (unsignedValue ·) (BitVec.toNat ·) :=
  decodes_of_finish (fun _ h => h) (fun number _ _ _ => by rw [BitVec.ofInt_natCast]) fun x => by
    rw [BitVec.ofInt_natCast,BitVec.ofNat_toNat,BitVec.setWidth_eq]

theorem IsNumber.getLast? (h : IsNumber number last) : number.getLast? = some last := by
  induction h with
  | last _ => rfl
  | more _ _ ih => rw [getLast?_cons,ih,Option.getD_some]

private theorem decodes_decodeInt : Decodes (decodeInt w) signedValue BitVec.toInt := by
  refine decodes_of_finish (fun left h => by simp [signExtend,h]) ?_ fun x => BitVec.ofInt_toInt
  intro number last offset h
  rw [signedValue,h.getLast?,Option.any_some]
  cases hsg : last &&& 0x40 != 0 with
  | false => simp [signExtend,hsg]
  | true =>
    by_cases hs : 7*number.length < w
    · simp [signExtend,hsg,hs,ofNat_or_neg_one (unsignedValue_lt number)]
    · have hz : BitVec.ofNat w (2^(7*number.length)) = 0#w := by
        apply BitVec.eq_of_toNat_eq
        exact Nat.mod_eq_zero_of_dvd (Nat.pow_dvd_pow 2 (Nat.le_of_not_lt hs))
      simp [signExtend,hs,ofInt_sub_two_pow,hz]

/-- A representable value is decoded exactly and the others modulo the width, from the bytes that
are consumed, and no number that is short enough is refused. -/
theorem decoders_exact_mod_width : Decodes decodeUInt32 (unsignedValue ·) (BitVec.toNat ·) ∧
    Decodes decodeUInt64 (unsignedValue ·) (BitVec.toNat ·) ∧
    Decodes decodeInt32 signedValue BitVec.toInt ∧ Decodes decodeInt64 signedValue BitVec.toInt :=
  ⟨decodes_decodeUInt,decodes_decodeUInt,decodes_decodeInt,decodes_decodeInt⟩

/-- The last byte's upper payload is dropped without a failure. -/
theorem decodeUInt32_truncates : IsNumber [0xff, 0xff, 0xff, 0xff, 0x7f] 0x7f ∧
    decodeUInt32 [0xff, 0xff, 0xff, 0xff, 0x7f] 0 0 = some ⟨true,5,0xffffffff⟩ ∧
    unsignedValue [0xff, 0xff, 0xff, 0xff, 0x7f] = 2^35 - 1 :=
  ⟨.more rfl (.more rfl (.more rfl (.more rfl (.last rfl)))),by decide,by decide⟩

end WebKit.WTF.LEBDecoder
