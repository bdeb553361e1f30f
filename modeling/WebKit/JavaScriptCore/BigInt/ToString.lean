import WebKit.Base.Lists
import WebKit.JavaScriptCore.BigInt.LongDivision
import WebKit.JavaScriptCore.BigInt.ParseInt

/-! BigInts to text: bit groups for power-of-two radices, and division by the largest power of the radix in a digit for
others. -/
namespace WebKit.JavaScriptCore.BigInt
open List Nat

def maxStringLength : Nat := 0x7FFFFFFF

def hasOneBitSet (value : Nat) : Bool := (value-1) &&& value == 0 && value != 0

def ctz32 (value : Nat) : Nat := ((range 32).find? value.testBit).getD 32

/-- Write characters from the last of the free cells down. -/
def fillFromEnd : List Nat → Nat → List Nat → List Nat
  | resultString, _, [] => resultString
  | resultString, free, c::written => fillFromEnd (resultString.set (free-1) c) (free-1) written

section
variable (bitsPerChar charMask : Nat)

/-- Whole groups of a digit; the rounds are at most its bits. -/
def emitGroups : Nat → Nat → Nat → List Nat × Nat × Nat
  | 0, digit, availableBits => ([], digit, availableBits)
  | rounds + 1, digit, availableBits =>
    if availableBits < bitsPerChar then ([], digit, availableBits)
    else
      let rest := emitGroups rounds (digit/2^bitsPerChar) (availableBits-bitsPerChar)
      ((digit &&& charMask) :: rest.1, rest.2)

/-- The leftover bits of a digit with the low bits of the next. -/
def joinGroup (p : Platform) (digit newDigit availableBits : Nat) : Nat :=
  (digit ||| newDigit*2^availableBits%p.base) &&& charMask

/-- All digits but the most significant one: groups, leftover bits and their number. -/
def emitDigits (p : Platform) : List Nat → Nat → Nat → List Nat × Nat × Nat
  | [], digit, availableBits => ([], digit, availableBits)
  | newDigit::digits, digit, availableBits =>
    let current := joinGroup charMask p digit newDigit availableBits
    let consumedBits := bitsPerChar - availableBits
    let groups := emitGroups bitsPerChar charMask p.digitBits (newDigit/2^consumedBits) (p.digitBits-consumedBits)
    let rest := emitDigits p digits groups.2.1 groups.2.2
    (current :: groups.1 ++ rest.1, rest.2)

/-- The groups of the most significant digit, down to its leading zeros. -/
def emitLeading : Nat → Nat → List Nat
  | 0, _ => []
  | rounds + 1, digit =>
    if digit = 0 then [] else (digit &&& charMask) :: emitLeading rounds (digit/2^bitsPerChar)

end

/-- Powers of a digit by repeated squaring, without overflow check. -/
def digitPow (p : Platform) : Nat → Nat → Nat → Nat → Nat
  | 0, result, _, _ => result
  | rounds + 1, result, base, exponent =>
    if exponent = 0 then result
    else digitPow p rounds (if exponent%2 = 1 then result*base%p.base else result) (base*base%p.base)
      (exponent/2)

/-- The given number of characters of a chunk, least significant first. -/
def emitChunk (radix : Nat) : Nat → Nat → List Nat
  | 0, _ => []
  | chars + 1, chunk => chunk%radix :: emitChunk radix chars (chunk/radix)

/-- The characters of the last digit, at least one. -/
def emitLast (radix : Nat) : Nat → Nat → List Nat
  | 0, _ => []
  | rounds + 1, lastDigit =>
    lastDigit%radix :: if 0 < lastDigit/radix then emitLast radix rounds (lastDigit/radix) else []

namespace JSBigInt
variable {p : Platform} (heap : Storage p)

/-- The number of bits from the most significant nonzero one down. -/
def bitLength (p : Platform) (length msd : Nat) : Nat := length*p.digitBits - clz p msd

def calculateMaximumCharactersRequired (p : Platform) (length radix lastDigit : Nat) (sign : Bool) : Nat :=
  let minBitsPerChar := maxBitsPerChar radix - 1
  (bitLength p length lastDigit*bitsPerCharTableMultiplier+(minBitsPerChar-1))/minBitsPerChar + sign.toNat

def toStringBasePowerOfTwo (p : Platform) (x : JSBigInt) (radix : Nat) : Except Exception (List Nat) :=
  let bitsPerChar := ctz32 radix
  let charMask := radix - 1
  let msd := x.digit (x.length-1)
  let charsRequired := (bitLength p x.length msd+bitsPerChar-1)/bitsPerChar + x.sign.toNat
  if maxStringLength < charsRequired then .error .outOfMemory
  else
    let (groups, digit, availableBits) := emitDigits bitsPerChar charMask p x.digits.dropLast 0 0
    let current := joinGroup charMask p digit msd availableBits
    let leading := emitLeading bitsPerChar charMask p.digitBits (msd/2^(bitsPerChar-availableBits))
    let written := (groups ++ current::leading).map radixDigit ++ if x.sign then [minusChar] else []
    .ok (fillFromEnd (replicate charsRequired 0) charsRequired written)

/-- Divide by the chunk divisor and emit the remainder, until one digit is left. The first division allocates the rest, the
others overwrite it from the top down. -/
def chunkLoop (radix chunkChars chunkDivisor : Nat) : Nat → JSBigInt → Nat → List Nat × JSBigInt
  | 0, rest, _ => ([], rest)
  | rounds + 1, rest, nonZeroDigit =>
    let (rest, chunk) := absoluteDivWithDigitDivisor heap rest chunkDivisor
    let nonZeroDigit := if rest.digit nonZeroDigit = 0 then nonZeroDigit - 1 else nonZeroDigit
    let more := if 0 < nonZeroDigit then chunkLoop radix chunkChars chunkDivisor rounds rest nonZeroDigit else ([], rest)
    (emitChunk radix chunkChars chunk ++ more.1, more.2)

/-- Leading zeros stand at the end; the last character stays. -/
def removeLeadingZeroes (resultString : List Nat) : List Nat :=
  resultString.take 1 ++ (resultString.drop 1).rdropWhile (· == zeroChar)

/-- All chunks of a number and what is left for the last digit. -/
def emitChunks (x : JSBigInt) (radix : Nat) : List Nat × Nat :=
  if x.length = 1 then ([], x.digit 0)
  else
    let chunkChars := p.digitBits*bitsPerCharTableMultiplier/maxBitsPerChar radix
    let chunkDivisor := digitPow p p.digitBits 1 radix chunkChars
    let chunks := chunkLoop heap radix chunkChars chunkDivisor (x.length*p.digitBits) x (x.length-1)
    (chunks.1, chunks.2.digit 0)

def toStringGeneric (x : JSBigInt) (radix : Nat) : Except Exception (List Nat) :=
  if maxStringLength < calculateMaximumCharactersRequired p x.length radix (x.digit (x.length-1)) x.sign then
    .error .outOfMemory
  else
    let chunks := emitChunks heap x radix
    let resultString := (chunks.1 ++ emitLast radix p.digitBits chunks.2).map radixDigit
    .ok (removeLeadingZeroes resultString ++ if x.sign then [minusChar] else []).reverse

def toString (x : JSBigInt) (radix : Nat) : Except Exception (List Nat) :=
  if x.isZero then .ok [zeroChar]
  else if hasOneBitSet radix then toStringBasePowerOfTwo p x radix
  else toStringGeneric heap x radix

example : toString (onesStorage platform64) ⟨true,[0, 1]⟩ 10 =
    .ok ("-18446744073709551616".toList.map Char.toNat) := by decide +kernel

end JSBigInt

section
variable {p : Platform}

private theorem fillFromEnd_eq (w r : List Nat) {f : Nat} (hf : f ≤ r.length)
    (hw : w.length ≤ f) : fillFromEnd r f w =
      r.take (f-w.length) ++ (w.reverse ++ r.drop f) := by
  induction w generalizing r f with
  | nil => simp [fillFromEnd]
  | cons c w ih =>
    rw [length_cons] at hw
    obtain ⟨f,rfl⟩ := Nat.exists_eq_add_of_le' (show 1 ≤ f by omega)
    have hdr : (r.set f c).drop f = c :: r.drop (f+1) := by
      rw [drop_eq_getElem_cons (by rw [length_set]; omega),getElem_set_self,drop_set_of_lt (by omega)]
    rw [fillFromEnd,Nat.add_sub_cancel,ih _ (by rw [length_set]; omega) (by omega),length_cons,
      take_set_of_le (by omega),hdr,reverse_cons,append_assoc,Nat.add_sub_add_right]
    rfl

private theorem fillFromEnd_replicate {n : Nat} {w : List Nat} (h : w.length = n) :
    fillFromEnd (replicate n 0) n w = w.reverse := by
  rw [fillFromEnd_eq w _ (by simp) h.le,h]
  simp

variable {bits : Nat}

theorem div_lt_two_pow {n d rounds : Nat} (h : n < 2^(rounds+1)) (hd : 2 ≤ d) : n/d < 2^rounds :=
  Nat.div_lt_of_lt_mul (h.trans_le (by rw [pow_succ']; exact Nat.mul_le_mul_right _ hd))

theorem div_two_pow_lt {n hg : Nat} (h : n < 2^hg) (hl : bits ≤ hg) : n/2^bits < 2^(hg-bits) :=
  Nat.div_lt_of_lt_mul (by rwa [← pow_add,Nat.add_sub_cancel' hl])

private theorem emitGroups_spec (hb : 0 < bits) (rs dg avail : Nat) (hd : dg < 2^avail) (hr : avail ≤ rs) :
    let groups := emitGroups bits (2^bits-1) rs dg avail
    ofDigits (2^bits) groups.1 + (2^bits)^groups.1.length*groups.2.1 = dg ∧
      (∀ d ∈ groups.1, d < 2^bits) ∧ groups.2.1 < 2^groups.2.2 ∧ groups.2.2 < bits ∧
      groups.1.length*bits + groups.2.2 = avail := by
  induction rs generalizing dg avail with
  | zero =>
    obtain rfl : avail = 0 := by omega
    exact ⟨by simp [emitGroups],by simp [emitGroups],hd,hb,by simp [emitGroups]⟩
  | succ rs ih =>
    rw [emitGroups]
    split_ifs with h
    · exact ⟨by simp,by simp,hd,h,by simp⟩
    · obtain ⟨hv,hlt,hl,ha,hc⟩ := ih (dg/2^bits) (avail-bits) (div_two_pow_lt hd (by omega)) (by omega)
      dsimp only at *
      rw [and_two_pow_sub_one_eq_mod]
      refine ⟨?_,forall_mem_cons.2 ⟨mod_lt _ (Nat.two_pow_pos _),hlt⟩,hl,ha,?_⟩
      · rw [ofDigits_cons,length_cons,pow_succ',add_assoc,mul_assoc,← mul_add,hv]
        exact mod_add_div _ _
      · rw [length_cons,succ_mul]
        omega

theorem joinGroup_value {a d : Nat} (next : Nat) (hd : d < 2^a)
    (ha : a ≤ bits) (hb : bits ≤ p.digitBits) :
    joinGroup (2^bits-1) p d next a + 2^bits*(next/2^(bits-a)) = d + 2^a*next := by
  have hs : 2^bits = 2^a*2^(bits-a) := by rw [← pow_add,Nat.add_sub_cancel' ha]
  have hsh : next*2^a%p.base = 2^a*(next%2^(p.digitBits-a)) := by
    rw [p.base_split (ha.trans hb),mul_comm next,mul_mod_mul_left]
  have hg : joinGroup (2^bits-1) p d next a = d + 2^a*(next%2^(bits-a)) := by
    rw [joinGroup,Nat.and_two_pow_sub_one_eq_mod,hsh,Nat.or_comm,← Nat.two_pow_add_eq_or_of_lt hd,hs,
      Nat.mod_mul,Nat.mul_add_mod,Nat.mod_eq_of_lt hd,Nat.mul_add_div (Nat.two_pow_pos _),Nat.div_eq_of_lt hd,
      add_zero,mod_mod_of_dvd _ (pow_dvd_pow 2 (by omega))]
  rw [hg,hs,add_assoc,mul_assoc,← mul_add,mod_add_div]

theorem joinGroup_lt (bits d next a : Nat) : joinGroup (2^bits-1) p d next a < 2^bits := by
  rw [joinGroup,and_two_pow_sub_one_eq_mod]
  exact mod_lt _ (Nat.two_pow_pos _)

/-- Groups and leftover bits hold the lower digits. -/
theorem emitDigits_spec (hp : 0 < bits) (hb : bits ≤ p.digitBits) (digits : List Nat)
    (dg a : Nat) (hd : dg < 2^a) (ha : a < bits) (hdg : ∀ d ∈ digits, d < p.base) :
    let groups := emitDigits bits (2^bits-1) p digits dg a
    ofDigits (2^bits) groups.1 + (2^bits)^groups.1.length*groups.2.1 =
        dg + 2^a*ofDigits p.base digits ∧
      (∀ d ∈ groups.1, d < 2^bits) ∧ groups.2.1 < 2^groups.2.2 ∧ groups.2.2 < bits ∧
      groups.1.length*bits + groups.2.2 = a + digits.length*p.digitBits := by
  induction digits generalizing dg a with
  | nil => exact ⟨by simp [emitDigits],by simp [emitDigits],hd,ha,by simp [emitDigits]⟩
  | cons next digits ih =>
    obtain ⟨hn,hr⟩ := forall_mem_cons.1 hdg
    have hj := joinGroup_value (p := p) next hd ha.le hb
    obtain ⟨gv,glt,gl,g,gc⟩ := emitGroups_spec hp p.digitBits _ _
      (div_two_pow_lt hn (show bits - a ≤ p.digitBits by omega)) (by omega)
    rw [emitDigits]
    dsimp only at *
    generalize emitGroups bits (2^bits-1) p.digitBits (next/2^(bits-a))
      (p.digitBits-(bits-a)) = groups at *
    obtain ⟨rv,rlt,rl,r,rc⟩ := ih groups.2.1 groups.2.2 gl g hr
    generalize emitDigits bits (2^bits-1) p digits groups.2.1 groups.2.2 = rs at *
    refine ⟨?_,?_,rl,r,?_⟩
    · have hw : 2^bits*((2^bits)^groups.1.length*2^groups.2.2) = 2^a*p.base := by
        rw [Platform.base,← pow_mul,← pow_add,← pow_add,← pow_add]
        congr 1
        rw [mul_comm bits]
        omega
      calc ofDigits (2^bits) (_ :: groups.1 ++ rs.1) + (2^bits)^(_ :: groups.1 ++ rs.1).length*rs.2.1
          = joinGroup (2^bits-1) p dg next a + 2^bits*(ofDigits (2^bits) groups.1 +
              (2^bits)^groups.1.length *
                (ofDigits (2^bits) rs.1+(2^bits)^rs.1.length*rs.2.1)) := by
            rw [cons_append,ofDigits_cons,ofDigits_append,length_cons,length_append]
            ring
        _ = joinGroup (2^bits-1) p dg next a + 2^bits*(next/2^(bits-a)) +
              2^bits*((2^bits)^groups.1.length*2^groups.2.2)*ofDigits p.base digits := by
            rw [rv,← gv]
            ring
        _ = _ := by
            rw [hj,hw,ofDigits_cons]
            ring
    · rw [cons_append,forall_mem_cons,forall_mem_append]
      exact ⟨joinGroup_lt ..,glt,rlt⟩
    · rw [length_append,length_cons,length_cons,add_mul,succ_mul,succ_mul]
      omega

private theorem emitLeading_eq (hp : 0 < bits) (rs digit : Nat) (h : digit < 2^rs) :
    emitLeading bits (2^bits-1) rs digit = digits (2^bits) digit := by
  have hB : 1 < 2^bits := Nat.one_lt_two_pow hp.ne'
  induction rs generalizing digit with
  | zero =>
    obtain rfl : digit = 0 := by simpa using h
    simp [emitLeading]
  | succ rs ih =>
    rw [emitLeading]
    split_ifs with h0
    · simp [h0]
    · rw [ih _ (div_lt_two_pow h hB),and_two_pow_sub_one_eq_mod,digits_def' hB (pos_of_ne_zero h0)]

/-- Bit groups are the digits in the radix of a group. -/
theorem bitGroups_eq (hp : 0 < bits) (hb : bits ≤ p.digitBits) {l : List Nat} {m : Nat}
    (hlw : ∀ d ∈ l, d < p.base) (hm : m < p.base) (hne : m ≠ 0) :
    let groups := emitDigits bits (2^bits-1) p l 0 0
    groups.1 ++ joinGroup (2^bits-1) p groups.2.1 m groups.2.2 ::
        emitLeading bits (2^bits-1) p.digitBits (m/2^(bits-groups.2.2)) =
      digits (2^bits) (ofDigits p.base (l ++ [m])) := by
  intro groups
  have hB : 1 < 2^bits := Nat.one_lt_two_pow hp.ne'
  obtain ⟨hv,hlt,hl,ha,hc⟩ := emitDigits_spec hp hb l 0 0 one_pos hp hlw
  have hj := joinGroup_value (p := p) m hl ha.le hb
  have hjl := joinGroup_lt (p := p) bits groups.2.1 m groups.2.2
  have ht : groups.2.1 + 2^groups.2.2*m ≠ 0 := by
    have := mul_pos (Nat.two_pow_pos groups.2.2) (pos_of_ne_zero hne)
    omega
  rw [emitLeading_eq hp _ _ ((div_le_self _ _).trans_lt hm),← digits_add _ hB _ _ hjl ?_,hj]
  · have hw : (2^bits)^groups.1.length*2^groups.2.2 = p.base^l.length := by
      rw [Platform.base,← pow_mul,← pow_mul,← pow_add,mul_comm bits,mul_comm p.digitBits]
      congr 1
      exact hc.trans (zero_add _)
    have hvl : ofDigits (2^bits) (groups.1 ++ digits (2^bits) (groups.2.1+2^groups.2.2*m)) =
        ofDigits p.base (l ++ [m]) := by
      rw [ofDigits_append,ofDigits_append,ofDigits_digits,ofDigits_singleton,mul_add,
        ← add_assoc,hv,← mul_assoc,hw]
      simp
    rw [← hvl,digits_ofDigits _ hB]
    · rw [forall_mem_append]
      exact ⟨hlt,fun d hd => digits_lt_base hB hd⟩
    · intro hn
      rw [getLast_append_of_right_ne_nil _ _ (digits_ne_nil_iff_ne_zero.2 ht)]
      exact getLast_digit_ne_zero _ ht
  · by_contra hz
    rw [not_or,not_not,not_not] at hz
    rw [hz.1,hz.2] at hj
    exact ht hj.symm

private theorem bitLength_bounds {l : List Nat} {msd : Nat} (hlw : ∀ d ∈ l, d < p.base) (hm : msd < p.base)
    (hn : msd ≠ 0) :
    let bits := JSBigInt.bitLength p (l.length+1) msd
    0 < bits ∧ 2^(bits-1) ≤ ofDigits p.base (l ++ [msd]) ∧ ofDigits p.base (l ++ [msd]) < 2^bits := by
  have hs : msd.size ≤ p.digitBits := size_le.2 hm
  have hps : 0 < msd.size := size_pos.2 (pos_of_ne_zero hn)
  have hb : JSBigInt.bitLength p (l.length+1) msd = l.length*p.digitBits + msd.size := by
    rw [JSBigInt.bitLength,clz,succ_mul]
    omega
  have hp : p.base^l.length = 2^(l.length*p.digitBits) := by
    rw [Platform.base,← pow_mul,mul_comm]
  have hl := ofDigits_lt_base_pow_length (by omega) hlw
  rw [hb,ofDigits_append,ofDigits_singleton]
  refine ⟨by omega,?_,?_⟩
  · rw [Nat.add_sub_assoc hps,pow_add,← hp]
    have hle : 2^(msd.size-1) ≤ msd := lt_size.1 (by omega)
    exact le_add_left_of_le (mul_le_mul_left _ hle)
  · rw [pow_add,← hp]
    calc ofDigits p.base l + p.base^l.length*msd < p.base^l.length + p.base^l.length*msd := by
          omega
      _ = p.base^l.length*(msd+1) := by ring
      _ ≤ _ := mul_le_mul_left _ (lt_size_self msd)

/-- Dividing the bit length by the bits of a character counts the characters. -/
theorem digits_length_of_bitLength {L m : Nat} (hp : 0 < bits) (hL : 0 < L) (hl : 2^(L-1) ≤ m)
    (hh : m < 2^L) : (digits (2^bits) m).length = (L+bits-1)/bits := by
  have hB : 1 < 2^bits := Nat.one_lt_two_pow hp.ne'
  have hdv := div_add_mod (L+bits-1) bits
  have hm := mod_lt (L+bits-1) hp
  apply le_antisymm
  · rw [digits_length_le_iff hB,← pow_mul]
    exact hh.trans_le (Nat.pow_le_pow_right two_pos (by omega))
  · apply le_of_pred_lt
    rw [pred_eq_sub_one,lt_digits_length_iff hB,← pow_mul]
    refine (Nat.pow_le_pow_right two_pos ?_).trans hl
    rw [Nat.mul_sub,Nat.mul_one]
    omega

namespace JSBigInt

variable {x : JSBigInt}

section
variable (h : x.Normalized p)
include h

theorem Normalized.exists_msd (hn : x.digits ≠ []) :
    ∃ l m, x.digits = l ++ [m] ∧ (∀ d ∈ l, d < p.base) ∧ m < p.base ∧ m ≠ 0 := by
  refine ⟨x.digits.dropLast,x.digits.getLast hn,(dropLast_append_getLast hn).symm,?_,?_,h.last_ne_zero hn⟩
  · exact fun d hd => h.digit_lt d (mem_of_mem_dropLast hd)
  · exact h.digit_lt _ (getLast_mem hn)

theorem bitLength_le (m : Nat) : bitLength p x.length m ≤ 1024*1024 :=
  calc bitLength p x.length m ≤ x.length*p.digitBits := sub_le _ _
    _ ≤ p.maxLength*p.digitBits := mul_le_mul_right _ h.length_le
    _ ≤ _ := div_mul_le_self _ _

theorem numeral_toInt (hn : x.digits ≠ []) (radix : Nat) :
    numeral radix (x.toInt p) = ((Nat.digits radix (x.magnitude p)).map radixDigit ++
      if x.sign then [minusChar] else []).reverse := by
  have hm : x.magnitude p ≠ 0 := fun he => hn ((magnitude_eq_zero_iff h).1 he)
  rw [numeral,toInt,reverse_append]
  cases x.sign with
  | false => simp [signedValue,magnitudeNumeral,hm]
  | true =>
    simp [signedValue,magnitudeNumeral,hm,pos_of_ne_zero hm]

private theorem toStringBasePowerOfTwo_eq (hn : x.digits ≠ []) {radix bits : Nat}
    (hr : radix = 2^bits) (hct : ctz32 radix = bits) (hp : 0 < bits) (hb : bits ≤ 5) :
    toStringBasePowerOfTwo p x radix = .ok (numeral radix (x.toInt p)) := by
  obtain ⟨low,msd,hdg,hlw,hm,hnz⟩ := h.exists_msd hn
  have hwd : bits ≤ p.digitBits := by
    unfold Platform.digitBits
    rcases p.width with hw | hw <;> omega
  have hln : x.length = low.length + 1 := by simp [length,hdg]
  have ht : x.digit (x.length-1) = msd := by simp [digit,hln,hdg,getD_eq_getElem?_getD]
  obtain ⟨hL,hl,hu⟩ := bitLength_bounds hlw hm hnz
  have hc := digits_length_of_bitLength hp hL hl hu
  have hmx := bitLength_le h msd
  rw [← hln] at hc hL
  have hg := bitGroups_eq hp hwd hlw hm hnz
  have hdr : x.digits.dropLast = low := by rw [hdg,dropLast_concat]
  rw [← hdg] at hc hg
  have hf : ¬ maxStringLength < (bitLength p x.length msd+bits-1)/bits + x.sign.toNat := by
    have hs := Bool.toNat_le x.sign
    have hdv := div_le_self (bitLength p x.length msd+bits-1) bits
    unfold maxStringLength
    omega
  rw [toStringBasePowerOfTwo,numeral_toInt h hn]
  simp only [hct,ht,hdr,hf,if_false]
  subst hr
  generalize emitDigits bits (2^bits-1) p low 0 0 = gs at *
  rw [hg,fillFromEnd_replicate]
  · rfl
  · rw [length_append,length_map,hc]
    cases x.sign <;> rfl

end

end JSBigInt

private theorem digitPow_eq (rs r base e : Nat) (hr : r < p.base) (he : e < 2^rs) :
    digitPow p rs r base e = r*base^e%p.base := by
  induction rs generalizing r base e with
  | zero =>
    obtain rfl : e = 0 := by simpa using he
    rw [digitPow,pow_zero,mul_one,mod_eq_of_lt hr]
  | succ rs ih =>
    have hs : (base*base)^(e/2) = base^(2*(e/2)) := by rw [← pow_two,← pow_mul]
    rw [digitPow]
    split_ifs with h0 ho
    · rw [h0,pow_zero,mul_one,mod_eq_of_lt hr]
    · rw [ih _ _ _ (mod_lt _ p.base_pos) (by omega)]
      have hex : base^e = base*(base*base)^(e/2) := by
        rw [hs,← pow_succ',show (2*(e/2)).succ = e by omega]
      rw [hex,← mul_assoc]
      exact (mod_modEq _ _).mul ((mod_modEq _ _).pow _)
    · rw [ih _ _ _ hr (by omega)]
      have hex : base^e = (base*base)^(e/2) := by
        rw [hs,show 2*(e/2) = e by omega]
      rw [hex]
      exact (Nat.ModEq.refl _).mul ((mod_modEq _ _).pow _)

variable {radix : Nat}

private theorem emitChunk_spec (h2 : 2 ≤ radix) (cs c : Nat) (h : c < radix^cs) :
    ofDigits radix (emitChunk radix cs c) = c ∧ (emitChunk radix cs c).length = cs ∧
      ∀ d ∈ emitChunk radix cs c, d < radix := by
  induction cs generalizing c with
  | zero =>
    obtain rfl : c = 0 := by simpa using h
    simp [emitChunk]
  | succ cs ih =>
    obtain ⟨hv,hl,hlt⟩ := ih (c/radix) (by rwa [div_lt_iff_lt_mul (by omega),← pow_succ])
    rw [emitChunk,ofDigits_cons,hv,length_cons,hl]
    exact ⟨mod_add_div _ _,rfl,forall_mem_cons.2 ⟨mod_lt _ (by omega),hlt⟩⟩

private theorem emitLast_spec (h2 : 2 ≤ radix) (rounds l : Nat) (h : l < 2^rounds) (hp : 0 < rounds) :
    ofDigits radix (emitLast radix rounds l) = l ∧
      ∀ d ∈ emitLast radix rounds l, d < radix := by
  induction rounds generalizing l with
  | zero => omega
  | succ rounds ih =>
    rw [emitLast,ofDigits_cons]
    have hdv := mod_add_div l radix
    have hmd := mod_lt l (show 0 < radix by omega)
    split_ifs with hm
    · have hn := div_lt_two_pow h h2
      have hr : 0 < rounds := by
        by_contra hz
        rw [Nat.eq_zero_of_not_pos hz] at hn
        omega
      obtain ⟨hv,hl⟩ := ih _ hn hr
      rw [hv]
      exact ⟨hdv,forall_mem_cons.2 ⟨hmd,hl⟩⟩
    · rw [Nat.eq_zero_of_not_pos hm] at hdv
      simpa using ⟨hdv,hmd⟩

/-- The largest tabulated power of the radix, which fits in a digit. -/
theorem chunkDivisor_spec (h2 : 2 ≤ radix) (h36 : radix ≤ 36) (ho : hasOneBitSet radix = false) :
    let chunk := p.digitBits*bitsPerCharTableMultiplier/maxBitsPerChar radix
    digitPow p p.digitBits 1 radix chunk = radix^chunk ∧ 2 ≤ radix^chunk ∧ radix^chunk < p.base := by
  intro chunk
  have hc : ∀ bits ∈ [32, 64], ∀ r ≤ 36, 2 ≤ r → hasOneBitSet r = false →
      2 ≤ r^(bits*32/maxBitsPerChar r) ∧ r^(bits*32/maxBitsPerChar r) < 2^bits ∧
      bits*32/maxBitsPerChar r < 2^bits := by decide
  obtain ⟨hl,hh,he⟩ : 2 ≤ radix^chunk ∧ radix^chunk < p.base ∧ chunk < 2^p.digitBits := by
    simp only [chunk,Platform.base,Platform.digitBits]
    rcases p.width with hw | hw <;> rw [hw]
    all_goals exact hc _ (by decide) radix h36 h2 ho
  rw [digitPow_eq _ _ _ _ (by omega) he,one_mul,mod_eq_of_lt hh]
  exact ⟨rfl,hl,hh⟩

namespace JSBigInt
variable {heap : Storage p} {x : JSBigInt}

theorem digit_eq_div (hx : ∀ d ∈ x.digits, d < p.base) {k : Nat}
    (h : x.magnitude p < p.base^(k+1)) : x.digit k = x.magnitude p/p.base^k := by
  rw [digit,← Base.ofDigits_div_pow_mod p.base_pos hx]
  apply mod_eq_of_lt
  rw [div_lt_iff_lt_mul (Nat.pow_pos p.base_pos),← pow_succ']
  exact h

private theorem divWithDigit_eq (hx : ∀ d ∈ x.digits, d < p.base) {dv : Nat} (h2 : 2 ≤ dv)
    (hd : dv < p.base) : ∃ r, absoluteDivWithDigitDivisor heap x dv = (r, x.magnitude p%dv) ∧
      r.magnitude p = x.magnitude p/dv ∧ ∀ d ∈ r.digits, d < p.base := by
  obtain ⟨hq,hr,hl,hlt⟩ := divWithDigitLoop_spec (by omega) hd x.digits hx
  refine ⟨⟨false,(divWithDigitLoop p dv x.digits).1⟩,?_,hq,hlt⟩
  rw [absoluteDivWithDigitDivisor,if_neg (by omega)]
  exact Prod.ext (setDigits_fresh heap hl) hr

private theorem nonZeroDigit_spec {r : JSBigInt} {dv k : Nat} (h0 : 0 < dv) (hd : dv < p.base)
    (hr : ∀ d ∈ r.digits, d < p.base) (hv : r.magnitude p = x.magnitude p/dv) (hk : 0 < k)
    (hg : p.base^k ≤ x.magnitude p) (hl : x.magnitude p < p.base^(k+1)) :
    let k' := if r.digit k = 0 then k - 1 else k
    p.base^k' ≤ r.magnitude p ∧ r.magnitude p < p.base^(k'+1) := by
  have hle : r.magnitude p < p.base^(k+1) := (hv.trans_le (div_le_self _ _)).trans_lt hl
  rw [digit_eq_div hr hle]
  split_ifs with h
  · obtain ⟨k,rfl⟩ := Nat.exists_eq_add_of_le' hk
    rw [div_eq_zero_iff_lt (Nat.pow_pos p.base_pos)] at h
    refine ⟨?_,h⟩
    rw [hv,Nat.add_sub_cancel,Nat.le_div_iff_mul_le h0]
    calc p.base^k*dv ≤ p.base^k*p.base := mul_le_mul_left _ hd.le
      _ ≤ _ := hg
  · refine ⟨?_,hle⟩
    by_contra hl'
    exact h (Nat.div_eq_of_lt (Nat.lt_of_not_le hl'))

/-- The characters emitted and the last digit hold the number. -/
theorem chunkLoop_spec {radix c : Nat} (h2 : 2 ≤ radix) (hl : 2 ≤ radix^c)
    (hh : radix^c < p.base) (rs : Nat) (x : JSBigInt) (nz : Nat)
    (hx : ∀ d ∈ x.digits, d < p.base) (hp : 0 < nz) (hg : p.base^nz ≤ x.magnitude p)
    (hlt : x.magnitude p < p.base^(nz+1)) (hr : x.magnitude p < 2^rs) :
    let chunks := chunkLoop heap radix c (radix^c) rs x nz
    ofDigits radix chunks.1 + radix^chunks.1.length*chunks.2.digit 0 = x.magnitude p ∧
      (∀ d ∈ chunks.1, d < radix) ∧ chunks.2.digit 0 < p.base := by
  induction rs generalizing x nz with
  | zero =>
    have := pow_pos (n := nz) p.base_pos
    omega
  | succ rs ih =>
    obtain ⟨r,hdv,hv,hrs⟩ := @divWithDigit_eq p heap x hx _ hl hh
    obtain ⟨hg',hlt'⟩ := nonZeroDigit_spec (by omega) hh hrs hv hp hg hlt
    obtain ⟨cv,cl,cd⟩ := emitChunk_spec h2 c _ (mod_lt (x.magnitude p) (by omega))
    have hs := mod_add_div (x.magnitude p) (radix^c)
    rw [chunkLoop,hdv]
    dsimp only at *
    generalize (if r.digit nz = 0 then nz - 1 else nz) = next at *
    -- What the remaining rounds emit, or the last digit, holds the rest.
    have hmr (m : List Nat × JSBigInt)
        (hm : ofDigits radix m.1 + radix^m.1.length*m.2.digit 0 = r.magnitude p ∧
          (∀ d ∈ m.1, d < radix) ∧ m.2.digit 0 < p.base) :
        ofDigits radix (emitChunk radix c (x.magnitude p%radix^c) ++ m.1) +
            radix^(emitChunk radix c (x.magnitude p%radix^c) ++ m.1).length *
              m.2.digit 0 = x.magnitude p ∧
          (∀ d ∈ emitChunk radix c (x.magnitude p%radix^c) ++ m.1, d < radix) ∧
          m.2.digit 0 < p.base := by
      refine ⟨?_,forall_mem_append.2 ⟨cd,hm.2.1⟩,hm.2.2⟩
      rw [ofDigits_append,length_append,cl,cv,pow_add,add_assoc,mul_assoc,← mul_add,hm.1,hv]
      exact hs
    split_ifs with hn
    · apply hmr
      apply ih r next hrs hn hg' hlt'
      rw [hv]
      exact div_lt_two_pow hr hl
    · apply hmr
      obtain rfl := Nat.eq_zero_of_not_pos hn
      rw [digit_eq_div hrs hlt',pow_zero,Nat.div_one]
      exact ⟨by simp,by simp,by simpa using hlt'⟩

theorem rdropWhile_map_radixDigit (ds : List Nat) (h : ∀ d ∈ ds, d < 36) :
    (ds.map radixDigit).rdropWhile (· == zeroChar) = (ds.rdropWhile (· == 0)).map radixDigit := by
  induction ds using reverseRecOn with
  | nil => rfl
  | append_singleton ds d ih =>
    rw [forall_mem_append,forall_mem_singleton] at h
    rw [map_append,map_singleton,rdropWhile_concat,rdropWhile_concat,ih h.1]
    simp only [beq_iff_eq,radixDigit_eq_zeroChar_iff h.2]
    split_ifs <;> simp

private theorem removeLeadingZeroes_eq {text : List Nat} (h : text.rdropWhile (· == zeroChar) ≠ []) :
    removeLeadingZeroes text = text.rdropWhile (· == zeroChar) := by
  obtain _ | ⟨a,text⟩ := text
  · rfl
  · change a :: text.rdropWhile _ = _
    induction text using reverseRecOn with
    | nil =>
      rw [rdropWhile_singleton] at h ⊢
      split_ifs at h ⊢
      · exact absurd rfl h
      · rfl
    | append_singleton text b ih =>
      rw [← cons_append,rdropWhile_concat] at h ⊢
      rw [rdropWhile_concat]
      split_ifs at h ⊢
      · exact ih h
      · rfl

private theorem emitChunks_spec (h : x.Normalized p) (hn : x.digits ≠ []) {radix : Nat} (h2 : 2 ≤ radix)
    (h36 : radix ≤ 36) (ho : hasOneBitSet radix = false) :
    let chunks := emitChunks heap x radix
    ofDigits radix chunks.1 + radix^chunks.1.length*chunks.2 = x.magnitude p ∧
      (∀ d ∈ chunks.1, d < radix) ∧ chunks.2 < p.base := by
  have hln : 0 < x.length := length_pos_iff.2 hn
  have hlt : x.magnitude p < p.base^x.length := magnitude_lt h.digit_lt
  rw [emitChunks]
  split_ifs with hl
  · rw [hl] at hlt
    rw [digit_eq_div h.digit_lt hlt,pow_zero,Nat.div_one]
    exact ⟨by simp,by simp,by simpa using hlt⟩
  · obtain ⟨hp,hlw,hh⟩ := @chunkDivisor_spec p radix h2 h36 ho
    dsimp only at *
    rw [hp]
    apply chunkLoop_spec h2 hlw hh _ _ _ h.digit_lt (by omega) (h.magnitude_ge hn)
    · rwa [Nat.sub_add_cancel hln]
    · rwa [mul_comm,pow_mul]

private theorem removeLeadingZeroes_digits {radix : Nat} (h2 : 2 ≤ radix) (h36 : radix ≤ 36) {ds : List Nat}
    (h : ∀ d ∈ ds, d < radix) (hn : ofDigits radix ds ≠ 0) :
    removeLeadingZeroes (ds.map radixDigit) = (Nat.digits radix (Nat.ofDigits radix ds)).map radixDigit := by
  have hdg := Base.digits_ofDigits_eq_rdropWhile (by omega) h
  have ht := rdropWhile_map_radixDigit ds fun d hd => (h d hd).trans_le h36
  rw [removeLeadingZeroes_eq,ht,hdg]
  rw [ht,← hdg,Ne,map_eq_nil_iff]
  exact digits_ne_nil_iff_ne_zero.2 hn

private theorem toStringGeneric_eq (h : x.Normalized p) (hn : x.digits ≠ []) {radix : Nat} (h2 : 2 ≤ radix)
    (h36 : radix ≤ 36) (ho : hasOneBitSet radix = false) :
    toStringGeneric heap x radix = .ok (numeral radix (x.toInt p)) := by
  have hm : x.magnitude p ≠ 0 := fun he => hn ((magnitude_eq_zero_iff h).1 he)
  have hf : ¬ maxStringLength <
      calculateMaximumCharactersRequired p x.length radix (x.digit (x.length-1)) x.sign := by
    have hb := bitLength_le h (x.digit (x.length-1))
    have hmn : ∀ r ≤ 36, 2 ≤ r → 31 ≤ maxBitsPerChar r - 1 ∧ maxBitsPerChar r - 1 ≤ 165 := by decide
    obtain ⟨hmn,hmx⟩ := hmn radix h36 h2
    have hs := Bool.toNat_le x.sign
    simp only [calculateMaximumCharactersRequired,bitsPerCharTableMultiplier,bitsPerCharTableShift,maxStringLength]
    have hdv := div_le_self (bitLength p x.length (x.digit (x.length-1))*2^5+(maxBitsPerChar radix-1-1))
      (maxBitsPerChar radix-1)
    omega
  obtain ⟨hv,hd,hl⟩ := @emitChunks_spec p heap x h hn radix h2 h36 ho
  obtain ⟨lv,ld⟩ := emitLast_spec h2 p.digitBits _ hl p.digitBits_pos
  rw [toStringGeneric,if_neg hf,numeral_toInt h hn]
  dsimp only at *
  have hvl : ofDigits radix ((emitChunks heap x radix).1 ++ emitLast radix p.digitBits (emitChunks heap x radix).2) =
      x.magnitude p := by
    rw [ofDigits_append,lv,hv]
  rw [removeLeadingZeroes_digits h2 h36 (forall_mem_append.2 ⟨hd,ld⟩) (by rwa [hvl]),hvl]

/-- Conversion to text never throws and gives the canonical numeral. -/
theorem toString_eq (h : x.Normalized p) {radix : Nat} (h2 : 2 ≤ radix) (h36 : radix ≤ 36) :
    toString heap x radix = .ok (numeral radix (x.toInt p)) := by
  rw [toString]
  split_ifs with hz ho
  · rw [isZero_iff] at hz
    have hv : x.toInt p = 0 := by simp [toInt,magnitude,hz,signedValue]
    rw [hv]
    rfl
  · have hpw : ∀ r ≤ 36, 2 ≤ r → hasOneBitSet r → r = 2^ctz32 r ∧ 0 < ctz32 r ∧ ctz32 r ≤ 5 := by decide
    obtain ⟨hr,hp,hb⟩ := hpw radix h36 h2 ho
    exact toStringBasePowerOfTwo_eq h (fun he => hz ((isZero_iff x).2 he)) hr rfl hp hb
  · exact toStringGeneric_eq h (fun he => hz ((isZero_iff x).2 he)) h2 h36 (Bool.eq_false_of_not_eq_true ho)

variable {spaceSeparator : Nat → Bool}

private theorem significant_magnitudeNumeral {radix n : Nat} (h2 : 2 ≤ radix) (h36 : radix ≤ 36) (hn : n ≠ 0) :
    significant spaceSeparator (magnitudeNumeral radix n) = magnitudeNumeral radix n := by
  have hf : (magnitudeNumeral radix n).dropWhile (· == zeroChar) = magnitudeNumeral radix n := by
    have hdg := Base.digits_ofDigits_eq_rdropWhile (by omega)
      (fun d hd => digits_lt_base (by omega) hd : ∀ d ∈ Nat.digits radix n, d < radix)
    rw [ofDigits_digits] at hdg
    have ht := rdropWhile_map_radixDigit (Nat.digits radix n)
      (fun d hd => digits_lt_of_radix h2 h36 n d (mem_reverse.2 hd))
    rw [← hdg] at ht
    apply reverse_injective
    rw [← rdropWhile_reverse,magnitudeNumeral,if_neg hn,map_reverse,reverse_reverse,ht]
  have hl : (magnitudeNumeral radix n).rdropWhile (isStrWhiteSpace spaceSeparator) = magnitudeNumeral radix n := by
    have hk (c : Nat) (hc : c ∈ magnitudeNumeral radix n) : isStrWhiteSpace spaceSeparator c = false :=
      isStrWhiteSpace_of_isDigit (magnitudeNumeral_isDigit h2 h36 n c hc)
    simpa using Base.rdropWhile_append_of_kept hk []
  rw [significant,hf,hl]

def signMode (sign : Bool) : ParseIntSign := if sign then .signed else .unsigned

private theorem signMode_beq (sign : Bool) : (signMode sign == .signed) = sign := by cases sign <;> rfl

/-- Parsing a canonical numeral: exact, unless the size estimate exceeds the largest cell. -/
theorem parseIntRadix_magnitudeNumeral (heap : Storage p) (spaceSeparator : Nat → Bool) {radix : Nat} (h2 : 2 ≤ radix)
    (h36 : radix ≤ 36) (hx : x.Normalized p) (m : ErrorParseMode) :
    parseIntRadix heap spaceSeparator (magnitudeNumeral radix (x.magnitude p)) radix m (signMode x.sign) =
      if EstimateFits p radix (magnitudeNumeral radix (x.magnitude p)).length then .ok (some x)
      else .error .outOfMemory := by
  rw [parseIntRadix,parseIntFrom,drop_zero]
  by_cases hm : x.magnitude p = 0
  · have ho : EstimateFits p radix 1 := by
      have hb : ∀ r ≤ 36, maxBitsPerChar r ≤ 166 := by decide
      have hl := hb radix h36
      simp only [EstimateFits,Platform.maxLength,Platform.digitBits,bitsPerCharTableMultiplier,bitsPerCharTableShift]
      rcases p.width with hw | hw <;> rw [hw] <;> omega
    have hz : createZero = x := by
      refine createZero_represents.unique ⟨hx,?_⟩
      rw [toInt,hm,signedValue_zero]
    rw [hm,if_pos (show EstimateFits p radix (magnitudeNumeral radix 0).length from ho),← hz]
    rfl
  · have hn : magnitudeNumeral radix (x.magnitude p) ≠ [] := by
      rw [magnitudeNumeral,if_neg hm,Ne,map_eq_nil_iff,reverse_eq_nil_iff]
      exact digits_ne_nil_iff_ne_zero.2 hm
    rw [if_neg fun h => (length_pos_iff.2 hn).ne h.2]
    rw [significant_magnitudeNumeral h2 h36 hm,if_neg hn]
    split_ifs with hf
    · obtain ⟨r,hr,hv⟩ := @parseDigits_accepts p heap radix _ h2 h36 hn (magnitudeNumeral_isDigit h2 h36 _) hf m
        (signMode x.sign)
      rw [signMode_beq,numeralValue_magnitudeNumeral h2 h36] at hv
      rw [hr,hv.unique hx.represents]
    · exact parseDigits_of_not_fits h2 h36 hf m _

/-- Conversion to text and back: the text is the canonical numeral in every radix, and parsing its
digits returns the number whenever the parser's size estimate fits in the largest cell. -/
theorem toString_parseInt (heap : Storage p) (spaceSeparator : Nat → Bool) (x : NormalizedBigInt p) (radix : Nat)
    (h2 : 2 ≤ radix) (h36 : radix ≤ 36) :
    toString heap x.1 radix = .ok (numeral radix (x.1.toInt p)) ∧
      ∀ mode, parseIntRadix heap spaceSeparator (magnitudeNumeral radix (x.1.toInt p).natAbs) radix mode
          (signMode x.1.sign) =
        if EstimateFits p radix (magnitudeNumeral radix (x.1.toInt p).natAbs).length then .ok (some x.1)
        else .error .outOfMemory := by
  have ha : (x.1.toInt p).natAbs = x.1.magnitude p := by
    rw [toInt]
    cases x.1.sign <;> simp [signedValue]
  rw [ha]
  exact ⟨toString_eq x.2 h2 h36,parseIntRadix_magnitudeNumeral heap spaceSeparator h2 h36 x.2⟩

theorem toString_parseInt_hex : toString (onesStorage platform64) ⟨true,[255]⟩ 16 = .ok (['-', 'f', 'f'].map Char.toNat) ∧
    parseIntRadix (onesStorage platform64) (fun _ => false) (['f', 'f'].map Char.toNat) 16 .throwExceptions .signed =
      .ok (some ⟨true,[255]⟩) := by
  have h := toString_parseInt (onesStorage platform64) (fun _ => false) ⟨⟨true,[255]⟩,by decide⟩ 16 (by decide) (by decide)
  exact ⟨h.1.trans (by decide),(h.2 .throwExceptions).trans (by decide)⟩

/-- The largest power of two that a cell holds in a 64-bit build. -/
def largestPower : JSBigInt := ⟨false,replicate 16383 0 ++ [2^63]⟩

private theorem largestPower_normalized : largestPower.Normalized platform64 := by
  have hb : platform64.base = 2^64 := rfl
  refine ⟨?_,?_,fun _ => rfl,?_⟩
  · rw [hb]
    refine forall_mem_append.2 ⟨fun d hd => ?_,forall_mem_singleton.2 (by norm_num)⟩
    rw [eq_of_mem_replicate hd]
    norm_num
  · intro hn
    rw [show largestPower.digits.getLast hn = 2^63 from getLast_append_singleton _]
    norm_num
  · rw [largestPower,length_append,length_replicate,length_singleton]
    decide

private theorem largestPower_magnitude : largestPower.magnitude platform64 = 8^349525 := by
  rw [magnitude,largestPower,ofDigits_append,ofDigits_replicate_zero,length_replicate,
    ofDigits_singleton,zero_add,show platform64.base = 2^64 from rfl,← pow_mul,← pow_add,
    show (8 : Nat) = 2^3 from rfl,← pow_mul]

/-- The octal numeral of that number needs one bit more by the parser's estimate than a cell holds. -/
theorem parseInt_rejects_largest_octal : largestPower.Normalized platform64 ∧
      toString (onesStorage platform64) largestPower 8 = .ok (numeral 8 (largestPower.toInt platform64)) ∧
      numeral 8 (largestPower.toInt platform64) = magnitudeNumeral 8 (largestPower.magnitude platform64) ∧
      parseIntRadix (onesStorage platform64) (fun _ => false) (magnitudeNumeral 8 (largestPower.magnitude platform64)) 8
        .throwExceptions .unsigned = .error .outOfMemory := by
  have hm : largestPower.magnitude platform64 ≠ 0 := by
    rw [largestPower_magnitude]
    exact pow_ne_zero _ (by decide)
  have hl : 349525 < (magnitudeNumeral 8 (largestPower.magnitude platform64)).length := by
    rw [magnitudeNumeral,if_neg hm,length_map,length_reverse,lt_digits_length_iff (by decide),
      largestPower_magnitude]
  have hf : ¬ EstimateFits platform64 8 (magnitudeNumeral 8 (largestPower.magnitude platform64)).length := by
    rw [EstimateFits,show maxBitsPerChar 8 = 96 from rfl,
      show bitsPerCharTableMultiplier*(platform64.maxLength*platform64.digitBits) = 33554432 from rfl]
    omega
  refine ⟨largestPower_normalized,toString_eq largestPower_normalized (by decide) (by decide),?_,?_⟩
  · have hi : largestPower.toInt platform64 = (largestPower.magnitude platform64 : Int) := rfl
    rw [hi,numeral,if_neg (Int.natCast_nonneg _).not_gt,nil_append,Int.natAbs_natCast]
  · have h := parseIntRadix_magnitudeNumeral (onesStorage platform64) (fun _ => false) (show 2 ≤ 8 by decide)
      (by decide) largestPower_normalized .throwExceptions
    rwa [if_neg hf] at h

end JSBigInt
end

end WebKit.JavaScriptCore.BigInt
