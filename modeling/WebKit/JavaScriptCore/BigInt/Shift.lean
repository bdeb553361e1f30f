import Mathlib.Data.Rat.Floor
import WebKit.JavaScriptCore.BigInt.Additive
import WebKit.JavaScriptCore.BigInt.DigitShift

/-! Shifts of BigInts and when they are exact. -/
namespace WebKit.JavaScriptCore.BigInt
open List Nat
namespace JSBigInt
variable {p : Platform} (heap : Storage p)

def absoluteAddOne (x : JSBigInt) (signed : Bool) : Except Exception JSBigInt := do
  let willOverflow := x.digits.all (· == p.base - 1)
  let result ← tryCreateWithLength heap (if willOverflow then x.length+1 else x.length)
  let sum := addLoop p x.digits [] 1
  let result := result.setDigits (if willOverflow then sum.1 ++ [sum.2] else sum.1)
  return rightTrim heap (result.setSign signed)

def toShiftAmount (p : Platform) (x : JSBigInt) : Option Nat :=
  if 1 < x.length then none
  else
    let value := x.digit 0
    if p.maxLengthBits < value then none else some value

def rightShiftByMaximum (sign : Bool) : JSBigInt :=
  if sign then ((createWithLengthUnchecked heap 1).setDigits [1]).setSign true else createZero

def leftShiftByAbsolute (x y : JSBigInt) : Except Exception JSBigInt :=
  match toShiftAmount p y with
  | none => .error (.rangeError "BigInt generated from this operation is too big")
  | some shift =>
    let digitShift := shift/p.digitBits
    let bitsShift := shift%p.digitBits
    let grow := bitsShift != 0 && x.digit (x.length-1) >>> (p.digitBits-bitsShift) != 0
    let resultLength := x.length + digitShift + if grow then 1 else 0
    if p.maxLength < resultLength then .error (.rangeError "BigInt generated from this operation is too big")
    else do
      let result ← tryCreateWithLength heap resultLength
      let shifted := leftShiftLoop p bitsShift x.digits 0
      let result := result.setDigits (List.replicate digitShift 0 ++
        if bitsShift = 0 then x.digits else shifted.1 ++ if grow then [shifted.2] else [])
      return rightTrim heap (result.setSign x.sign)

/-- Whether a bit is shifted out of a negative number. -/
def mustRoundDown (x : JSBigInt) (digitalShift bitsShift : Nat) : Bool :=
  x.sign && (x.digit digitalShift &&& (1 <<< bitsShift - 1) != 0 || (x.digits.take digitalShift).any (· != 0))

def rightShiftByAbsolute (x y : JSBigInt) : Except Exception JSBigInt :=
  match toShiftAmount p y with
  | none => .ok (rightShiftByMaximum heap x.sign)
  | some shift =>
    let digitalShift := shift/p.digitBits
    let bitsShift := shift%p.digitBits
    if x.length ≤ digitalShift then .ok (rightShiftByMaximum heap x.sign)
    else
      let mustRoundDown := mustRoundDown x digitalShift bitsShift
      -- The rounded result can need one digit more when the leading digit has all bits set.
      let roundingCanOverflow := mustRoundDown && bitsShift == 0 && x.digit (x.length-1) == p.base - 1
      let resultLength := x.length - digitalShift + if roundingCanOverflow then 1 else 0
      let result := (createWithLengthUnchecked heap resultLength).setDigits
        (if bitsShift = 0 then x.digits.drop digitalShift
          else rightShiftLoop p bitsShift (x.digit digitalShift >>> bitsShift) (x.digits.drop (digitalShift+1)))
      if x.sign then
        if mustRoundDown then absoluteAddOne heap (rightTrim heap (result.setSign true)) true
        else .ok (rightTrim heap (result.setSign true))
      else .ok (rightTrim heap result)

def leftShift (x y : JSBigInt) : Except Exception JSBigInt :=
  if y.isZero || x.isZero then .ok x
  else if y.sign then rightShiftByAbsolute heap x y
  else leftShiftByAbsolute heap x y

def signedRightShift (x y : JSBigInt) : Except Exception JSBigInt :=
  if y.isZero || x.isZero then .ok x
  else if y.sign then leftShiftByAbsolute heap x y
  else rightShiftByAbsolute heap x y

/-- The value a shift is meant to have. -/
def shiftFloor (v k : Int) : Int := ⌊(v : ℚ)*2^k⌋

/-- A digit is reserved for rounding and never written: a negative number with an all-ones leading digit, shifted right by whole
digits, of which one is not zero. -/
def ReservesDigit (p : Platform) (x : JSBigInt) (shift : Nat) : Prop :=
  x.sign = true ∧ shift%p.digitBits = 0 ∧ shift/p.digitBits < x.length ∧
    (∃ d ∈ x.digits.take (shift/p.digitBits), d ≠ 0) ∧ x.digit (x.length-1) = p.base - 1

instance (p : Platform) (x : JSBigInt) (shift : Nat) : Decidable (ReservesDigit p x shift) := by
  unfold ReservesDigit
  infer_instance

private theorem shiftFloor_natCast (v : Int) (n : Nat) : shiftFloor v n = v*2^n := by
  unfold shiftFloor
  exact_mod_cast Int.floor_intCast (v*2^n)

theorem shiftFloor_neg_natCast (v : Int) (n : Nat) : shiftFloor v (-n) = v/2^n := by
  unfold shiftFloor
  rw [zpow_neg,zpow_natCast,← div_eq_mul_inv]
  have := Rat.floor_intCast_div_natCast v (2^n)
  push_cast at this
  exact this

section
variable {x y : JSBigInt}

private theorem all_max_of_value (dg : List Nat) (hd : ∀ d ∈ dg, d < p.base)
    (h : p.base^dg.length ≤ ofDigits p.base dg + 1) : ∀ d ∈ dg, d = p.base - 1 := by
  induction dg with
  | nil => simp
  | cons d ds ih =>
    obtain ⟨hdd,hr⟩ := forall_mem_cons.1 hd
    have hlt := ofDigits_lt_base_pow_length (by have := p.base_ge; omega) hr
    rw [length_cons,pow_succ',ofDigits_cons] at h
    have hl := mul_le_mul_left p.base (succ_le_of_lt hlt)
    rw [succ_eq_add_one,mul_add] at hl
    have hp : p.base^ds.length ≤ ofDigits p.base ds + 1 := by
      refine Nat.le_of_mul_le_mul_left (c := p.base) ?_ p.base_pos
      rw [mul_add]
      omega
    exact forall_mem_cons.2 ⟨by omega,ih hr hp⟩

/-- Adding one is exact unless the additional digit exceeds the limit. -/
theorem absoluteAddOne_spec (hx : x.Normalized p) (s : Bool) :
    Yields p (signedValue s (x.magnitude p+1)) (x.digits.all (· == p.base - 1) ∧ p.maxLength < x.length + 1)
      (absoluteAddOne heap x s) := by
  obtain ⟨hv,hl,hd,hc⟩ := addLoop_spec x.digits [] 1 (zero_le _) hx.digit_lt (by simp) le_rfl
  unfold absoluteAddOne
  dsimp only
  generalize addLoop p x.digits [] 1 = sm at *
  rw [ofDigits_nil,add_zero] at hv
  by_cases ha : x.digits.all (· == p.base - 1)
  · rw [if_pos ha,if_pos ha]
    unfold tryCreateWithLength
    split
    next hlm => exact ⟨rfl,ha,hlm⟩
    next hlm =>
      have hB := p.base_ge
      refine trimmed_represents heap s (createWithLength_length heap _) (by simp [hl,length])
        (forall_mem_append.2 ⟨hd,forall_mem_singleton.2 (by omega)⟩) (succ_pos _)
        (Nat.le_of_not_lt hlm) ?_
      rw [ofDigits_append,ofDigits_singleton,hl,hv]
      rfl
  · rw [if_neg ha,if_neg ha]
    have hne : 0 < x.length := by
      by_contra h
      have hn : x.digits = [] := length_eq_zero_iff.1 (le_zero.1 (Nat.le_of_not_lt h))
      simp [hn] at ha
    have hcr : sm.2 = 0 := by
      by_contra h
      have hf := all_max_of_value x.digits hx.digit_lt (by
        have := mul_le_mul_left (p.base^x.digits.length) (pos_of_ne_zero h)
        omega)
      exact ha (all_eq_true.2 fun d hd => beq_iff_eq.2 (hf d hd))
    unfold tryCreateWithLength
    rw [if_neg (show ¬p.maxLength < x.length from not_lt.2 hx.length_le)]
    refine trimmed_represents heap s (createWithLength_length heap _) hl hd hne hx.length_le ?_
    rw [hcr,mul_zero,add_zero] at hv
    exact hv

theorem toShiftAmount_eq (hy : y.Normalized p) (hn : y.digits ≠ []) :
    toShiftAmount p y = if p.maxLengthBits < y.magnitude p then none else some (y.magnitude p) := by
  unfold toShiftAmount
  have hps : 0 < y.length := length_pos_of_ne_nil hn
  split
  next h =>
    have hg := hy.magnitude_ge hn
    have hp := Nat.pow_le_pow_right p.base_pos (show 1 ≤ y.length - 1 by omega)
    rw [pow_one] at hp
    have := p.maxLengthBits_lt_base
    rw [if_pos (by omega)]
  next h =>
    obtain ⟨d,hd⟩ := length_eq_one_iff.1 (show y.digits.length = 1 by unfold length at *; omega)
    have h0 : y.digit 0 = d := by simp [digit,hd]
    have hm : y.magnitude p = d := by rw [magnitude,hd,ofDigits_singleton]
    rw [h0,hm]

theorem two_pow_shift (p : Platform) (shift : Nat) :
    2^shift = p.base^(shift/p.digitBits)*2^(shift%p.digitBits) := by
  nth_rewrite 1 [← div_add_mod shift p.digitBits]
  rw [pow_add,pow_mul]
  rfl

private theorem ofDigits_replicate_append (k : Nat) (digits : List Nat) :
    ofDigits p.base (List.replicate k 0 ++ digits) = p.base^k*ofDigits p.base digits := by
  have hz : ofDigits p.base (List.replicate k 0) = 0 := by
    induction k with
    | zero => rfl
    | succ k ih => rw [replicate_succ,Nat.ofDigits_cons,ih,Nat.mul_zero]
  rw [ofDigits_append,hz,length_replicate,zero_add]

/-- The bits that leave the number are those that leave its leading digit. -/
theorem leftShiftLoop_carry (dg : List Nat) (b c : Nat) (hn : dg ≠ []) :
    (leftShiftLoop p b dg c).2 = dg.getD (dg.length-1) 0 >>> (p.digitBits-b) := by
  induction dg generalizing c with
  | nil => exact absurd rfl hn
  | cons d ds ih =>
    rw [leftShiftLoop]
    cases ds with
    | nil => simp [leftShiftLoop]
    | cons e es =>
      rw [ih _ (by simp)]
      simp

private theorem leftShift_written (hx : x.Normalized p) (hn : x.digits ≠ []) {bits : Nat} (hs : bits ≤ p.digitBits) :
    let grow := bits != 0 && x.digit (x.length-1) >>> (p.digitBits-bits) != 0
    let shifted := leftShiftLoop p bits x.digits 0
    let out := if bits = 0 then x.digits else shifted.1 ++ if grow then [shifted.2] else []
    out.length = x.length + (if grow then 1 else 0) ∧ (∀ d ∈ out, d < p.base) ∧
      ofDigits p.base out = x.magnitude p*2^bits := by
  obtain ⟨hv,hl,hd,hc⟩ := leftShiftLoop_spec hs x.digits 0 hx.digit_lt (Nat.two_pow_pos _)
  have hcr := leftShiftLoop_carry (p := p) x.digits bits 0 hn
  change _ = x.digit (x.length-1) >>> _ at hcr
  rw [← hcr]
  generalize leftShiftLoop p bits x.digits 0 = shifted at *
  by_cases h0 : bits = 0
  · simp only [h0,if_true,bne_self_eq_false,Bool.false_and,Bool.false_eq_true,if_false,add_zero,pow_zero,mul_one]
    exact ⟨rfl,hx.digit_lt,rfl⟩
  · by_cases hg : shifted.2 = 0
    · rw [hg,mul_zero,add_zero] at hv
      simp only [h0,hg,if_false,bne_self_eq_false,Bool.and_false,Bool.false_eq_true,append_nil,add_zero]
      exact ⟨hl,hd,hv⟩
    · have ht : shifted.2 < p.base := hc.trans_le (Nat.pow_le_pow_right (by omega) hs)
      simp only [h0,if_false,bne_iff_ne.2 h0,bne_iff_ne.2 hg,Bool.and_self,if_true]
      refine ⟨by simp [hl,length],forall_mem_append.2 ⟨hd,forall_mem_singleton.2 ht⟩,?_⟩
      rw [ofDigits_append,hl,ofDigits_singleton,hv]
      rfl

/-- A shift to the left multiplies, when it does not throw. -/
theorem leftShiftByAbsolute_spec (hx : x.Normalized p) (hxn : x.digits ≠ []) (hy : y.Normalized p)
    (hyn : y.digits ≠ []) {r : JSBigInt} (h : leftShiftByAbsolute heap x y = .ok r) :
    Represents p r (x.toInt p*2^y.magnitude p) := by
  unfold leftShiftByAbsolute at h
  rw [toShiftAmount_eq hy hyn] at h
  by_cases hm : p.maxLengthBits < y.magnitude p
  · simp [hm] at h
  rw [if_neg hm] at h
  generalize y.magnitude p = shift at *
  have hp : 0 < x.length := length_pos_of_ne_nil hxn
  obtain ⟨hl,hd,hv⟩ := leftShift_written hx hxn (mod_lt shift p.digitBits_pos).le
  dsimp only at h hl hd hv
  generalize (if (shift%p.digitBits != 0 &&
    x.digit (x.length-1) >>> (p.digitBits-shift%p.digitBits) != 0) then 1 else 0) = grow at *
  by_cases hlm : p.maxLength < x.length + shift/p.digitBits + grow
  · simp [hlm] at h
  rw [if_neg hlm] at h
  unfold tryCreateWithLength at h
  rw [if_neg hlm] at h
  cases h
  have ht : x.toInt p*2^shift = signedValue x.sign (x.magnitude p*2^shift) := by
    unfold toInt
    cases x.sign <;> simp [signedValue]
  rw [ht]
  refine trimmed_represents heap x.sign (createWithLength_length heap _) ?_ ?_
    (Nat.add_pos_left (Nat.add_pos_left hp _) _) (Nat.le_of_not_lt hlm) ?_
  · rw [length_append,hl,length_replicate]
    omega
  · exact forall_mem_append.2 ⟨fun d hd => eq_of_mem_replicate hd ▸ p.base_pos,hd⟩
  · rw [ofDigits_replicate_append,hv,two_pow_shift p shift]
    ring

private theorem ofDigits_eq_zero_iff (dg : List Nat) : ofDigits p.base dg = 0 ↔ ∀ d ∈ dg, d = 0 := by
  have hB := p.base_pos
  induction dg with
  | nil => simp
  | cons d ds ih =>
    simp [ofDigits_cons,hB.ne',ih]

theorem exists_shift_split {dshift : Nat} (hlt : dshift < x.length) :
    ∃ l d high, x.digits = l ++ d :: high ∧ l.length = dshift ∧ x.digit dshift = d ∧
      x.digits.take dshift = l ∧ x.digits.drop dshift = d::high := by
  have hl : (x.digits.take dshift).length = dshift := by
    rw [length_take]
    unfold length at hlt
    omega
  obtain ⟨d,high,hdr⟩ := exists_cons_of_length_pos
    (show 0 < (x.digits.drop dshift).length by rw [length_drop]; unfold length at hlt; omega)
  have hs : x.digits = x.digits.take dshift ++ d::high := by rw [← hdr,take_append_drop]
  refine ⟨_,d,high,hs,hl,?_,rfl,hdr⟩
  rw [digit,hs,getD_append_right _ _ _ _ hl.le,hl,Nat.sub_self]
  rfl

variable {shift : Nat}

theorem rightShift_written (hx : x.Normalized p) (hlt : shift/p.digitBits < x.length) :
    let dshift := shift/p.digitBits
    let bits := shift%p.digitBits
    let out := if bits = 0 then x.digits.drop dshift
      else rightShiftLoop p bits (x.digit dshift >>> bits) (x.digits.drop (dshift+1))
    out.length = x.length - dshift ∧ (∀ d ∈ out, d < p.base) ∧ ofDigits p.base out = x.magnitude p/2^shift := by
  intro dshift bits out
  have hs : bits ≤ p.digitBits := (mod_lt _ p.digitBits_pos).le
  obtain ⟨l,d,high,hdg,h,hf,-,hdr⟩ := exists_shift_split hlt
  have hd := hx.digit_lt
  rw [hdg] at hd
  obtain ⟨hlo,hh⟩ := forall_mem_append.1 hd
  have hln : x.length - dshift = high.length + 1 := by
    rw [length,hdg,length_append,h]
    exact Nat.add_sub_cancel_left _ _
  have hv : x.magnitude p/2^shift = ofDigits p.base (d::high)/2^bits := by
    have hlw := ofDigits_lt_base_pow_length (by have := p.base_ge; omega) hlo
    rw [two_pow_shift p shift,← Nat.div_div_eq_div_mul,magnitude,hdg,Nat.ofDigits_append,h]
    rw [h] at hlw
    rw [Nat.add_mul_div_left _ _ (Nat.pow_pos p.base_pos),div_eq_of_lt hlw,Nat.zero_add]
  rw [hv,hln]
  by_cases h0 : bits = 0
  · have hw : out = d::high := (if_pos h0).trans hdr
    rw [hw,h0,pow_zero,Nat.div_one]
    exact ⟨rfl,hh,rfl⟩
  · have hr : x.digits.drop (dshift+1) = high := by
      rw [← drop_drop,hdr,drop_one,tail_cons]
    have hw : out = rightShiftLoop p bits (d >>> bits) high := by
      rw [← hf,← hr]
      exact if_neg h0
    obtain ⟨hdd,hhd⟩ := forall_mem_cons.1 hh
    obtain ⟨-,hl,hlt⟩ := rightShiftLoop_spec hs (d >>> bits) high hhd (digit_shiftRight_lt hs hdd)
    rw [hw]
    exact ⟨hl,hlt,rightShiftLoop_value hs hh⟩

/-- Rounding is needed just when the number is negative and no multiple of the power. -/
theorem mustRoundDown_eq (hx : x.Normalized p) (hlt : shift/p.digitBits < x.length) :
    mustRoundDown x (shift/p.digitBits) (shift%p.digitBits) = (x.sign && decide (x.magnitude p%2^shift ≠ 0)) := by
  obtain ⟨l,d,h,hdg,hlw,hf,ht,-⟩ := exists_shift_split hlt
  have hs : shift%p.digitBits ≤ p.digitBits := (mod_lt _ p.digitBits_pos).le
  have hd := hx.digit_lt
  rw [hdg] at hd
  have hl := ofDigits_lt_base_pow_length (by have := p.base_ge; omega) (forall_mem_append.1 hd).1
  have hb : ofDigits p.base (d::h)%2^(shift%p.digitBits) = d%2^(shift%p.digitBits) := by
    rw [ofDigits_cons]
    rw [p.base_split hs,mul_assoc,add_mul_mod_self_left]
  have hm : x.magnitude p%2^shift = 0 ↔ d%2^(shift%p.digitBits) = 0 ∧ ∀ e ∈ l, e = 0 := by
    rw [two_pow_shift p shift,mod_mul,magnitude,hdg,ofDigits_append,hlw]
    rw [hlw] at hl
    rw [add_mul_mod_self_left,mod_eq_of_lt hl,Nat.add_mul_div_left _ _ (Nat.pow_pos p.base_pos),
      div_eq_of_lt hl,Nat.zero_add,hb,Nat.add_eq_zero_iff,mul_eq_zero,ofDigits_eq_zero_iff]
    simp [p.base_pos.ne',and_comm]
  unfold mustRoundDown
  rw [hf,ht,one_shiftLeft,and_two_pow_sub_one_eq_mod]
  congr 1
  rw [Bool.eq_iff_iff,decide_eq_true_iff,ne_eq,hm]
  simp [imp_iff_not_or]

theorem signedValue_floor (sign : Bool) (m k : Nat) : signedValue sign m/2^k =
      if (sign && decide (m%2^k ≠ 0)) then signedValue true (m/2^k+1) else signedValue sign (m/2^k) := by
  have hc : ((m : Int)/2^k) = ((m/2^k : Nat) : Int) := by rfl
  cases sign with
  | false => simp [signedValue]
  | true =>
    have hdv : (2^k : Int) ∣ m ↔ m%2^k = 0 := by
      rw [← dvd_iff_mod_eq_zero]
      exact_mod_cast Int.natCast_dvd_natCast (m := 2^k) (n := m)
    simp only [signedValue,if_true,Bool.true_and,decide_eq_true_iff,Int.neg_ediv,hdv,
      Int.sign_eq_one_of_pos (show (0 : Int) < 2^k by positivity),hc]
    by_cases h : m%2^k = 0
    · omega
    · rw [if_neg h,if_pos h,cast_succ]
      omega

theorem Represents.magnitude_eq {sign : Bool} {n : Nat} (h : Represents p x (signedValue sign n)) :
    x.magnitude p = n := by
  have hv := congrArg Int.natAbs h.value
  unfold toInt at hv
  cases sign <;> cases hs : x.sign <;> simpa [signedValue,hs] using hv

private theorem rightShiftByMaximum_represents (hx : x.Normalized p) (hn : x.digits ≠ []) (hlt : x.magnitude p < 2^shift) :
    Represents p (rightShiftByMaximum heap x.sign) (x.toInt p/2^shift) := by
  have hp : x.magnitude p ≠ 0 := (magnitude_eq_zero_iff hx).not.2 hn
  have hB := p.base_ge
  have hl := hx.length_le
  have ho := length_pos_of_ne_nil hn
  rw [toInt,signedValue_floor,div_eq_of_lt hlt,mod_eq_of_lt hlt]
  unfold rightShiftByMaximum
  cases x.sign with
  | false => simpa using createZero_represents
  | true =>
    rw [setDigits_fresh heap (show [1].length = 1 from rfl)]
    simp only [hp,ne_eq,not_false_eq_true,decide_true,Bool.and_self,if_true]
    refine ⟨⟨?_,by simp [setSign],by simp [setSign],?_⟩,?_⟩
    · intro d hd
      simp only [setSign,mem_singleton] at hd
      omega
    · change 1 ≤ p.maxLength
      omega
    · simp [toInt,magnitude,setSign,signedValue]

/-- The additional digit is reserved for just the shapes named above. -/
theorem roundingCanOverflow_iff (hl : shift/p.digitBits < x.length) :
    (mustRoundDown x (shift/p.digitBits) (shift%p.digitBits) && shift%p.digitBits == 0 &&
      x.digit (x.length-1) == p.base - 1) ↔ ReservesDigit p x shift := by
  unfold ReservesDigit mustRoundDown
  simp only [Bool.and_eq_true,beq_iff_eq,Bool.or_eq_true,bne_iff_ne,any_eq_true]
  constructor
  · rintro ⟨⟨⟨hs,hb⟩,h0⟩,hm⟩
    refine ⟨hs,h0,hl,?_,hm⟩
    simpa [h0] using hb
  · rintro ⟨hs,h0,-,hdg,hm⟩
    exact ⟨⟨⟨hs,.inr hdg⟩,h0⟩,hm⟩

/-- A right shift is exact for every other shape. -/
theorem rightShiftByAbsolute_exact (hx : x.Normalized p) (hxn : x.digits ≠ []) (hy : y.Normalized p)
    (hyn : y.digits ≠ []) (hrs : ¬ReservesDigit p x (y.magnitude p)) {r : JSBigInt}
    (h : rightShiftByAbsolute heap x y = .ok r) : Represents p r (x.toInt p/2^y.magnitude p) := by
  unfold rightShiftByAbsolute at h
  rw [toShiftAmount_eq hy hyn] at h
  generalize y.magnitude p = shift at *
  have hm := magnitude_lt hx.digit_lt
  have hb : p.base^x.length = 2^(p.digitBits*x.length) := by rw [pow_mul]; rfl
  by_cases hmx : p.maxLengthBits < shift
  · rw [if_pos hmx] at h
    cases h
    refine rightShiftByMaximum_represents heap hx hxn (hm.trans_le ?_)
    rw [hb]
    have h1 := mul_le_mul_right p.digitBits hx.length_le
    have h2 := p.maxLength_mul_digitBits_le
    exact Nat.pow_le_pow_right (by omega) (by rw [mul_comm,length]; omega)
  rw [if_neg hmx] at h
  dsimp only at h
  by_cases hln : x.length ≤ shift/p.digitBits
  · rw [if_pos hln] at h
    cases h
    refine rightShiftByMaximum_represents heap hx hxn (hm.trans_le ?_)
    rw [hb]
    refine Nat.pow_le_pow_right (by omega) ((mul_le_mul_left _ hln).trans (mul_div_le _ _))
  rw [if_neg hln] at h
  have hlt : shift/p.digitBits < x.length := Nat.lt_of_not_le hln
  obtain ⟨hl,hd,hv⟩ := rightShift_written hx hlt
  rw [if_neg (fun hc => hrs ((roundingCanOverflow_iff hlt).1 hc)),add_zero] at h
  generalize (if shift%p.digitBits = 0 then x.digits.drop (shift/p.digitBits) else _) = o at *
  have ht (sign : Bool) : Represents p
      (rightTrim heap (((createWithLengthUnchecked heap (x.length-shift/p.digitBits)).setDigits o).setSign sign))
      (signedValue sign (x.magnitude p/2^shift)) := by
    refine trimmed_represents heap sign (createWithLength_length heap _) hl hd (Nat.sub_pos_of_lt hlt) ?_ hv
    exact (sub_le _ _).trans hx.length_le
  rw [mustRoundDown_eq hx hlt] at h
  rw [toInt,signedValue_floor]
  cases hs : x.sign with
  | false =>
    simp only [hs,Bool.false_eq_true,if_false] at h
    cases h
    exact ht false
  | true =>
    simp only [hs,if_true,Bool.true_and,decide_eq_true_iff] at h ⊢
    by_cases hr : x.magnitude p%2^shift ≠ 0
    · have ho := absoluteAddOne_spec heap (ht true).normalized true
      rw [if_pos hr] at h ⊢
      rw [h,(ht true).magnitude_eq] at ho
      exact ho
    · rw [if_neg hr] at h ⊢
      cases h
      exact ht true

private theorem rightTrim_of_last_ne_zero {digits : List Nat} {sign : Bool} (h : digits ≠ [])
    (hl : digits.getLast h ≠ 0) : rightTrim heap ⟨sign,digits⟩ = ⟨sign,digits⟩ := by
  have hk : digits.rdropWhile (· == 0) = digits := rdropWhile_eq_self_iff.2 fun _ => by simpa using hl
  unfold rightTrim
  rw [if_neg (by simpa [isZero,length] using h)]
  rw [hk,if_neg h]
  exact if_pos rfl

/-- When a digit is reserved, what the storage held becomes the leading digit. -/
theorem rightShiftByAbsolute_reserves (hx : x.Normalized p) (hy : y.Normalized p) (hyn : y.digits ≠ [])
    (hrs : ReservesDigit p x (y.magnitude p)) :
    ∃ r, rightShiftByAbsolute (onesStorage p) x y = .ok r ∧ ¬Represents p r (x.toInt p/2^y.magnitude p) := by
  generalize hs : y.magnitude p = shift at *
  have hlt := hrs.2.2.1
  have hmx : ¬p.maxLengthBits < shift := by
    have h1 := lt_mul_div_succ shift p.digitBits_pos
    have h2 := mul_le_mul_left p.digitBits (show shift/p.digitBits + 1 ≤ x.length from hlt)
    have h3 := mul_le_mul_right p.digitBits (show x.length ≤ p.maxLength from hx.length_le)
    have h4 := p.maxLength_mul_digitBits_le
    rw [mul_comm x.length] at h3
    omega
  have ho := (roundingCanOverflow_iff hlt).2 hrs
  have hrn : mustRoundDown x (shift/p.digitBits) (shift%p.digitBits) := by
    simp only [Bool.and_eq_true] at ho
    exact ho.1.1
  obtain ⟨hl,hd,hv⟩ := rightShift_written hx hlt
  unfold rightShiftByAbsolute
  rw [toShiftAmount_eq hy hyn,hs,if_neg hmx]
  dsimp only
  rw [if_neg (not_le.2 hlt),if_pos ho,if_pos hrs.1,if_pos hrn]
  generalize (if shift%p.digitBits = 0 then x.digits.drop (shift/p.digitBits) else _) = ot at *
  have hc : ((createWithLengthUnchecked (onesStorage p) (x.length-shift/p.digitBits+1)).setDigits
      ot).setSign true = ⟨true,ot ++ [1]⟩ := by
    simp [setSign,setDigits,createWithLengthUnchecked,onesStorage,hl]
  rw [hc,rightTrim_of_last_ne_zero (onesStorage p) (by simp) (by simp)]
  have hB := p.base_ge
  have hsm : 0 < shift/p.digitBits := by
    obtain ⟨d,hd,-⟩ := hrs.2.2.2.1
    refine pos_of_ne_zero fun h => ?_
    rw [h,take_zero] at hd
    simp at hd
  have hn : Normalized p ⟨true,ot ++ [1]⟩ :=
    ⟨forall_mem_append.2 ⟨hd,forall_mem_singleton.2 (by omega)⟩,by simp,by simp,by
      have := hx.length_le
      unfold length at hlt hl
      simp [hl]
      omega⟩
  have hon := absoluteAddOne_spec (onesStorage p) hn true
  have hnt : ¬((ot ++ [1]).all (· == p.base - 1)) := by
    simp only [all_append,Bool.and_eq_true,not_and]
    intro _ h
    simp at h
    omega
  generalize absoluteAddOne (onesStorage p) ⟨true,ot ++ [1]⟩ true = o at *
  cases o with
  | error e => exact absurd hon.2.1 hnt
  | ok r =>
    refine ⟨r,rfl,fun hr => ?_⟩
    have hm := mustRoundDown_eq hx hlt
    rw [hrn] at hm
    rw [toInt,signedValue_floor,if_pos hm.symm] at hr
    have h1 := hon.magnitude_eq
    have h2 := hr.magnitude_eq
    have hp := pow_pos (n := ot.length) p.base_pos
    have hvl : magnitude p ⟨true,ot ++ [1]⟩ = x.magnitude p/2^shift + p.base^ot.length := by
      rw [magnitude,ofDigits_append,ofDigits_singleton,hv,mul_one]
    omega

private theorem toInt_cases (y : JSBigInt) :
    (y.sign ∧ y.toInt p = -(y.magnitude p : Int)) ∨ (y.sign = false ∧ y.toInt p = y.magnitude p) := by
  unfold toInt
  cases y.sign <;> simp [signedValue]

/-- Both shifts return the normalized representation of the rounded value, whatever fresh storage holds,
for exactly the inputs that do not make the source reserve a digit for rounding. -/
theorem shift_exact_iff (x y : NormalizedBigInt p) : (∀ (heap : Storage p) (r : JSBigInt),
      (leftShift heap x.1 y.1 = .ok r → Represents p r (shiftFloor (x.1.toInt p) (y.1.toInt p))) ∧
      (signedRightShift heap x.1 y.1 = .ok r → Represents p r (shiftFloor (x.1.toInt p) (-y.1.toInt p)))) ↔
    ¬ReservesDigit p x.1 (y.1.magnitude p) := by
  obtain ⟨x,hx⟩ := x
  obtain ⟨y,hy⟩ := y
  by_cases hz : (y.isZero || x.isZero)
  · have hvl : shiftFloor (x.toInt p) (y.toInt p) = x.toInt p ∧ shiftFloor (x.toInt p) (-y.toInt p) = x.toInt p := by
      rw [Bool.or_eq_true,isZero_iff,isZero_iff] at hz
      rcases hz with h | h
      · simp [toInt,magnitude,h,shiftFloor]
      · simp [toInt,magnitude,h,shiftFloor]
    have hn : ¬ReservesDigit p x (y.magnitude p) := by
      rintro ⟨-,-,hl,⟨d,hd,-⟩,-⟩
      rw [Bool.or_eq_true,isZero_iff,isZero_iff] at hz
      rcases hz with h | h
      · simp [magnitude,h] at hd
      · simp [length,h] at hl
    refine iff_of_true (fun heap r => ?_) hn
    unfold leftShift signedRightShift
    rw [if_pos hz,if_pos hz,hvl.1,hvl.2]
    exact ⟨fun h => by cases h; exact hx.represents,fun h => by cases h; exact hx.represents⟩
  · unfold leftShift signedRightShift
    simp only [hz,if_false,Bool.false_eq_true]
    rw [Bool.or_eq_true,isZero_iff,isZero_iff,not_or] at hz
    obtain ⟨hyn,hxn⟩ := hz
    constructor
    · intro h hrs
      obtain ⟨r,hr,hw⟩ := rightShiftByAbsolute_reserves hx hy hyn hrs
      rcases toInt_cases (p := p) y with ⟨hs,hv⟩ | ⟨hs,hv⟩
      · rw [hs,hv,shiftFloor_neg_natCast] at h
        exact hw ((h (onesStorage p) r).1 hr)
      · rw [hs,hv,shiftFloor_neg_natCast] at h
        exact hw ((h (onesStorage p) r).2 hr)
    · intro hrs heap r
      rcases toInt_cases (p := p) y with ⟨hs,hv⟩ | ⟨hs,hv⟩
      · rw [hs,hv,shiftFloor_neg_natCast,Int.neg_neg,shiftFloor_natCast]
        exact ⟨rightShiftByAbsolute_exact heap hx hxn hy hyn hrs,leftShiftByAbsolute_spec heap hx hxn hy hyn⟩
      · rw [hs,hv,shiftFloor_neg_natCast,shiftFloor_natCast]
        exact ⟨leftShiftByAbsolute_spec heap hx hxn hy hyn,rightShiftByAbsolute_exact heap hx hxn hy hyn hrs⟩

end

/-- Shifting -(2^128 - 2^64 + 1) right by 64 bits gives -2^65 instead of -2^64 when the reserved digit's
storage held a one. -/
theorem signedRightShift_reads_unwritten_digit :
    Normalized platform64 ⟨true,[1, 2^64 - 1]⟩ ∧ Normalized platform64 ⟨false,[64]⟩ ∧
      signedRightShift (onesStorage platform64) ⟨true,[1, 2^64 - 1]⟩ ⟨false,[64]⟩ = .ok ⟨true,[0, 2]⟩ ∧
      ¬Represents platform64 ⟨true,[0, 2]⟩
        (shiftFloor (toInt platform64 ⟨true,[1, 2^64 - 1]⟩) (-toInt platform64 ⟨false,[64]⟩)) := by
  refine ⟨by decide,by decide,by decide +kernel,fun h => ?_⟩
  have hv := h.value
  have h64 : toInt platform64 ⟨false,[64]⟩ = ((64 : Nat) : Int) := by decide
  rw [h64,shiftFloor_neg_natCast] at hv
  revert hv
  decide

end JSBigInt
end WebKit.JavaScriptCore.BigInt
