import Mathlib.Data.Int.Bitwise
import WebKit.JavaScriptCore.BigInt.Shift

/-! Bitwise operators on BigInts. Absolute values are combined digit by digit, and the bits of a negative
number are the complements of those of its absolute value less one. -/
namespace WebKit.JavaScriptCore.BigInt
open List Bool Nat

inductive ExtraDigitsHandling where
  | copy | skip
  deriving DecidableEq, Repr

inductive SymmetricOp where
  | symmetric | notSymmetric
  deriving DecidableEq, Repr

namespace JSBigInt
variable {p : Platform} (heap : Storage p)

/-- Combine the digit pairs, and copy or skip what is left of the longer number, the first if the operation is not symmetric. -/
def absoluteBitwiseOp (x y : JSBigInt) (extraDigits : ExtraDigitsHandling) (symmetricOp : SymmetricOp)
    (op : Nat → Nat → Nat) : JSBigInt :=
  let numPairs := if x.length < y.length then x.length else y.length
  let (x, y) := if x.length < y.length ∧ symmetricOp = .symmetric then (y, x) else (x, y)
  let resultLength := if extraDigits = .copy then x.length else numPairs
  let pairs := zipWith op (x.digits.take numPairs) (y.digits.take numPairs)
  let written := if extraDigits = .copy then pairs ++ x.digits.drop numPairs else pairs
  let result := createWithLengthUnchecked heap resultLength
  rightTrim heap (result.setDigits (written ++ replicate (resultLength-written.length) 0))

def absoluteAnd (x y : JSBigInt) : JSBigInt := absoluteBitwiseOp heap x y .skip .symmetric fun a b => a &&& b

def absoluteOr (x y : JSBigInt) : JSBigInt := absoluteBitwiseOp heap x y .copy .symmetric fun a b => a ||| b

/-- The complement of a digit has its other bits. -/
def digitNot (p : Platform) (d : Nat) : Nat := d ^^^ (p.base-1)

def absoluteAndNot (x y : JSBigInt) : JSBigInt := absoluteBitwiseOp heap x y .copy .notSymmetric fun a b => a &&& digitNot p b

def absoluteXor (x y : JSBigInt) : JSBigInt := absoluteBitwiseOp heap x y .copy .symmetric fun a b => a ^^^ b

/-- The number is not zero, and the result is at least as long. -/
def absoluteSubOne (x : JSBigInt) (resultLength : Nat) : Except Exception JSBigInt := do
  let result ← tryCreateWithLength heap resultLength
  let difference := subLoop p x.digits [] 1
  let result := result.setDigits (difference.1 ++ replicate (resultLength-x.length) difference.2)
  return rightTrim heap result

def bitwiseAnd (x y : JSBigInt) : Except Exception JSBigInt := do
  if !x.sign && !y.sign then return absoluteAnd heap x y
  if x.sign && y.sign then
    let resultLength := max x.length y.length + 1
    -- (-x) & (-y) == ~((x-1) | (y-1)) == -(((x-1) | (y-1)) + 1)
    let result ← absoluteSubOne heap x resultLength
    let y1 ← absoluteSubOne heap y y.length
    absoluteAddOne heap (absoluteOr heap result y1) true
  else
    let (x, y) := if x.sign then (y, x) else (x, y)
    -- x & (-y) == x & ~(y-1)
    let y1 ← absoluteSubOne heap y y.length
    return absoluteAndNot heap x y1

def bitwiseOr (x y : JSBigInt) : Except Exception JSBigInt := do
  let resultLength := max x.length y.length
  if !x.sign && !y.sign then return absoluteOr heap x y
  if x.sign && y.sign then
    -- (-x) | (-y) == ~((x-1) & (y-1)) == -(((x-1) & (y-1)) + 1)
    let result ← absoluteSubOne heap x resultLength
    let y1 ← absoluteSubOne heap y y.length
    absoluteAddOne heap (absoluteAnd heap result y1) true
  else
    let (x, y) := if x.sign then (y, x) else (x, y)
    -- x | (-y) == ~((y-1) & ~x) == -(((y-1) & ~x) + 1)
    let result ← absoluteSubOne heap y resultLength
    absoluteAddOne heap (absoluteAndNot heap result x) true

def bitwiseXor (x y : JSBigInt) : Except Exception JSBigInt := do
  if !x.sign && !y.sign then return absoluteXor heap x y
  if x.sign && y.sign then
    let resultLength := max x.length y.length
    -- (-x) ^ (-y) == (x-1) ^ (y-1)
    let result ← absoluteSubOne heap x resultLength
    let y1 ← absoluteSubOne heap y y.length
    return absoluteXor heap result y1
  else
    let resultLength := max x.length y.length + 1
    let (x, y) := if x.sign then (y, x) else (x, y)
    -- x ^ (-y) == ~(x ^ (y-1)) == -((x ^ (y-1)) + 1)
    let result ← absoluteSubOne heap y resultLength
    absoluteAddOne heap (absoluteXor heap result x) true

section digits
variable {x y : JSBigInt} {op : Nat → Nat → Nat} {bit : Bool → Bool → Bool}

/-- A digit operation works bit by bit. -/
def IsBitwise (p : Platform) (op : Nat → Nat → Nat) (bit : Bool → Bool → Bool) : Prop :=
  ∀ a b, a < p.base → b < p.base → op a b < p.base ∧ ∀ j, (op a b).testBit j = bit (a.testBit j) (b.testBit j)

private theorem isBitwise_and : IsBitwise p (fun a b => a &&& b) and :=
  fun a _ _ hb => ⟨and_lt_two_pow a hb,testBit_and a _⟩

private theorem isBitwise_or : IsBitwise p (fun a b => a ||| b) or :=
  fun a _ ha hb => ⟨or_lt_two_pow ha hb,testBit_or a _⟩

private theorem isBitwise_xor : IsBitwise p (fun a b => a ^^^ b) xor :=
  fun a _ ha hb => ⟨xor_lt_two_pow ha hb,testBit_xor a _⟩

private theorem isBitwise_andNot : IsBitwise p (fun a b => a &&& digitNot p b) fun a b => a && !b := by
  intro a b ha hb
  have hl : p.base - 1 < p.base := sub_one_lt (ne_of_gt p.base_pos)
  refine ⟨and_lt_two_pow a (xor_lt_two_pow hb hl),fun j => ?_⟩
  rw [testBit_and,digitNot,testBit_xor,Platform.base,testBit_two_pow_sub_one]
  by_cases hj : j < p.digitBits
  · simp [hj]
  · rw [Nat.testBit_lt_two_pow (ha.trans_le (Nat.pow_le_pow_right Nat.two_pos (Nat.le_of_not_lt hj)))]
    rfl

private theorem magnitude_testBit (h : ∀ d ∈ x.digits, d < p.base) (k : Nat) :
    (x.magnitude p).testBit k = (x.digit (k/p.digitBits)).testBit (k%p.digitBits) :=
  Base.testBit_ofDigits p.digitBits_pos h k

private theorem length_rightTrim_le (x : JSBigInt) : (rightTrim heap x).length ≤ x.length := by
  have hp : x.digits.rdropWhile (· == 0) <+: x.digits := rdropWhile_prefix _ _
  have hl := hp.length_le
  unfold rightTrim
  dsimp only
  split_ifs with hz hn hs
  · exact le_rfl
  · exact zero_le _
  · exact le_rfl
  · rw [setDigits_fresh heap rfl]
    exact hl

/-- Digits combined bit by bit; beyond the shorter list those of the first are copied or skipped. -/
theorem combine_testBit (ho : IsBitwise p op bit) {xs ys : List Nat} (hx : ∀ d ∈ xs, d < p.base)
    (hy : ∀ d ∈ ys, d < p.base) (copy : Bool) (hr : ∀ a, bit a false = (copy && a))
    (hl : xs.length < ys.length → ∀ b, bit false b = false) {n : Nat} (hn : n = min xs.length ys.length) (i j : Nat) :
    ((zipWith op (xs.take n) (ys.take n) ++ if copy then xs.drop n else []).getD i 0).testBit j =
      bit ((xs.getD i 0).testBit j) ((ys.getD i 0).testBit j) := by
  have hln : (zipWith op (xs.take n) (ys.take n)).length = n := by
    simp
    omega
  rcases lt_or_ge i n with hi | hi
  · have hix : i < xs.length := by omega
    have hiy : i < ys.length := by omega
    rw [getD_append _ _ _ _ (by omega),getD_eq_getElem _ _ (by omega),getD_eq_getElem _ _ hix,
      getD_eq_getElem _ _ hiy,getElem_zipWith,getElem_take,getElem_take]
    exact (ho _ _ (hx _ (getElem_mem hix)) (hy _ (getElem_mem hiy))).2 j
  · rw [getD_append_right _ _ _ _ (by omega),hln]
    have hrs : (if copy then xs.drop n else []).getD (i-n) 0 = if copy then xs.getD i 0 else 0 := by
      cases copy with
      | false => rfl
      | true => simp [getD_eq_getElem?_getD,Nat.add_sub_cancel' hi]
    rw [hrs]
    rcases lt_or_ge xs.length ys.length with hlt | hg
    · rw [getD_eq_default xs _ (by omega),ite_self,zero_testBit,hl hlt]
    · rw [getD_eq_default ys _ (by omega),zero_testBit,hr]
      cases copy <;> simp

section
variable (hx : x.Normalized p) (hy : y.Normalized p) (ho : IsBitwise p op bit)
include hx hy ho

private theorem combine_spec
    (e : ExtraDigitsHandling) (hr : ∀ a, bit a false = (decide (e = .copy) && a))
    (hl : x.length < y.length → ∀ b, bit false b = false) {n : Nat} (hn : n = min x.length y.length) :
    let pairs := zipWith op (x.digits.take n) (y.digits.take n)
    let written := if e = .copy then pairs ++ x.digits.drop n else pairs
    let resultLength := if e = .copy then x.length else n
    let result := rightTrim heap ((createWithLengthUnchecked heap resultLength).setDigits
      (written ++ replicate (resultLength-written.length) 0))
    ∃ m : Nat, Represents p result m ∧ result.length ≤ max x.length y.length ∧
      ∀ k, m.testBit k = bit ((x.magnitude p).testBit k) ((y.magnitude p).testBit k) := by
  dsimp only
  have hw : (if e = .copy then zipWith op (x.digits.take n) (y.digits.take n) ++ x.digits.drop n
      else zipWith op (x.digits.take n) (y.digits.take n)) = zipWith op (x.digits.take n) (y.digits.take n) ++
        if decide (e = .copy) then x.digits.drop n else [] := by
    cases e <;> simp
  have hln : (zipWith op (x.digits.take n) (y.digits.take n) ++
      if decide (e = .copy) then x.digits.drop n else []).length = if e = .copy then x.length else n := by
    unfold length at *
    cases e <;> simp <;> omega
  have hlt : ∀ d ∈ zipWith op (x.digits.take n) (y.digits.take n) ++
      (if decide (e = .copy) then x.digits.drop n else []), d < p.base := by
    intro d hd
    rcases mem_append.1 hd with hd | hd
    · obtain ⟨k,hk,rfl⟩ := getElem_of_mem hd
      rw [getElem_zipWith]
      exact (ho _ _ (hx.digit_lt _ (mem_of_mem_take (getElem_mem _)))
        (hy.digit_lt _ (mem_of_mem_take (getElem_mem _)))).1
    · split_ifs at hd
      · exact hx.digit_lt d (mem_of_mem_drop hd)
      · cases hd
  have hb := combine_testBit ho hx.digit_lt hy.digit_lt (decide (e = .copy)) hr hl hn
  rw [hw,← hln,Nat.sub_self,replicate_zero,append_nil]
  generalize zipWith op (x.digits.take n) (y.digits.take n) ++
    (if decide (e = .copy) then x.digits.drop n else []) = written at *
  rw [setDigits_fresh heap rfl]
  have hm : written.length ≤ max x.length y.length := by
    rw [hln]
    split_ifs <;> omega
  have ht := rightTrim_spec heap (x := ⟨false,written⟩) hlt (fun _ => rfl)
    (hm.trans (max_le hx.length_le hy.length_le))
  refine ⟨ofDigits p.base written,ht,(length_rightTrim_le heap _).trans hm,fun k => ?_⟩
  rw [magnitude_testBit hx.digit_lt,magnitude_testBit hy.digit_lt]
  exact (Base.testBit_ofDigits p.digitBits_pos hlt k).trans (hb _ _)

/-- The result's bits are the combined bits, and it is not longer than the longer number. -/
theorem absoluteBitwiseOp_spec
    (e : ExtraDigitsHandling) (s : SymmetricOp)
    (hr : ∀ a, bit a false = (decide (e = .copy) && a))
    (hs : s = .symmetric → ∀ a b, bit a b = bit b a)
    (hl : s = .notSymmetric → ∀ b, bit false b = false) :
    ∃ m : Nat, Represents p (absoluteBitwiseOp heap x y e s op) m ∧
      (absoluteBitwiseOp heap x y e s op).length ≤ max x.length y.length ∧
      ∀ k, m.testBit k = bit ((x.magnitude p).testBit k) ((y.magnitude p).testBit k) := by
  unfold absoluteBitwiseOp
  by_cases hlt : x.length < y.length
  · rw [if_pos hlt]
    cases s with
    | symmetric =>
      rw [if_pos ⟨hlt,rfl⟩]
      obtain ⟨m,hm,hln,hb⟩ := combine_spec heap hy hx ho e hr (fun h => by omega) (n := x.length) (by omega)
      refine ⟨m,hm,by rwa [max_comm],fun k => ?_⟩
      rw [hb,hs rfl]
    | notSymmetric =>
      rw [if_neg (fun h => nomatch h.2)]
      exact combine_spec heap hx hy ho e hr (fun _ => hl rfl) (by omega)
  · rw [if_neg hlt,if_neg (fun h => hlt h.1)]
    exact combine_spec heap hx hy ho e hr (fun h => absurd h hlt) (by omega)

end

end digits

section operators
variable {x y : JSBigInt}

/-- A normalized number with the combined bits in the infinite two's complement, or an out of memory exception that the length
limit justifies. -/
def BitwiseYields (p : Platform) (bit : Bool → Bool → Bool) (v w : Int) (overLimit : Prop) : Except Exception JSBigInt → Prop
  | .ok r => r.Normalized p ∧ ∀ k, (r.toInt p).testBit k = bit (v.testBit k) (w.testBit k)
  | .error e => e = .outOfMemory ∧ overLimit

theorem magnitude_of_represents {m : Nat} (h : Represents p x m) : x.magnitude p = m := by
  have hv := h.value
  rw [toInt] at hv
  cases hs : x.sign <;> simp [hs,signedValue] at hv <;> omega

theorem toInt_testBit_of_nonneg (hs : x.sign = false) (k : Nat) :
    (x.toInt p).testBit k = (x.magnitude p).testBit k := by
  rw [toInt,hs]
  rfl

/-- A number whose bits are the other ones of a negative number. -/
structure Complement (p : Platform) (x r : JSBigInt) : Prop where
  normalized : r.Normalized p
  length_le : r.length ≤ x.length
  testBit : ∀ k, (x.toInt p).testBit k = !(r.magnitude p).testBit k

theorem absoluteSubOne_cases (hx : x.Normalized p) (hs : x.sign) {n : Nat} (hn : x.length ≤ n) :
    (absoluteSubOne heap x n = .error .outOfMemory ∧ p.maxLength < n) ∨
      ∃ r, absoluteSubOne heap x n = .ok r ∧ Complement p x r := by
  have hne : x.digits ≠ [] := fun hnl => by simp [hx.zero_unsigned hnl] at hs
  have hps := Nat.pos_of_ne_zero ((magnitude_eq_zero_iff hx).not.2 hne)
  obtain ⟨hv,hln,hlt,hb⟩ := subLoop_spec x.digits [] 1 (Nat.zero_le _) hx.digit_lt (by simp) le_rfl
  rw [Nat.ofDigits_nil,Nat.add_zero,← magnitude] at hv
  have hno : (subLoop p x.digits [] 1).2 = 0 := by
    have hbn := Nat.ofDigits_lt_base_pow_length (by have := p.base_ge; omega) hlt
    rw [hln] at hbn
    rcases Nat.le_one_iff_eq_zero_or_eq_one.1 hb with hz | ho
    · exact hz
    · rw [ho] at hv
      omega
  rw [hno,Nat.mul_zero,Nat.add_zero] at hv
  unfold absoluteSubOne tryCreateWithLength
  split_ifs with hl
  · exact .inl ⟨rfl,hl⟩
  · refine .inr ⟨_,rfl,?_⟩
    rw [hno,setDigits_fresh heap (by simp [hln,length] at hn ⊢; omega)]
    generalize hp : (subLoop p x.digits [] 1).1 ++ replicate (n-x.length) 0 = padded
    have hdg : ∀ d ∈ padded, d < p.base := by
      rw [← hp]
      refine forall_mem_append.2 ⟨hlt,fun d hd => ?_⟩
      rw [eq_of_mem_replicate hd]
      exact p.base_pos
    have ht := rightTrim_spec heap (x := ⟨false,padded⟩) hdg (fun _ => rfl)
      (by rw [← hp]; simp [hln,length] at hn hl ⊢; omega)
    have he : Nat.ofDigits p.base padded + 1 = x.magnitude p := by
      rw [← hp,Nat.ofDigits_append_replicate_zero,hv,Nat.add_zero]
    have hm : (rightTrim heap ⟨false,padded⟩).magnitude p = Nat.ofDigits p.base padded :=
      magnitude_of_represents ht
    refine ⟨ht.normalized,length_le_of_magnitude_le hx ht.normalized (by omega),fun k => ?_⟩
    rw [toInt,hs,hm,← he]
    rfl

theorem absoluteSubOne_ok (hx : x.Normalized p) (hs : x.sign) {n : Nat} (hn : x.length ≤ n)
    (hm : n ≤ p.maxLength) : ∃ r, absoluteSubOne heap x n = .ok r ∧ Complement p x r := by
  rcases absoluteSubOne_cases heap hx hs hn with ⟨-,hl⟩ | hr
  · exact absurd hm (not_le.2 hl)
  · exact hr

/-- A number with the combined bits of two absolute values. -/
def Combines (p : Platform) (bit : Bool → Bool → Bool) (x y r : JSBigInt) : Prop :=
  ∃ m : Nat, Represents p r m ∧ r.length ≤ max x.length y.length ∧
    ∀ k, m.testBit k = bit ((x.magnitude p).testBit k) ((y.magnitude p).testBit k)

section
variable (hx : x.Normalized p) (hy : y.Normalized p)
include hx hy

theorem and_spec : Combines p and x y (absoluteAnd heap x y) :=
  absoluteBitwiseOp_spec heap hx hy isBitwise_and .skip .symmetric (by decide) (fun _ => and_comm) nofun

theorem or_spec : Combines p or x y (absoluteOr heap x y) :=
  absoluteBitwiseOp_spec heap hx hy isBitwise_or .copy .symmetric (by decide) (fun _ => or_comm) nofun

theorem xor_spec : Combines p xor x y (absoluteXor heap x y) :=
  absoluteBitwiseOp_spec heap hx hy isBitwise_xor .copy .symmetric (by decide) (fun _ => xor_comm) nofun

theorem andNot_spec : Combines p (fun a b => a && !b) x y (absoluteAndNot heap x y) :=
  absoluteBitwiseOp_spec heap hx hy isBitwise_andNot .copy .notSymmetric (by decide) nofun (fun _ => by decide)

end

section
variable {bit bit' : Bool → Bool → Bool} {v w : Int} {overLimit : Prop} {r : JSBigInt}

theorem Combines.yields (h : Combines p bit' x y r)
    (hb : ∀ k, bit' ((x.magnitude p).testBit k) ((y.magnitude p).testBit k) = bit (v.testBit k) (w.testBit k)) :
    BitwiseYields p bit v w overLimit (.ok r) := by
  obtain ⟨m,hm,-,ht⟩ := h
  refine ⟨hm.normalized,fun k => ?_⟩
  rw [← hb,← ht,hm.value]
  rfl

/-- The complement of a number, as its negative successor. -/
theorem Combines.addOne_yields (h : Combines p bit' x y r)
    (hb : ∀ k, (!bit' ((x.magnitude p).testBit k) ((y.magnitude p).testBit k)) = bit (v.testBit k) (w.testBit k))
    (hl : p.maxLength < max x.length y.length + 1 → overLimit) :
    BitwiseYields p bit v w overLimit (absoluteAddOne heap r true) := by
  obtain ⟨m,hm,hln,ht⟩ := h
  have ho := absoluteAddOne_spec heap hm.normalized true
  rw [magnitude_of_represents hm] at ho
  cases hr : absoluteAddOne heap r true with
  | error e =>
    rw [hr] at ho
    exact ⟨ho.1,hl (ho.2.2.trans_le (Nat.add_le_add_right hln 1))⟩
  | ok r =>
    rw [hr] at ho
    refine ⟨ho.normalized,fun k => ?_⟩
    rw [ho.value,← hb,← ht]
    rfl

theorem BitwiseYields.swap {r : Except Exception JSBigInt} (hb : ∀ a b, bit a b = bit b a)
    (h : BitwiseYields p bit v w overLimit r) : BitwiseYields p bit w v overLimit r := by
  cases r with
  | error e => exact h
  | ok r => exact ⟨h.1,fun k => (h.2 k).trans (hb _ _)⟩

end

section
variable (hx : x.Normalized p) (hy : y.Normalized p)
include hx hy

private theorem bitwiseAnd_mixed (hs : x.sign = false) (hsy : y.sign)
    (overLimit : Prop) : bitwiseAnd heap y x = bitwiseAnd heap x y ∧
      BitwiseYields p and (x.toInt p) (y.toInt p) overLimit (bitwiseAnd heap x y) := by
  obtain ⟨y1,hy1,hc⟩ := absoluteSubOne_ok heap hy hsy le_rfl hy.length_le
  have he : bitwiseAnd heap x y = .ok (absoluteAndNot heap x y1) := by
    simp [bitwiseAnd,hs,hsy,hy1]
  refine ⟨by simp [bitwiseAnd,hs,hsy],?_⟩
  rw [he]
  refine (andNot_spec heap hx hc.normalized).yields fun k => ?_
  rw [toInt_testBit_of_nonneg hs,hc.testBit]

private theorem bitwiseAnd_yields :
    BitwiseYields p and (x.toInt p) (y.toInt p) (p.maxLength < max x.length y.length + 1) (bitwiseAnd heap x y) := by
  cases hs : x.sign <;> cases hsy : y.sign
  · rw [show bitwiseAnd heap x y = .ok (absoluteAnd heap x y) by simp [bitwiseAnd,hs,hsy]; rfl]
    refine (and_spec heap hx hy).yields fun k => ?_
    rw [toInt_testBit_of_nonneg hs,toInt_testBit_of_nonneg hsy]
  · exact (bitwiseAnd_mixed heap hx hy hs hsy _).2
  · obtain ⟨heq,hyl⟩ := bitwiseAnd_mixed heap hy hx hsy hs (p.maxLength < max x.length y.length + 1)
    rw [heq]
    exact hyl.swap and_comm
  · rcases absoluteSubOne_cases heap hx hs (show x.length ≤ max x.length y.length + 1 by omega) with
      ⟨he,hl⟩ | ⟨x1,hx1,hc⟩
    · rw [show bitwiseAnd heap x y = .error .outOfMemory by simp [bitwiseAnd,hs,hsy,he]; rfl]
      exact ⟨rfl,hl⟩
    · obtain ⟨y1,hy1,hcy⟩ := absoluteSubOne_ok heap hy hsy le_rfl hy.length_le
      rw [show bitwiseAnd heap x y = absoluteAddOne heap (absoluteOr heap x1 y1) true by
        simp [bitwiseAnd,hs,hsy,hx1,hy1]; rfl]
      refine (or_spec heap hc.normalized hcy.normalized).addOne_yields heap (fun k => ?_) ?_
      · rw [hc.testBit,hcy.testBit,Bool.not_or]
      · have := hc.length_le
        have := hcy.length_le
        omega

private theorem bitwiseOr_mixed (hs : x.sign = false) (hsy : y.sign) :
    bitwiseOr heap y x = bitwiseOr heap x y ∧
      BitwiseYields p or (x.toInt p) (y.toInt p) (p.maxLength < max x.length y.length + 1) (bitwiseOr heap x y) := by
  refine ⟨by simp [bitwiseOr,hs,hsy,max_comm],?_⟩
  obtain ⟨y1,hy1,hc⟩ := absoluteSubOne_ok heap hy hsy (le_max_right x.length y.length) (max_le hx.length_le hy.length_le)
  rw [show bitwiseOr heap x y = absoluteAddOne heap (absoluteAndNot heap y1 x) true by
    simp [bitwiseOr,hs,hsy,hy1]; rfl]
  refine (andNot_spec heap hc.normalized hx).addOne_yields heap (fun k => ?_) ?_
  · rw [toInt_testBit_of_nonneg hs,hc.testBit,Bool.not_and,Bool.not_not,Bool.or_comm]
  · have := hc.length_le
    omega

private theorem bitwiseOr_yields :
    BitwiseYields p or (x.toInt p) (y.toInt p) (p.maxLength < max x.length y.length + 1) (bitwiseOr heap x y) := by
  cases hs : x.sign <;> cases hsy : y.sign
  · rw [show bitwiseOr heap x y = .ok (absoluteOr heap x y) by simp [bitwiseOr,hs,hsy]; rfl]
    refine (or_spec heap hx hy).yields fun k => ?_
    rw [toInt_testBit_of_nonneg hs,toInt_testBit_of_nonneg hsy]
  · exact (bitwiseOr_mixed heap hx hy hs hsy).2
  · obtain ⟨he,hyl⟩ := bitwiseOr_mixed heap hy hx hsy hs
    rw [he,max_comm]
    exact hyl.swap or_comm
  · obtain ⟨x1,hx1,hc⟩ := absoluteSubOne_ok heap hx hs (le_max_left x.length y.length) (max_le hx.length_le hy.length_le)
    obtain ⟨y1,hy1,hcy⟩ := absoluteSubOne_ok heap hy hsy le_rfl hy.length_le
    rw [show bitwiseOr heap x y = absoluteAddOne heap (absoluteAnd heap x1 y1) true by
      simp [bitwiseOr,hs,hsy,hx1,hy1]; rfl]
    refine (and_spec heap hc.normalized hcy.normalized).addOne_yields heap (fun k => ?_) ?_
    · rw [hc.testBit,hcy.testBit,Bool.not_and]
    · have := hc.length_le
      have := hcy.length_le
      omega

private theorem bitwiseXor_mixed (hs : x.sign = false) (hsy : y.sign) :
    bitwiseXor heap y x = bitwiseXor heap x y ∧
      BitwiseYields p xor (x.toInt p) (y.toInt p) (p.maxLength < max x.length y.length + 1) (bitwiseXor heap x y) := by
  refine ⟨by simp [bitwiseXor,hs,hsy,max_comm],?_⟩
  rcases absoluteSubOne_cases heap hy hsy (show y.length ≤ max x.length y.length + 1 by omega) with
    ⟨he,hl⟩ | ⟨y1,hy1,hc⟩
  · rw [show bitwiseXor heap x y = .error .outOfMemory by simp [bitwiseXor,hs,hsy,he]; rfl]
    exact ⟨rfl,hl⟩
  · rw [show bitwiseXor heap x y = absoluteAddOne heap (absoluteXor heap y1 x) true by
      simp [bitwiseXor,hs,hsy,hy1]; rfl]
    refine (xor_spec heap hc.normalized hx).addOne_yields heap (fun k => ?_) ?_
    · rw [toInt_testBit_of_nonneg hs,hc.testBit,Bool.xor_not,Bool.xor_comm]
    · have := hc.length_le
      omega

private theorem bitwiseXor_yields :
    BitwiseYields p xor (x.toInt p) (y.toInt p) (p.maxLength < max x.length y.length + 1) (bitwiseXor heap x y) := by
  cases hs : x.sign <;> cases hsy : y.sign
  · rw [show bitwiseXor heap x y = .ok (absoluteXor heap x y) by simp [bitwiseXor,hs,hsy]; rfl]
    refine (xor_spec heap hx hy).yields fun k => ?_
    rw [toInt_testBit_of_nonneg hs,toInt_testBit_of_nonneg hsy]
  · exact (bitwiseXor_mixed heap hx hy hs hsy).2
  · obtain ⟨he,hyl⟩ := bitwiseXor_mixed heap hy hx hsy hs
    rw [he,max_comm]
    exact hyl.swap xor_comm
  · obtain ⟨x1,hx1,hc⟩ := absoluteSubOne_ok heap hx hs (le_max_left x.length y.length) (max_le hx.length_le hy.length_le)
    obtain ⟨y1,hy1,hcy⟩ := absoluteSubOne_ok heap hy hsy le_rfl hy.length_le
    rw [show bitwiseXor heap x y = .ok (absoluteXor heap x1 y1) by simp [bitwiseXor,hs,hsy,hx1,hy1]; rfl]
    refine (xor_spec heap hc.normalized hcy.normalized).yields fun k => ?_
    rw [hc.testBit,hcy.testBit,not_xor_not]

end

/-- Every bit of the result, in the infinite two's complement, combines the bits of the operands, on every platform
and whatever fresh storage holds. -/
theorem bitwise_exact (x y : NormalizedBigInt p) :
    let X := x.1.toInt p
    let Y := y.1.toInt p
    let overLimit := p.maxLength < max x.1.length y.1.length + 1
    BitwiseYields p and X Y overLimit (bitwiseAnd heap x.1 y.1) ∧
      BitwiseYields p or X Y overLimit (bitwiseOr heap x.1 y.1) ∧
      BitwiseYields p xor X Y overLimit (bitwiseXor heap x.1 y.1) :=
  ⟨bitwiseAnd_yields heap x.2 y.2,bitwiseOr_yields heap x.2 y.2,bitwiseXor_yields heap x.2 y.2⟩

end operators

end JSBigInt
end WebKit.JavaScriptCore.BigInt
