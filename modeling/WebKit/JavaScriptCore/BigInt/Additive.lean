import WebKit.JavaScriptCore.BigInt.Storage

/-! Addition and subtraction of BigInts by carry and borrow chains. -/
namespace WebKit.JavaScriptCore.BigInt
open List Nat

section
variable (p : Platform)

/-- Digit sums and the final carry; the second summand may be shorter. -/
def addLoop : List Nat → List Nat → Nat → List Nat × Nat
  | [], _, carry => ([], carry)
  | x::xs, y::ys, carry =>
    let sum := digitAdd p x y 0
    let sum := digitAdd p sum.1 carry sum.2
    let rest := addLoop xs ys sum.2
    (sum.1::rest.1, rest.2)
  | x::xs, [], carry =>
    let sum := digitAdd p x carry 0
    let rest := addLoop xs [] sum.2
    (sum.1::rest.1, rest.2)

/-- Digit differences and the final borrow; the subtrahend may be shorter. -/
def subLoop : List Nat → List Nat → Nat → List Nat × Nat
  | [], _, borrow => ([], borrow)
  | x::xs, y::ys, borrow =>
    let difference := digitSub p x y 0
    let difference := digitSub p difference.1 borrow difference.2
    let rest := subLoop xs ys difference.2
    (difference.1::rest.1, rest.2)
  | x::xs, [], borrow =>
    let difference := digitSub p x borrow 0
    let rest := subLoop xs [] difference.2
    (difference.1::rest.1, rest.2)
end

namespace JSBigInt
variable {p : Platform} (heap : Storage p)

def absoluteAdd (x y : JSBigInt) (resultSign : Bool) : Except Exception JSBigInt := do
  let (x, y) := if x.length < y.length then (y, x) else (x, y)
  if x.isZero then return x
  if y.isZero then return if resultSign = x.sign then x else unaryMinus heap x
  let result ← tryCreateWithLength heap (x.length+1)
  let sum := addLoop p x.digits y.digits 0
  return rightTrim heap ((result.setDigits (sum.1 ++ [sum.2])).setSign resultSign)

/-- Callers pass a first operand of no smaller absolute value. -/
def absoluteSub (x y : JSBigInt) (resultSign : Bool) : JSBigInt :=
  let comparisonResult := absoluteCompare x y
  if x.isZero then x
  else if y.isZero then if resultSign = x.sign then x else unaryMinus heap x
  else if comparisonResult = .equal then createZero
  else
    let result := createWithLengthUnchecked heap x.length
    rightTrim heap ((result.setDigits (subLoop p x.digits y.digits 0).1).setSign resultSign)

def add (x y : JSBigInt) : Except Exception JSBigInt :=
  let xSign := x.sign
  if xSign = y.sign then absoluteAdd heap x y xSign
  else
    let comparisonResult := absoluteCompare x y
    if comparisonResult = .greaterThan ∨ comparisonResult = .equal then .ok (absoluteSub heap x y xSign)
    else .ok (absoluteSub heap y x (!xSign))

def sub (x y : JSBigInt) : Except Exception JSBigInt :=
  let xSign := x.sign
  if xSign ≠ y.sign then absoluteAdd heap x y xSign
  else
    let comparisonResult := absoluteCompare x y
    if comparisonResult = .greaterThan ∨ comparisonResult = .equal then .ok (absoluteSub heap x y xSign)
    else .ok (absoluteSub heap y x (!xSign))

end JSBigInt

section
variable {p : Platform}

theorem addLoop_spec (xs ys : List Nat) (c : Nat) (hl : ys.length ≤ xs.length)
    (hx : ∀ d ∈ xs, d < p.base) (hy : ∀ d ∈ ys, d < p.base) (hc : c ≤ 1) :
    ofDigits p.base (addLoop p xs ys c).1 + p.base^xs.length*(addLoop p xs ys c).2 =
        ofDigits p.base xs + ofDigits p.base ys + c ∧
      (addLoop p xs ys c).1.length = xs.length ∧
      (∀ d ∈ (addLoop p xs ys c).1, d < p.base) ∧ (addLoop p xs ys c).2 ≤ 1 := by
  have hB := p.base_ge
  induction xs generalizing ys c with
  | nil =>
    obtain rfl := length_eq_zero_iff.1 (le_zero.1 hl)
    simp [addLoop,hc]
  | cons x xs ih =>
    obtain ⟨hxd,hxs⟩ := forall_mem_cons.1 hx
    cases ys with
    | nil =>
      have hs := digitAdd_value hxd (show c < p.base by omega) (show 0 + 1 < p.base by omega)
      have hlt := digitAdd_lt (p := p) x c 0
      have hc' := digitAdd_carry_le (p := p) x c 0
      rw [addLoop]
      generalize digitAdd p x c 0 = s at *
      obtain ⟨hv,hln,hd,hcr⟩ := ih [] s.2 (zero_le _) hxs (by simp) hc'
      refine ⟨?_,by simp [hln],forall_mem_cons.2 ⟨hlt,hd⟩,hcr⟩
      rw [length_cons,Base.carry_chain hs hv,ofDigits_cons,ofDigits_nil]
      ring
    | cons y ys =>
      obtain ⟨hyd,hys⟩ := forall_mem_cons.1 hy
      obtain ⟨hs,hlt,hc'⟩ := digitAdd_carry hxd hyd hc
      rw [addLoop]
      generalize digitAdd p (digitAdd p x y 0).1 c (digitAdd p x y 0).2 = s at *
      obtain ⟨hv,hln,hd,hcr⟩ := ih ys s.2 (by simpa using hl) hxs hys hc'
      refine ⟨?_,by simp [hln],forall_mem_cons.2 ⟨hlt,hd⟩,hcr⟩
      rw [length_cons,Base.carry_chain hs hv,ofDigits_cons,ofDigits_cons]
      ring

theorem subLoop_spec (xs ys : List Nat) (b : Nat) (hl : ys.length ≤ xs.length)
    (hx : ∀ d ∈ xs, d < p.base) (hy : ∀ d ∈ ys, d < p.base) (hc : b ≤ 1) :
    ofDigits p.base (subLoop p xs ys b).1 + ofDigits p.base ys + b =
        ofDigits p.base xs + p.base^xs.length*(subLoop p xs ys b).2 ∧
      (subLoop p xs ys b).1.length = xs.length ∧
      (∀ d ∈ (subLoop p xs ys b).1, d < p.base) ∧ (subLoop p xs ys b).2 ≤ 1 := by
  have hB := p.base_ge
  induction xs generalizing ys b with
  | nil =>
    obtain rfl := length_eq_zero_iff.1 (le_zero.1 hl)
    simp [subLoop,hc]
  | cons x xs ih =>
    obtain ⟨hxd,hxs⟩ := forall_mem_cons.1 hx
    cases ys with
    | nil =>
      have hs := digitSub_value hxd (show b < p.base by omega) (show 0 + 1 < p.base by omega)
      have hlt := digitSub_lt (p := p) x b 0
      have hc' := digitSub_borrow_le (p := p) x b 0
      rw [subLoop]
      generalize digitSub p x b 0 = df at *
      obtain ⟨hv,hln,hd,hcr⟩ := ih [] df.2 (zero_le _) hxs (by simp) hc'
      refine ⟨?_,by simp [hln],forall_mem_cons.2 ⟨hlt,hd⟩,hcr⟩
      have h := Base.borrow_chain (by omega) hv
      simp only [length_cons,ofDigits_cons,ofDigits_nil] at h ⊢
      omega
    | cons y ys =>
      obtain ⟨hyd,hys⟩ := forall_mem_cons.1 hy
      obtain ⟨hs,hlt,hc'⟩ := digitSub_borrow hxd hyd hc
      rw [subLoop]
      generalize digitSub p (digitSub p x y 0).1 b (digitSub p x y 0).2 = df at *
      obtain ⟨hv,hln,hd,hcr⟩ := ih ys df.2 (by simpa using hl) hxs hys hc'
      refine ⟨?_,by simp [hln],forall_mem_cons.2 ⟨hlt,hd⟩,hcr⟩
      have h := Base.borrow_chain (by omega) hv
      simp only [length_cons,ofDigits_cons] at h ⊢
      omega

end

namespace JSBigInt
variable {p : Platform} (heap : Storage p) {x y : JSBigInt}

section
variable (hx : x.Normalized p) (hy : y.Normalized p)
include hx hy

private theorem absoluteAdd_longer (hl : y.length ≤ x.length) (sign : Bool) :
    Yields p (signedValue sign (x.magnitude p+y.magnitude p)) (p.maxLength < x.length + 1)
      (absoluteAdd heap x y sign) := by
  unfold absoluteAdd
  rw [if_neg (by omega)]
  dsimp only
  split
  next hz =>
    rw [isZero_iff] at hz
    have hyz : y.digits = [] := length_eq_zero_iff.1 (by simpa [length,hz] using hl)
    refine ⟨hx,?_⟩
    simp [toInt,magnitude,hz,hyz]
  split
  next hz =>
    rw [isZero_iff] at hz
    have hy0 : y.magnitude p = 0 := by simp [magnitude,hz]
    rw [hy0,add_zero]
    exact withSign_represents heap hx sign
  unfold tryCreateWithLength
  split
  next hlm => exact ⟨rfl,hlm⟩
  next hlm =>
    obtain ⟨hv,hln,hd,hc⟩ := addLoop_spec x.digits y.digits 0 hl hx.digit_lt hy.digit_lt (zero_le _)
    have hB := p.base_ge
    refine trimmed_represents heap sign (createWithLength_length heap _) (by simp [hln,length])
      (forall_mem_append.2 ⟨hd,forall_mem_singleton.2 (by omega)⟩)
      (Nat.succ_pos _) (Nat.le_of_not_lt hlm) ?_
    rw [ofDigits_append,ofDigits_singleton,hln,hv]
    rfl

theorem absoluteAdd_spec (sign : Bool) :
    Yields p (signedValue sign (x.magnitude p+y.magnitude p))
      (p.maxLength < max x.length y.length + 1) (absoluteAdd heap x y sign) := by
  rcases lt_or_ge x.length y.length with h | h
  · have hs : absoluteAdd heap x y sign = absoluteAdd heap y x sign := by
      unfold absoluteAdd
      rw [if_pos h,if_neg (by omega)]
    rw [hs,add_comm,max_eq_right (by omega)]
    exact absoluteAdd_longer heap hy hx (by omega) sign
  · rw [max_eq_left h]
    exact absoluteAdd_longer heap hx hy h sign

theorem length_le_of_magnitude_le (h : y.magnitude p ≤ x.magnitude p) : y.length ≤ x.length := by
  by_contra hl
  have := absoluteCompare_eq hx hy
  unfold absoluteCompare at this
  rw [if_pos (by omega),if_neg (by omega)] at this
  split at this <;> simp at this

private theorem absoluteSub_spec (hle : y.magnitude p ≤ x.magnitude p) (sign : Bool) :
    Represents p (absoluteSub heap x y sign) (signedValue sign (x.magnitude p-y.magnitude p)) := by
  have hl := length_le_of_magnitude_le hx hy hle
  unfold absoluteSub
  rw [absoluteCompare_eq hx hy]
  dsimp only
  split
  next hz =>
    rw [isZero_iff] at hz
    refine ⟨hx,?_⟩
    simp [toInt,magnitude,hz]
  next hxz =>
  split
  next hz =>
    rw [isZero_iff] at hz
    simpa [magnitude,hz] using withSign_represents heap hx sign
  rw [if_neg (not_lt.2 hle)]
  rcases hle.eq_or_lt with he | hg
  · rw [if_neg he.not_lt,if_pos rfl,he,Nat.sub_self,signedValue_zero]
    exact createZero_represents
  · rw [if_pos hg,if_neg (by simp)]
    obtain ⟨hv,hln,hd,hc⟩ := subLoop_spec x.digits y.digits 0 hl hx.digit_lt hy.digit_lt (zero_le _)
    generalize subLoop p x.digits y.digits 0 = d at *
    have hlt := ofDigits_lt_base_pow_length (by have := p.base_ge; omega) hd
    rw [hln] at hlt
    have hb : d.2 = 0 := by
      by_contra hn
      have := mul_le_mul_left (p.base^x.digits.length) (pos_of_ne_zero hn)
      unfold magnitude at hle
      omega
    refine trimmed_represents heap sign (createWithLength_length heap _) hln hd ?_ hx.length_le ?_
    · exact pos_of_ne_zero (by simpa [isZero] using hxz)
    · rw [hb] at hv
      unfold magnitude
      omega

end

theorem opposite_signs (h : x.sign ≠ y.sign) : y.sign = !x.sign := by
  revert h
  cases x.sign <;> cases y.sign <;> simp

section
variable (hx : x.Normalized p) (hy : y.Normalized p)
include hx hy

theorem subtractSmaller_represents : Represents p
      (if absoluteCompare x y = .greaterThan ∨ absoluteCompare x y = .equal then absoluteSub heap x y x.sign
        else absoluteSub heap y x (!x.sign))
      (signedValue x.sign (x.magnitude p)-signedValue x.sign (y.magnitude p)) := by
  rw [absoluteCompare_eq hx hy]
  rcases lt_or_ge (x.magnitude p) (y.magnitude p) with h | h
  · rw [if_pos h,if_neg (by simp)]
    have := absoluteSub_spec heap hy hx h.le (!x.sign)
    rwa [signedValue_not,signedValue_sub _ h.le,Int.neg_sub] at this
  · rw [if_neg (not_lt.2 h),if_pos (by split <;> simp),← signedValue_sub _ h]
    exact absoluteSub_spec heap hx hy h x.sign

/-- Addition is exact unless the sum may need a digit beyond the limit. -/
theorem add_spec : Yields p (x.toInt p+y.toInt p) (p.maxLength < max x.length y.length + 1) (add heap x y) := by
  unfold add toInt
  dsimp only
  split
  next hs =>
    rw [← hs,← signedValue_add]
    exact absoluteAdd_spec heap hx hy x.sign
  next hs =>
    have h := subtractSmaller_represents heap hx hy
    rw [opposite_signs hs,signedValue_not,← Int.sub_eq_add_neg,← apply_ite Except.ok]
    exact h

/-- Subtraction is exact unless the difference may need a digit beyond the limit. -/
theorem sub_spec : Yields p (x.toInt p-y.toInt p) (p.maxLength < max x.length y.length + 1) (sub heap x y) := by
  unfold sub toInt
  dsimp only
  split
  next hs =>
    rw [opposite_signs hs,signedValue_not,Int.sub_neg,← signedValue_add]
    exact absoluteAdd_spec heap hx hy x.sign
  next hs =>
    rw [← not_not.1 hs,← apply_ite Except.ok]
    exact subtractSmaller_represents heap hx hy

end

end JSBigInt
end WebKit.JavaScriptCore.BigInt
