import WebKit.JavaScriptCore.BigInt.Additive
import WebKit.JavaScriptCore.BigInt.DigitDivision
import WebKit.JavaScriptCore.BigInt.DigitShift
import WebKit.JavaScriptCore.BigInt.Multiply

/-! Division of absolute values: by one digit, and Knuth's Algorithm D. The names inside
the algorithm are those of Knuth's book, as in the source. -/
namespace WebKit.JavaScriptCore.BigInt
open List Nat

section
variable (p : Platform)

/-- Quotient digits and remainder; the most significant digit is divided first. -/
def divWithDigitLoop (divisor : Nat) : List Nat → List Nat × Nat
  | [] => ([], 0)
  | x::xs =>
    let higher := divWithDigitLoop divisor xs
    let step := digitDiv p higher.2 x divisor
    (step.1::higher.1, step.2)

/-- Whether `factor1 * factor2` exceeds the two-digit number. -/
def productGreaterThan (factor1 factor2 high low : Nat) : Bool :=
  let result := digitMul p factor1 factor2
  decide (high < result.2) || (result.2 == high && decide (low < result.1))

/-- Decrement the estimate while the next digit shows it too large. -/
def estimateLoop (vn1 vn2 ujn2 : Nat) : Nat → Nat → Nat
  | 0, _ => 0
  | qhat + 1, rhat =>
    if productGreaterThan p (qhat+1) vn2 rhat ujn2 then
      let prevRhat := rhat
      let rhat := (rhat+vn1)%p.base
      if rhat < prevRhat then qhat else estimateLoop vn1 vn2 ujn2 qhat rhat
    else qhat + 1

/-- Step D3: the estimate of the current quotient digit. -/
def estimateQuotient (ujn ujn1 ujn2 vn1 vn2 : Nat) : Nat :=
  if ujn = vn1 then p.base - 1 else
    let step := digitDiv p ujn ujn1 vn1
    estimateLoop p vn1 vn2 ujn2 step.1 step.2

end

namespace JSBigInt
variable {p : Platform} (heap : Storage p)

def absoluteDivWithDigitDivisor (x : JSBigInt) (divisor : Nat) : JSBigInt × Nat :=
  if divisor = 1 then (x, 0) else
    let result := divWithDigitLoop p divisor x.digits
    ((createWithLengthUnchecked heap x.length).setDigits result.1, result.2)

/-- Replace the digits from startIndex on by the given ones. -/
def splice (x : JSBigInt) (startIndex : Nat) (written : List Nat) : JSBigInt :=
  { x with digits := x.digits.take startIndex ++ (written ++ x.digits.drop (startIndex+written.length)) }

def absoluteInplaceAdd (p : Platform) (x summand : JSBigInt) (startIndex : Nat) : JSBigInt × Nat :=
  let sum := addLoop p ((x.digits.drop startIndex).take summand.length) summand.digits 0
  (x.splice startIndex sum.1, sum.2)

def absoluteInplaceSub (p : Platform) (x subtrahend : JSBigInt) (startIndex : Nat) : JSBigInt × Nat :=
  let difference := subLoop p ((x.digits.drop startIndex).take subtrahend.length) subtrahend.digits 0
  (x.splice startIndex difference.1, difference.2)

def inplaceRightShift (p : Platform) (x : JSBigInt) (shift : Nat) : JSBigInt :=
  if shift = 0 then x else
    x.setDigits (rightShiftLoop p shift (x.digit 0 >>> shift) x.digits.tail)

/-- Shift left by less than a digit, with a digit for the carry if asked for. -/
def absoluteLeftShiftAlwaysCopy (x : JSBigInt) (shift : Nat) (addOneDigit : Bool) : Except Exception JSBigInt := do
  let result ← tryCreateWithLength heap (if addOneDigit then x.length+1 else x.length)
  if shift = 0 then
    return result.setDigits (if addOneDigit then x.digits ++ [0] else x.digits)
  let shifted := leftShiftLoop p shift x.digits 0
  return result.setDigits (if addOneDigit then shifted.1 ++ [shifted.2] else shifted.1)

/-- One round: the quotient digit, the remaining dividend and the cell with the divisor's multiple. -/
def divisionStep (p : Platform) (divisor u qhatv : JSBigInt) (n j : Nat) : Nat × JSBigInt × JSBigInt :=
  let qhat := estimateQuotient p (u.digit (j+n)) (u.digit (j+n-1)) (u.digit (j+n-2))
    (divisor.digit (n-1)) (divisor.digit (n-2))
  let qhatv := internalMultiplyAdd (p := p) divisor qhat 0 n qhatv
  let (u, c) := absoluteInplaceSub p u qhatv j
  if c = 0 then (qhat, u, qhatv)
  else
    -- The quotient digit was one too high: undo one subtraction of the divisor.
    let (u, c) := absoluteInplaceAdd p u divisor j
    ((qhat+p.base-1)%p.base, u.splice (j+n) [(u.digit (j+n)+c)%p.base], qhatv)

def divisionLoop (p : Platform) (divisor : JSBigInt) (n : Nat) : Nat → JSBigInt → JSBigInt → List Nat × JSBigInt
  | 0, u, _ => ([], u)
  | j + 1, u, qhatv =>
    let (qhat, u, qhatv) := divisionStep p divisor u qhatv n j
    let rest := divisionLoop p divisor n j u qhatv
    (rest.1 ++ [qhat], rest.2)

/-- Quotient and remainder for a divisor of at least two digits. -/
def absoluteDivWithBigIntDivisor (dividend divisor : JSBigInt) : Except Exception (JSBigInt × JSBigInt) := do
  let n := divisor.length
  let m := dividend.length - n
  let q := createWithLengthUnchecked heap (m+1)
  let qhatv ← tryCreateWithLength heap (n+1)
  let shift := clz p (divisor.digit (n-1))
  let divisor ← (if 0 < shift then absoluteLeftShiftAlwaysCopy heap divisor shift false else .ok divisor)
  let u ← absoluteLeftShiftAlwaysCopy heap dividend shift true
  let (digits, u) := divisionLoop p divisor n (m+1) u qhatv
  return (q.setDigits digits, inplaceRightShift p u shift)

end JSBigInt

section
variable {p : Platform}

/-- Schoolbook division by one digit is exact. -/
theorem divWithDigitLoop_spec {den : Nat} (h0 : 0 < den) (hd : den < p.base) (xs : List Nat) (hx : ∀ d ∈ xs, d < p.base) :
    ofDigits p.base (divWithDigitLoop p den xs).1 = ofDigits p.base xs/den ∧
      (divWithDigitLoop p den xs).2 = ofDigits p.base xs%den ∧
      (divWithDigitLoop p den xs).1.length = xs.length ∧
      ∀ d ∈ (divWithDigitLoop p den xs).1, d < p.base := by
  induction xs with
  | nil => simp [divWithDigitLoop]
  | cons x xs ih =>
    obtain ⟨hxd,hxs⟩ := forall_mem_cons.1 hx
    obtain ⟨hq,hr,hl,hlt⟩ := ih hxs
    have hlw : ofDigits p.base xs%den < den := mod_lt _ h0
    rw [divWithDigitLoop]
    rw [hr,digitDiv_eq hd hlw hxd,ofDigits_cons,ofDigits_cons,hq,length_cons,hl]
    have hs : x + p.base*ofDigits p.base xs =
        ofDigits p.base xs%den*p.base + x + den*(p.base*(ofDigits p.base xs/den)) := by
      nth_rewrite 1 [← mod_add_div (ofDigits p.base xs) den]
      ring
    refine ⟨?_,?_,rfl,forall_mem_cons.2 ⟨?_,hlt⟩⟩
    · rw [hs,add_mul_div_left _ _ h0]
    · rw [hs,add_mul_mod_self_left]
    · rw [div_lt_iff_lt_mul h0]
      have := mul_le_mul_right p.base (succ_le_of_lt hlw)
      rw [succ_mul,mul_comm den] at this
      omega

private theorem productGreaterThan_iff {f1 f2 hg low : Nat} (h1 : f1 < p.base) (h2 : f2 < p.base) (hl : low < p.base) :
    productGreaterThan p f1 f2 hg low ↔ hg*p.base + low < f1*f2 := by
  obtain ⟨hv,hlw,hh⟩ := digitMul_value h1 h2
  unfold productGreaterThan
  generalize digitMul p f1 f2 = r at *
  rw [← hv,mul_comm hg]
  simp only [Bool.or_eq_true,decide_eq_true_eq,Bool.and_eq_true,beq_iff_eq]
  rcases lt_trichotomy hg r.2 with h | h | h
  · have := mul_le_mul_left p.base (succ_le_of_lt h)
    rw [succ_eq_add_one,mul_add] at this
    exact ⟨fun _ => by omega,fun _ => .inl h⟩
  · subst h
    omega
  · have := mul_le_mul_left p.base (succ_le_of_lt h)
    rw [succ_eq_add_one,mul_add] at this
    omega

/-- The loop of the source is the corrected quotient estimate. -/
theorem estimateLoop_eq {vn1 vn2 uj2 : Nat} (h1 : vn1 < p.base) (h1' : 0 < vn1) (h2 : vn2 < p.base)
    (hu : uj2 < p.base) (q rhat : Nat) (hq : q < p.base) (hr : rhat < p.base) :
    estimateLoop p vn1 vn2 uj2 q rhat = Base.correctEstimate p.base vn1 vn2 uj2 q rhat := by
  induction q generalizing rhat with
  | zero => rfl
  | succ q ih =>
    rw [estimateLoop,Base.correctEstimate]
    by_cases hg : rhat*p.base + uj2 < (q+1)*vn2
    · rw [if_pos ((productGreaterThan_iff hq h2 hu).2 hg),if_pos (show _ ∨ _ from .inr hg)]
      rcases lt_or_ge (rhat+vn1) p.base with h | h
      · rw [mod_eq_of_lt h,if_neg (by omega),if_neg (by omega)]
        exact ih _ (by omega) h
      · rw [mod_eq_sub_mod h,mod_eq_of_lt (by omega),if_pos (by omega),if_pos h]
    · rw [if_neg (fun h => hg ((productGreaterThan_iff hq h2 hu).1 h)),if_neg (by omega)]

/-- If the leading digits agree, the largest digit is at most one too high. -/
theorem largest_digit_estimate {vn1 B m V T : Nat} (hn : B ≤ 2*vn1) (hV : V < (vn1+1)*B*m)
    (hT : vn1*B*B*m ≤ T) (hlt : T < B*V) : T/V ≤ B - 1 ∧ B - 1 ≤ T/V + 1 := by
  have hp : 0 < V := pos_of_ne_zero (by rintro rfl; omega)
  refine ⟨le_sub_one_of_lt ((div_lt_iff_lt_mul hp).2 hlt),?_⟩
  have hdg : (B-2)*(vn1+1) ≤ vn1*B := by
    rcases lt_or_ge B 2 with h | h
    · rw [show B - 2 = 0 by omega]
      omega
    · obtain ⟨c,rfl⟩ := Nat.exists_eq_add_of_le h
      rw [Nat.add_sub_cancel_left,Nat.mul_add,Nat.mul_comm vn1,Nat.add_mul]
      omega
  have hl : (B-2)*V ≤ T :=
    calc (B-2)*V ≤ (B-2)*((vn1+1)*B*m) := mul_le_mul_left _ hV.le
      _ = (B-2)*(vn1+1)*(B*m) := by ring
      _ ≤ vn1*B*(B*m) := mul_le_mul_right _ hdg
      _ = vn1*B*B*m := by ring
      _ ≤ T := hT
  have := (le_div_iff_mul_le hp).2 hl
  omega

/-- The estimate is the true digit or one too high. -/
theorem estimateQuotient_spec {uj uj1 uj2 vn1 vn2 m x y : Nat} (hn : p.base ≤ 2*vn1) (h1 : vn1 < p.base)
    (h2 : vn2 < p.base) (hu1 : uj1 < p.base) (hu2 : uj2 < p.base) (hx : x < m) (hy : y < m)
    (hlt : ((uj*p.base+uj1)*p.base+uj2)*m + y < p.base*((vn1*p.base+vn2)*m+x)) :
    let T := ((uj*p.base+uj1)*p.base+uj2)*m + y
    let V := (vn1*p.base+vn2)*m + x
    let qhat := estimateQuotient p uj uj1 uj2 vn1 vn2
    T/V ≤ qhat ∧ qhat ≤ T/V + 1 ∧ qhat < p.base := by
  intro T V qhat
  have hV : V < (vn1+1)*p.base*m :=
    calc V < (vn1*p.base+vn2)*m + m := Nat.add_lt_add_left hx _
      _ = (vn1*p.base+(vn2+1))*m := by ring
      _ ≤ (vn1*p.base+p.base)*m := mul_le_mul_right _ (by omega)
      _ = _ := by ring
  have hT : uj*p.base*p.base*m ≤ T :=
    calc uj*p.base*p.base*m ≤ ((uj*p.base+uj1)*p.base+uj2)*m := by
          refine mul_le_mul_right _ (le_add_right_of_le (mul_le_mul_right _ (le_add_right _ _)))
      _ ≤ T := le_add_right _ _
  have hle : uj ≤ vn1 := by
    have h : uj*(p.base*p.base*m) < (vn1+1)*(p.base*p.base*m) :=
      calc uj*(p.base*p.base*m) = uj*p.base*p.base*m := by ring
        _ ≤ T := hT
        _ < p.base*V := hlt
        _ ≤ p.base*((vn1+1)*p.base*m) := mul_le_mul_left _ hV.le
        _ = _ := by ring
    exact Nat.le_of_lt_succ (Nat.lt_of_mul_lt_mul_right h)
  rcases hle.eq_or_lt with rfl | hl
  · have h := largest_digit_estimate hn hV hT hlt
    have hq : qhat = p.base - 1 := if_pos rfl
    omega
  · have hv : 0 < vn1 := by omega
    have hf : uj*p.base + uj1 < vn1*p.base := by
      have := mul_le_mul_right p.base (succ_le_of_lt hl)
      rw [succ_mul] at this
      omega
    have hqt : (uj*p.base+uj1)/vn1 < p.base := by
      rw [div_lt_iff_lt_mul hv,mul_comm p.base]
      exact hf
    have hq : qhat = ((uj*p.base+uj1)*p.base+uj2)/(vn1*p.base+vn2) := by
      change estimateQuotient p _ _ _ _ _ = _
      unfold estimateQuotient
      rw [if_neg (by omega),digitDiv_eq h1 hl hu1]
      rw [estimateLoop_eq h1 hv h2 hu2 _ _ hqt ((mod_lt _ hv).trans h1)]
      exact Base.correctEstimate_eq hn h2 hu2 (by omega)
    have hp : 0 < vn1*p.base + vn2 := by omega
    have hql : ((uj*p.base+uj1)*p.base+uj2)/(vn1*p.base+vn2) < p.base := by
      rw [div_lt_iff_lt_mul hp,mul_add]
      have := mul_le_mul_right p.base (succ_le_of_lt hf)
      rw [succ_mul,mul_comm (vn1*p.base)] at this
      omega
    rw [hq]
    refine ⟨Base.quotient_le_leading hp hy,Base.leading_le_quotient_succ hp hx ?_,hql⟩
    have := mul_le_mul_right p.base hv
    omega

end

namespace JSBigInt
variable {p : Platform} (heap : Storage p) {x den : JSBigInt} {low window rest : List Nat}

section
variable (hx : x.digits = low ++ (window ++ rest))
include hx

theorem splice_window {w : List Nat}
    (hl : w.length = window.length) :
    x.splice low.length w = ⟨x.sign,low ++ (w ++ rest)⟩ := by
  unfold splice
  rw [hx,take_left,← drop_drop,drop_left,hl,drop_left]

theorem digit_window {i : Nat} (hi : i < window.length) : x.digit (low.length+i) = window.getD i 0 := by
  unfold digit
  rw [hx,getD_append_right _ _ _ _ (by omega),Nat.add_sub_cancel_left,getD_append _ _ _ _ hi]

theorem window_take : (x.digits.drop low.length).take window.length = window := by
  rw [hx,drop_left,take_left]

end

private theorem exact_subtraction {V T W w c : Nat} (hw : w < W) (h : w + V*(T/V) = T + W*c) : c = 0 ∧ w = T%V := by
  have hdv := div_add_mod T V
  have hc : c = 0 := by
    by_contra hn
    have := mul_le_mul_left W (pos_of_ne_zero hn)
    omega
  subst hc
  omega

private theorem excess_subtraction {V T W w c : Nat} (hV : 0 < V) (hc1 : c ≤ 1)
    (h : w + V*(T/V+1) = T + W*c) : c = 1 ∧ w + V = T%V + W := by
  have hdv := div_add_mod T V
  have hm := mod_lt T hV
  rw [mul_add] at h
  have hc : c ≠ 0 := by
    rintro rfl
    omega
  obtain rfl : c = 1 := by omega
  exact ⟨rfl,by omega⟩

private theorem add_back {B P V lo hi s c r : Nat} (h : lo + P*hi + V = r + P*B) (hs : s + P*c = lo + V)
    (hl : s < P) (hr : r < P) : s + P*((hi+c)%B) = r := by
  have he : s + P*(hi+c) = r + P*B := by
    rw [mul_add]
    omega
  have hm := congrArg (· % P) he
  simp only [add_mul_mod_self_left,mod_eq_of_lt hl,mod_eq_of_lt hr] at hm
  have ht : hi + c = B := Nat.eq_of_mul_eq_mul_left (show 0 < P by omega) (by omega)
  rw [ht,mod_self,mul_zero,add_zero,hm]

theorem exists_last {l : List Nat} (h : 0 < l.length) : ∃ l' a, l = l' ++ [a] := by
  rcases eq_nil_or_concat l with rfl | ⟨l',a,rfl⟩
  · simp at h
  · exact ⟨l',a,by simp⟩

private theorem exists_last_two {l : List Nat} (h : 2 ≤ l.length) : ∃ l' a b, l = l' ++ [a, b] := by
  obtain ⟨l',b,rfl⟩ := exists_last (show 0 < l.length by omega)
  obtain ⟨l'',a,rfl⟩ := exists_last (l := l') (by simp at h; omega)
  exact ⟨l'',a,b,by simp⟩

variable {u : JSBigInt}

section
variable (hd : ∀ d ∈ den.digits, d < p.base)
include hd

private theorem step_estimate
    (hn : 2 ≤ den.length)
    (hnr : p.base ≤ 2*den.digit (den.length-1)) (hu : u.digits = low ++ (window ++ rest))
    (hw : window.length = den.length + 1) (hwd : ∀ d ∈ window, d < p.base)
    (hT : ofDigits p.base window < p.base*den.magnitude p) :
    let n := den.length
    let j := low.length
    let qhat := estimateQuotient p (u.digit (j+n)) (u.digit (j+n-1)) (u.digit (j+n-2))
      (den.digit (n-1)) (den.digit (n-2))
    let quotient := ofDigits p.base window/den.magnitude p
    quotient ≤ qhat ∧ qhat ≤ quotient + 1 ∧ qhat < p.base := by
  intro n j
  obtain ⟨d',vn2,vn1,hdv⟩ := exists_last_two hn
  obtain ⟨w',u0,rfl⟩ := exists_last (show 0 < window.length by omega)
  obtain ⟨lo,u2,u1,rfl⟩ := exists_last_two (l := w') (by simp at hw; omega)
  have hl : n = d'.length + 2 := by simp [n,length,hdv]
  have hlo : lo.length = d'.length := by
    simp only [length_append,length_cons,length_nil] at hw
    omega
  have digit_top (i : Nat) (hi : i < lo.length + 3) : u.digit (j+i) = (lo ++ [u2, u1] ++ [u0]).getD i 0 :=
    digit_window hu (by omega)
  have e0 : u.digit (j+n) = u0 := by
    rw [hl,← hlo,digit_top _ (by omega)]
    simp
  have e1 : u.digit (j+n-1) = u1 := by
    rw [hl,← hlo,show j + (lo.length+2) - 1 = j + (lo.length+1) by omega,digit_top _ (by omega)]
    simp
  have e2 : u.digit (j+n-2) = u2 := by
    rw [hl,← hlo,show j + (lo.length+2) - 2 = j + lo.length by omega,digit_top _ (by omega)]
    simp
  have v1 : den.digit (n-1) = vn1 := by
    rw [hl,digit,hdv]
    simp
  have v2 : den.digit (n-2) = vn2 := by
    rw [hl,digit,hdv]
    simp
  rw [hdv] at hd
  have hB : 1 < p.base := by have := p.base_ge; omega
  have hy := ofDigits_lt_base_pow_length hB (l := lo) (fun d h => hwd d (by simp [h]))
  have hx := ofDigits_lt_base_pow_length hB (l := d') (fun d h => hd d (by simp [h]))
  rw [hlo] at hy
  have ht : ofDigits p.base (lo ++ [u2, u1] ++ [u0]) =
      ((u0*p.base+u1)*p.base+u2)*p.base^d'.length + ofDigits p.base lo := by
    simp only [append_assoc,cons_append,nil_append,ofDigits_append,ofDigits_cons,ofDigits_nil,hlo]
    ring
  have hv : den.magnitude p = (vn1*p.base+vn2)*p.base^d'.length + ofDigits p.base d' := by
    unfold magnitude
    rw [hdv]
    simp only [ofDigits_append,ofDigits_cons,ofDigits_nil]
    ring
  rw [v1] at hnr
  rw [ht,hv] at hT
  rw [e0,e1,e2,v1,v2,ht,hv]
  exact estimateQuotient_spec hnr (hd vn1 (by simp)) (hd vn2 (by simp)) (hwd u1 (by simp)) (hwd u2 (by simp)) hx hy hT

/-- Undoing a subtraction in the window of the remainder less the divisor. -/
theorem undoSubtraction_spec {r : Nat} (hu : u.digits = low ++ (window ++ rest))
    (hw : window.length = den.length + 1) (hwd : ∀ d ∈ window, d < p.base) (hr : r < den.magnitude p)
    (h : ofDigits p.base window + den.magnitude p = r + p.base^window.length) :
    let out := absoluteInplaceAdd p u den low.length
    ∃ rm, out.1.splice (low.length+den.length)
          [(out.1.digit (low.length+den.length)+out.2)%p.base] = ⟨u.sign,low ++ (rm ++ rest)⟩ ∧
      ofDigits p.base rm = r ∧ rm.length = den.length + 1 ∧ ∀ d ∈ rm, d < p.base := by
  obtain ⟨lo,hi,rfl⟩ := exists_last (show 0 < window.length by omega)
  have hlo : lo.length = den.length := by simpa using hw
  have hu' : u.digits = low ++ (lo ++ ([hi] ++ rest)) := by rw [hu,append_assoc]
  have ht : (u.digits.drop low.length).take den.length = lo := by
    rw [← hlo]
    exact window_take hu'
  obtain ⟨hld,-⟩ := forall_mem_append.1 hwd
  obtain ⟨hv,hl,hlt,-⟩ := addLoop_spec lo den.digits 0 hlo.ge hld hd (zero_le _)
  unfold absoluteInplaceAdd
  rw [ht]
  generalize addLoop p lo den.digits 0 = s at *
  intro out
  have ho : out.1 = ⟨u.sign,low ++ (s.1 ++ ([hi] ++ rest))⟩ := splice_window hu' hl
  have ho' : out.1.digits = (low ++ s.1) ++ ([hi] ++ rest) := by simp [ho]
  have hp : low.length + den.length = (low ++ s.1).length := by simp [hl,hlo]
  have hdg : out.1.digit (low.length+den.length) = hi := by
    rw [hp]
    exact digit_window ho' (i := 0) (by simp)
  refine ⟨s.1 ++ [(hi+s.2)%p.base],?_,?_,by simp [hl,hlo],?_⟩
  · rw [hdg,hp,splice_window ho' (show [(hi+out.2)%p.base].length = [hi].length from rfl),ho]
    simp [out]
  · have hs := ofDigits_lt_base_pow_length (by have := p.base_ge; omega) hlt
    have hVlt := magnitude_lt hd
    rw [hl] at hs
    rw [← hlo] at hVlt
    simp only [ofDigits_append,ofDigits_singleton,length_append,length_singleton,pow_succ,hl] at h ⊢
    exact add_back h hv hs (hr.trans hVlt)
  · exact forall_mem_append.2 ⟨hlt,forall_mem_singleton.2 (mod_lt _ p.base_pos)⟩

/-- One round: the quotient digit is exact and the window keeps the remainder. -/
theorem divisionStep_spec {q : JSBigInt} (hn : 2 ≤ den.length)
    (hnr : p.base ≤ 2*den.digit (den.length-1)) (hu : u.digits = low ++ (window ++ rest))
    (hw : window.length = den.length + 1) (hwd : ∀ d ∈ window, d < p.base)
    (hq : q.length = den.length + 1) (hT : ofDigits p.base window < p.base*den.magnitude p) :
    ∃ r pr, divisionStep p den u q den.length low.length =
        (ofDigits p.base window/den.magnitude p, ⟨u.sign,low ++ (r ++ rest)⟩, pr) ∧
      ofDigits p.base r = ofDigits p.base window%den.magnitude p ∧
      r.length = den.length + 1 ∧ (∀ d ∈ r, d < p.base) ∧
      pr.length = den.length + 1 := by
  obtain ⟨hg,hle,hlt⟩ := step_estimate hd hn hnr hu hw hwd hT
  have hV : 0 < den.magnitude p := by
    refine pos_of_ne_zero fun h => ?_
    rw [h,mul_zero] at hT
    omega
  unfold divisionStep
  dsimp only at hg hle hlt ⊢
  generalize estimateQuotient p _ _ _ _ _ = qh at *
  obtain ⟨hpv,hp,hpd⟩ := internalMultiplyAdd_spec hd hlt hq
  generalize internalMultiplyAdd den qh 0 den.length q = pr at *
  have ht : (u.digits.drop low.length).take pr.length = window := by
    rw [hp,← hw]
    exact window_take hu
  unfold absoluteInplaceSub
  rw [ht]
  obtain ⟨hdv,hdl,hdd,hdc⟩ := subLoop_spec window pr.digits 0 (hp.trans hw.symm).le hwd hpd (zero_le _)
  generalize subLoop p window pr.digits 0 = df at *
  dsimp only
  rw [splice_window hu hdl]
  have hdt := ofDigits_lt_base_pow_length (by have := p.base_ge; omega) hdd
  rw [hdl] at hdt
  change _ + pr.magnitude p + 0 = _ at hdv
  rw [hpv,add_zero] at hdv
  rcases hg.eq_or_lt with he | hex
  · rw [← he] at hdv
    obtain ⟨hc,hr⟩ := exact_subtraction hdt hdv
    rw [if_pos hc,← he]
    exact ⟨df.1,pr,rfl,hr,hdl.trans hw,hdd,hp⟩
  · obtain rfl : qh = ofDigits p.base window/den.magnitude p + 1 := by omega
    obtain ⟨hc,hr⟩ := excess_subtraction hV hdc hdv
    rw [if_neg (by omega)]
    have hcl : (⟨u.sign,low ++ (df.1 ++ rest)⟩ : JSBigInt).digits = low ++ (df.1 ++ rest) := rfl
    rw [← hdl] at hr
    obtain ⟨r,hs,hv,hl,hlt'⟩ := undoSubtraction_spec hd hcl (hdl.trans hw) hdd (mod_lt _ hV) hr
    refine ⟨r,pr,?_,hv,hl,hlt',hp⟩
    rw [← hs,Nat.add_right_comm,Nat.add_sub_cancel,Nat.add_mod_right,Nat.mod_eq_of_lt ((Nat.lt_succ_self _).trans hlt)]

end

private theorem exists_window (digits : List Nat) {j n : Nat} (h : j + n ≤ digits.length) :
    ∃ low window rest, digits = low ++ (window ++ rest) ∧ low.length = j ∧ window.length = n := by
  refine ⟨digits.take j,(digits.drop j).take n,digits.drop (j+n),?_,?_,?_⟩
  · rw [← drop_drop,take_append_drop,take_append_drop]
  · rw [length_take]
    omega
  · rw [length_take,length_drop]
    omega

/-- The main loop divides the whole remaining dividend. -/
theorem divisionLoop_spec (hd : ∀ d ∈ den.digits, d < p.base) (hn : 2 ≤ den.length)
    (hnr : p.base ≤ 2*den.digit (den.length-1)) (k : Nat) (u q : JSBigInt)
    (hu : ∀ d ∈ u.digits, d < p.base) (hl : k + den.length ≤ u.length)
    (hq : q.length = den.length + 1)
    (ht : ofDigits p.base (u.digits.drop k) < den.magnitude p) :
    ofDigits p.base (divisionLoop p den den.length k u q).1 = u.magnitude p/den.magnitude p ∧
      (divisionLoop p den den.length k u q).2.magnitude p = u.magnitude p%den.magnitude p ∧
      (divisionLoop p den den.length k u q).1.length = k ∧
      (∀ d ∈ (divisionLoop p den den.length k u q).1, d < p.base) ∧
      (divisionLoop p den den.length k u q).2.length = u.length ∧
      ∀ d ∈ (divisionLoop p den den.length k u q).2.digits, d < p.base := by
  have hV : 0 < den.magnitude p := by omega
  induction k generalizing u q with
  | zero =>
    exact ⟨(div_eq_of_lt ht).symm,(mod_eq_of_lt ht).symm,rfl,by simp [divisionLoop],rfl,hu⟩
  | succ k ih =>
    obtain ⟨low,window,rest,hdg,rfl,hw⟩ := exists_window u.digits
      (show k + (den.length+1) ≤ u.digits.length by unfold length at *; omega)
    rw [hdg,forall_mem_append,forall_mem_append] at hu
    obtain ⟨hlw,hwd,hr⟩ := hu
    have hT : ofDigits p.base (window ++ rest) < p.base*den.magnitude p := by
      obtain ⟨d,window',rfl⟩ : ∃ d window', window = d::window' := exists_cons_of_length_eq_add_one hw
      rw [hdg,← drop_drop,drop_left,cons_append,drop_one,tail_cons] at ht
      have := hwd d (by simp)
      have h := mul_le_mul_left p.base (succ_le_of_lt ht)
      rw [succ_eq_add_one,mul_add] at h
      rw [cons_append,ofDigits_cons]
      omega
    have hs : p.base*den.magnitude p < p.base^window.length := by
      rw [hw,pow_succ']
      exact mul_lt_mul_of_pos_left (magnitude_lt hd) p.base_pos
    have hz : ofDigits p.base rest = 0 := by
      rw [ofDigits_append] at hT
      by_contra hne
      have := mul_le_mul_left (p.base^window.length) (pos_of_ne_zero hne)
      omega
    have hsm (digits : List Nat) : ofDigits p.base (digits ++ rest) = ofDigits p.base digits := by
      rw [ofDigits_append,hz,mul_zero,add_zero]
    rw [hsm] at hT
    obtain ⟨r,pr,hst,hrm,hrl,hrd,hp⟩ := divisionStep_spec hd hn hnr hdg hw hwd hq hT
    have hu1 : ∀ d ∈ low ++ (r ++ rest), d < p.base :=
      forall_mem_append.2 ⟨hlw,forall_mem_append.2 ⟨hrd,hr⟩⟩
    have hln : (low ++ (r ++ rest)).length = u.length := by
      rw [length,hdg]
      simp [hrl,hw]
    have hnx : ofDigits p.base ((low ++ (r ++ rest)).drop low.length) < den.magnitude p := by
      rw [drop_left,hsm,hrm]
      exact mod_lt _ hV
    obtain ⟨iq,ir,i,iqd,il,iud⟩ := ih ⟨u.sign,low ++ (r ++ rest)⟩ pr hu1
      (by simp only [length] at hln hl ⊢; omega) hp hnx
    rw [divisionLoop,hst]
    have hv : u.magnitude p = ofDigits p.base (low ++ (r ++ rest)) +
        den.magnitude p*(p.base^low.length*(ofDigits p.base window/den.magnitude p)) := by
      rw [magnitude,hdg]
      simp only [ofDigits_append,hz,hrm,mul_zero,add_zero]
      nth_rewrite 1 [← mod_add_div (ofDigits p.base window) (den.magnitude p)]
      ring
    refine ⟨?_,?_,by simp [i],?_,il.trans hln,iud⟩
    · rw [ofDigits_append,iq,i,ofDigits_singleton,hv,add_mul_div_left _ _ hV]
      rfl
    · rw [ir,hv,add_mul_mod_self_left]
      rfl
    · refine forall_mem_append.2 ⟨iqd,forall_mem_singleton.2 ?_⟩
      exact (div_lt_iff_lt_mul hV).2 hT

/-- An allocation failure, or the shifted digits and the bits above them. -/
theorem absoluteLeftShiftAlwaysCopy_spec (hx : ∀ d ∈ x.digits, d < p.base) {s : Nat}
    (hs : s ≤ p.digitBits) (a : Bool) :
    let resultLength := if a then x.length + 1 else x.length
    (absoluteLeftShiftAlwaysCopy heap x s a = .error .outOfMemory ∧ p.maxLength < resultLength) ∨
    ∃ digits c, absoluteLeftShiftAlwaysCopy heap x s a =
        .ok ⟨false,if a then digits ++ [c] else digits⟩ ∧ resultLength ≤ p.maxLength ∧
      ofDigits p.base digits + p.base^x.length*c = x.magnitude p*2^s ∧
      digits.length = x.length ∧ (∀ d ∈ digits, d < p.base) ∧ c < p.base := by
  intro resultLength
  unfold absoluteLeftShiftAlwaysCopy tryCreateWithLength
  by_cases hlm : p.maxLength < resultLength
  · exact .inl ⟨by rw [if_pos hlm]; rfl,hlm⟩
  · rw [if_neg hlm]
    refine .inr ?_
    have f (digits : List Nat) (c : Nat) (hl : digits.length = x.length) :
        (createWithLengthUnchecked heap resultLength).setDigits (if a then digits ++ [c] else digits) =
          ⟨false,if a then digits ++ [c] else digits⟩ :=
      setDigits_fresh heap (by cases a <;> simp [resultLength,hl])
    by_cases h0 : s = 0
    · refine ⟨x.digits,0,?_,Nat.le_of_not_lt hlm,?_,rfl,hx,p.base_pos⟩
      · rw [← f x.digits 0 rfl]
        exact if_pos h0
      · rw [h0,pow_zero,mul_one,mul_zero,add_zero]
        rfl
    · obtain ⟨hv,hl,hd,hc⟩ := leftShiftLoop_spec hs x.digits 0 hx (Nat.two_pow_pos _)
      refine ⟨_,_,?_,Nat.le_of_not_lt hlm,hv,hl,hd,hc.trans_le (Nat.pow_le_pow_right (by omega) hs)⟩
      rw [← f _ _ hl]
      exact if_neg h0

private theorem inplaceRightShift_spec (hx : ∀ d ∈ x.digits, d < p.base) (hn : 0 < x.length) {s : Nat}
    (hs : s ≤ p.digitBits) :
    (inplaceRightShift p x s).magnitude p = x.magnitude p/2^s ∧
      (inplaceRightShift p x s).length = x.length ∧
      ∀ d ∈ (inplaceRightShift p x s).digits, d < p.base := by
  unfold inplaceRightShift
  split
  next h0 => exact ⟨by rw [h0,pow_zero,Nat.div_one],rfl,hx⟩
  · obtain ⟨d,ds,hdg⟩ := exists_cons_of_length_pos hn
    have h0 : x.digit 0 = d := by simp [digit,hdg]
    rw [hdg] at hx
    have hf : (rightShiftLoop p s (d >>> s) ds).length = x.length := by
      rw [(rightShiftLoop_spec hs _ ds (forall_mem_cons.1 hx).2 (digit_shiftRight_lt hs (hx d (by simp)))).2.1,
        length,hdg]
      rfl
    rw [h0,hdg,tail_cons,setDigits_full hf]
    refine ⟨?_,hf,?_⟩
    · rw [magnitude,magnitude,hdg]
      exact rightShiftLoop_value hs hx
    · exact (rightShiftLoop_spec hs _ ds (forall_mem_cons.1 hx).2 (digit_shiftRight_lt hs (hx d (by simp)))).2.2

variable {y : JSBigInt}

/-- Shifting the divisor by its leading zeros fills the leading digit and loses nothing. -/
theorem normalized_divisor (hy : y.Normalized p) (hn : 2 ≤ y.length) {digits : List Nat}
    {c : Nat} (hd : ∀ d ∈ digits, d < p.base) (hl : digits.length = y.length)
    (hv : ofDigits p.base digits + p.base^y.length*c = y.magnitude p*2^clz p (y.digit (y.length-1))) :
    ofDigits p.base digits = y.magnitude p*2^clz p (y.digit (y.length-1)) ∧
      p.base ≤ 2*digits.getD (y.length-1) 0 := by
  obtain ⟨y',top,hy'⟩ := exists_last (show 0 < y.digits.length by unfold length at hn; omega)
  obtain ⟨ds,t,rfl⟩ := exists_last (show 0 < digits.length by omega)
  have hyl : y.length = y'.length + 1 := by simp [length,hy']
  have hds : ds.length = y'.length := by simpa [hyl] using hl
  have htp : y.digit (y.length-1) = top := by simp [digit,hyl,hy']
  have ht : (ds ++ [t]).getD (y.length-1) 0 = t := by simp [hyl,← hds]
  have htp0 : 0 < top := by
    have := hy.last_ne_zero (by simp [hy'])
    simp only [hy',getLast_append,getLast_singleton] at this
    exact pos_of_ne_zero this
  obtain ⟨hs,hf,hnr⟩ := clz_spec htp0 (hy.digit_lt top (by simp [hy']))
  rw [htp] at hv ⊢
  generalize clz p top = s at *
  have hB : 1 < p.base := by omega
  have hlw := ofDigits_lt_base_pow_length hB (l := y') (fun d h => hy.digit_lt d (by simp [hy',h]))
  have hdl := ofDigits_lt_base_pow_length hB (l := ds) (fun d h => hd d (by simp [h]))
  have hm : y.magnitude p = ofDigits p.base y' + p.base^y'.length*top := by
    rw [magnitude,hy',ofDigits_append,ofDigits_singleton]
  have hr : (top+1)*2^s ≤ p.base := by
    rw [p.base_split hs.le,mul_comm (2^s)] at hf ⊢
    exact mul_le_mul_right _ (Nat.lt_of_mul_lt_mul_right hf)
  have hc : c = 0 := by
    by_contra hne
    have h1 := mul_le_mul_left (p.base^y.length) (pos_of_ne_zero hne)
    have h2 : y.magnitude p*2^s < p.base^y.length :=
      calc y.magnitude p*2^s < p.base^y'.length*(top+1)*2^s := by
            refine mul_lt_mul_of_pos_right ?_ (Nat.two_pow_pos _)
            rw [hm,mul_add]
            omega
        _ = p.base^y'.length*((top+1)*2^s) := by ring
        _ ≤ p.base^y'.length*p.base := mul_le_mul_left _ hr
        _ = p.base^y.length := by rw [hyl,pow_succ]
    omega
  rw [hc,mul_zero,add_zero] at hv
  refine ⟨hv,?_⟩
  have hld : p.base^y'.length*(top*2^s) < p.base^y'.length*(t+1) := by
    have h1 : p.base^y'.length*(top*2^s) ≤ y.magnitude p*2^s := by
      rw [hm,add_mul,mul_assoc]
      exact le_add_left _ _
    rw [ofDigits_append,ofDigits_singleton,hds] at hv
    rw [hds] at hdl
    rw [mul_add _ t]
    omega
  have := lt_of_mul_lt_mul_left hld
  omega

private theorem shiftedDivisor_spec (hy : y.Normalized p) (hn : 2 ≤ y.length) :
    let shift := clz p (y.digit (y.length-1))
    ∃ den, (if 0 < shift then absoluteLeftShiftAlwaysCopy heap y shift false else .ok y) = .ok den ∧
      (∀ d ∈ den.digits, d < p.base) ∧ den.length = y.length ∧ den.magnitude p = y.magnitude p*2^shift ∧
      p.base ≤ 2*den.digit (den.length-1) := by
  intro shift
  by_cases h0 : 0 < shift
  · rw [if_pos h0]
    rcases absoluteLeftShiftAlwaysCopy_spec heap hy.digit_lt (sub_le _ _) false with
      ⟨-,hlm⟩ | ⟨digits,c,he,-,hv,hl,hd,-⟩
    · exact absurd hy.length_le (not_le.2 hlm)
    · obtain ⟨hvl,hnr⟩ := normalized_divisor hy hn hd hl hv
      refine ⟨_,he,hd,hl,hvl,?_⟩
      change p.base ≤ 2*digits.getD (digits.length-1) 0
      rwa [hl]
  · rw [if_neg h0]
    have hz : shift = 0 := by omega
    have hv : ofDigits p.base y.digits + p.base^y.length*0 = y.magnitude p*2^shift := by
      rw [hz,pow_zero,mul_one,mul_zero,add_zero]
      rfl
    obtain ⟨hvl,hnr⟩ := normalized_divisor hy hn hy.digit_lt rfl hv
    exact ⟨y,rfl,hy.digit_lt,rfl,hvl,hnr⟩

/-- Knuth's Algorithm D computes quotient and remainder. -/
theorem absoluteDivWithBigIntDivisor_spec (hx : x.Normalized p) (hy : y.Normalized p)
    (hn : 2 ≤ y.length) (hl : y.length ≤ x.length) :
    (absoluteDivWithBigIntDivisor heap x y = .error .outOfMemory ∧ p.maxLength < x.length + 1) ∨
    ∃ q r, absoluteDivWithBigIntDivisor heap x y = .ok (q, r) ∧ x.length + 1 ≤ p.maxLength ∧
      q.magnitude p = x.magnitude p/y.magnitude p ∧ q.length = x.length - y.length + 1 ∧
      (∀ d ∈ q.digits, d < p.base) ∧
      r.magnitude p = x.magnitude p%y.magnitude p ∧ r.length = x.length + 1 ∧ ∀ d ∈ r.digits, d < p.base := by
  have hy0 : y.digits ≠ [] := by
    intro h
    simp [length,h] at hn
  obtain ⟨den,hdi,hdd,hdl,hdv,hnr⟩ := shiftedDivisor_spec heap hy hn
  unfold absoluteDivWithBigIntDivisor
  dsimp only
  have hs : clz p (y.digit (y.length-1)) ≤ p.digitBits := sub_le _ _
  rw [hdi]
  generalize clz p (y.digit (y.length-1)) = shift at *
  by_cases hq : p.maxLength < y.length + 1
  · refine .inl ⟨?_,by omega⟩
    unfold tryCreateWithLength
    rw [if_pos hq]
    rfl
  have hqh : tryCreateWithLength heap (y.length+1) = .ok (createWithLengthUnchecked heap (y.length+1)) :=
    if_neg hq
  rw [hqh]
  rcases absoluteLeftShiftAlwaysCopy_spec heap hx.digit_lt hs true with
    ⟨he,hlm⟩ | ⟨digits,c,hu,hlm,hv,hlu,hd,hc⟩
  · refine .inl ⟨?_,hlm⟩
    rw [he]
    rfl
  rw [hu]
  simp only [if_true] at hlm ⊢
  refine .inr ⟨_,_,rfl,hlm,?_⟩
  generalize huc : (⟨false,digits ++ [c]⟩ : JSBigInt) = u
  have hul : u.length = x.length + 1 := by simp [← huc,length,hlu]
  have hud : ∀ d ∈ u.digits, d < p.base := by
    rw [← huc]
    exact forall_mem_append.2 ⟨hd,forall_mem_singleton.2 hc⟩
  have huv : u.magnitude p = x.magnitude p*2^shift := by
    rw [← huc,magnitude,ofDigits_append,hlu,ofDigits_singleton,hv]
  -- The leading digits of the shifted dividend are below the shifted den.
  have ht : ofDigits p.base (u.digits.drop (x.length-y.length+1)) < den.magnitude p := by
    have hsp := Base.ofDigits_take_drop (b := p.base) u.digits
      (show x.length - y.length + 1 ≤ u.digits.length by change _ ≤ u.length; omega)
    have hxl : u.magnitude p < p.base^(x.length-y.length+1)*(p.base^(y.length-1)*2^shift) := by
      rw [huv,← mul_assoc,← pow_add,show x.length - y.length + 1 + (y.length-1) = x.length by omega]
      exact mul_lt_mul_of_pos_right (magnitude_lt hx.digit_lt) (Nat.two_pow_pos _)
    have hlw := mul_le_mul_right (2^shift) (hy.magnitude_ge hy0)
    rw [hdv]
    refine (Nat.lt_of_mul_lt_mul_left (a := p.base^(x.length-y.length+1)) ?_).trans_le hlw
    unfold magnitude at hxl
    omega
  obtain ⟨iq,ir,i,iqd,il,iud⟩ := divisionLoop_spec hdd (by omega) hnr (x.length-y.length+1) u
    (createWithLengthUnchecked heap (y.length+1)) hud (by omega)
    (by rw [hdl]; exact createWithLength_length heap _) ht
  rw [hdl] at iq ir i iqd il iud
  obtain ⟨sv,sl,sd⟩ := inplaceRightShift_spec iud (by omega) hs
  have h2 := Nat.two_pow_pos shift
  rw [setDigits_fresh heap i]
  refine ⟨?_,i,iqd,?_,by omega,sd⟩
  · rw [huv,hdv,Nat.mul_div_mul_right _ _ h2] at iq
    exact iq
  · rw [sv,ir,huv,hdv,mul_mod_mul_right,Nat.mul_div_cancel _ h2]

end JSBigInt
end WebKit.JavaScriptCore.BigInt
