import WebKit.JavaScriptCore.BigInt.Storage

/-! Multiplication: the accumulating schoolbook product and the product by one digit. -/
namespace WebKit.JavaScriptCore.BigInt
open List Nat

section
variable (p : Platform)

/-- The digits of source * factor + carry + high, with the carry and high digit at the end. -/
def multiplyAddLoop (factor : Nat) : List Nat → Nat → Nat → List Nat × Nat × Nat
  | [], carry, high => ([], carry, high)
  | current::source, carry, high =>
    let product := digitMul p current factor
    let sum := digitAdd p product.1 high 0
    let sum := digitAdd p sum.1 carry sum.2
    let rest := multiplyAddLoop factor source sum.2 product.2
    (sum.1::rest.1, rest.2)

/-- Propagate the last carry and high digit while one is left. -/
def accumulateCarry : List Nat → Nat → Nat → List Nat
  | [], _, _ => []
  | acc::accumulator, carry, high =>
    if carry = 0 ∧ high = 0 then acc :: accumulator else
      let sum := digitAdd p acc high 0
      let sum := digitAdd p sum.1 carry sum.2
      sum.1 :: accumulateCarry accumulator sum.2 0

/-- The loop over the multiplicand; the accumulator is given from the current index on. -/
def accumulateLoop (multiplier : Nat) : List Nat → List Nat → Nat → Nat → List Nat
  | [], accumulator, carry, high => accumulateCarry p accumulator carry high
  | _::_, [], _, _ => []
  | multiplicandDigit::multiplicand, acc::accumulator, carry, high =>
    let sum := digitAdd p acc high 0
    let sum := digitAdd p sum.1 carry sum.2
    let product := digitMul p multiplier multiplicandDigit
    let sum := digitAdd p sum.1 product.1 sum.2
    sum.1 :: accumulateLoop multiplier multiplicand accumulator sum.2 product.2

def multiplyAccumulate (multiplicand : List Nat) (multiplier : Nat) (accumulator : List Nat)
    (accumulatorIndex : Nat) : List Nat :=
  if multiplier = 0 then accumulator else
    accumulator.take accumulatorIndex ++ accumulateLoop p multiplier multiplicand (accumulator.drop accumulatorIndex) 0 0

/-- One accumulation per digit of the first factor, from index i on. -/
def multiplyLoop (multiplicand : List Nat) : List Nat → Nat → List Nat → List Nat
  | [], _, accumulator => accumulator
  | d::ds, i, accumulator =>
    multiplyLoop multiplicand ds (i+1) (multiplyAccumulate p multiplicand d accumulator i)

end

namespace JSBigInt
variable {p : Platform} (heap : Storage p)

/-- Multiply the first n digits by a digit and add a digit; result digits beyond are cleared. -/
def internalMultiplyAdd (source : JSBigInt) (factor summand n : Nat) (result : JSBigInt) : JSBigInt :=
  let product := multiplyAddLoop p factor (source.digits.take n) summand 0
  if n < result.length then
    result.setDigits (product.1 ++ (product.2.1+product.2.2)%p.base :: replicate (result.length-(n+1)) 0)
  else result.setDigits product.1

def multiply (x y : JSBigInt) : Except Exception JSBigInt := do
  if x.isZero then return x
  if y.isZero then return y
  let result ← tryCreateWithLength heap (x.length+y.length)
  let result := result.setDigits (replicate (x.length+y.length) 0)
  let result := result.setDigits (multiplyLoop p y.digits x.digits 0 result.digits)
  return rightTrim heap (result.setSign (x.sign != y.sign))

end JSBigInt

section
variable {p : Platform}

variable {factor : Nat}

theorem multiplyAddLoop_spec (hf : factor < p.base) (s : List Nat) (c h : Nat)
    (hs : ∀ d ∈ s, d < p.base) (hc : c < p.base) (hh : h < p.base) :
    let product := multiplyAddLoop p factor s c h
    ofDigits p.base product.1 + p.base^s.length*(product.2.1+product.2.2) =
        ofDigits p.base s*factor + (c+h) ∧
      product.1.length = s.length ∧ ∀ d ∈ product.1, d < p.base := by
  have hB := p.base_ge
  induction s generalizing c h with
  | nil => simp [multiplyAddLoop]
  | cons cr s ih =>
    obtain ⟨hcr,hr⟩ := forall_mem_cons.1 hs
    obtain ⟨hm,hl,hhg⟩ := digitMul_value hcr hf
    obtain ⟨hv,hlt,hc2⟩ := digitAdd_two hl hh hc
    rw [multiplyAddLoop]
    generalize digitMul p cr factor = product at *
    generalize digitAdd p (digitAdd p product.1 h 0).1 c (digitAdd p product.1 h 0).2 = sm at *
    obtain ⟨iv,il,id⟩ := ih sm.2 product.2 hr (by omega) hhg
    refine ⟨?_,by simp [il],forall_mem_cons.2 ⟨hlt,id⟩⟩
    have hst : sm.1 + p.base*(sm.2+product.2) = cr*factor + (c+h) := by
      rw [mul_add]
      omega
    rw [length_cons,Base.carry_chain hst iv,ofDigits_cons]
    ring

private theorem accumulateCarry_spec (accu : List Nat) (c h : Nat)
    (ha : ∀ d ∈ accu, d < p.base) (hc : c < p.base) (hh : h < p.base)
    (hf : ofDigits p.base accu + (c+h) < p.base^accu.length) :
    ofDigits p.base (accumulateCarry p accu c h) = ofDigits p.base accu + (c+h) ∧
      (accumulateCarry p accu c h).length = accu.length ∧
      ∀ d ∈ accumulateCarry p accu c h, d < p.base := by
  have hB := p.base_ge
  induction accu generalizing c h with
  | nil =>
    simp only [ofDigits_nil,length_nil,pow_zero] at hf
    simp [accumulateCarry]
    omega
  | cons a accu ih =>
    obtain ⟨hac,hr⟩ := forall_mem_cons.1 ha
    rw [accumulateCarry]
    split
    next hz => exact ⟨by rw [hz.1,hz.2,Nat.add_zero],rfl,ha⟩
    · obtain ⟨hv,hl,hc2⟩ := digitAdd_two hac hh hc
      dsimp only at hv hl hc2 ⊢
      generalize digitAdd p (digitAdd p a h 0).1 c (digitAdd p a h 0).2 = s at *
      have ht : ofDigits p.base (a::accu) + (c+h) =
          a + h + c + p.base*ofDigits p.base accu := by
        rw [ofDigits_cons]
        omega
      rw [ht] at hf ⊢
      obtain ⟨iv,il,id⟩ := ih s.2 0 hr (by omega) (by omega) (Base.carry_lt hv hf)
      exact ⟨Base.carry_chain_exact hv iv,by simp [il],forall_mem_cons.2 ⟨hl,id⟩⟩

/-- Accumulating a product in place is exact if there is room. -/
theorem accumulateLoop_spec (hm : factor < p.base) (mul a : List Nat)
    (c h : Nat) (hmd : ∀ d ∈ mul, d < p.base) (ha : ∀ d ∈ a, d < p.base)
    (hc : c < p.base) (hh : h < p.base) (hl : mul.length ≤ a.length)
    (hf : ofDigits p.base a + factor*ofDigits p.base mul + (c+h) <
      p.base^a.length) :
    ofDigits p.base (accumulateLoop p factor mul a c h) =
        ofDigits p.base a + factor*ofDigits p.base mul + (c+h) ∧
      (accumulateLoop p factor mul a c h).length = a.length ∧
      ∀ d ∈ accumulateLoop p factor mul a c h, d < p.base := by
  have hB := p.base_ge
  induction mul generalizing a c h with
  | nil =>
    exact accumulateCarry_spec a c h ha hc hh hf
  | cons m mul ih =>
    obtain ⟨hmg,hmr⟩ := forall_mem_cons.1 hmd
    cases a with
    | nil => simp at hl
    | cons ac a =>
      obtain ⟨hac,hr⟩ := forall_mem_cons.1 ha
      obtain ⟨hml,hlw,hhg⟩ := digitMul_value hm hmg
      obtain ⟨hv,hlt,hc2⟩ := digitAdd_two hac hh hc
      rw [accumulateLoop]
      generalize digitMul p factor m = pr at *
      generalize digitAdd p (digitAdd p ac h 0).1 c (digitAdd p ac h 0).2 = t at *
      have hv3 := digitAdd_value hlt hlw (show t.2 + 1 < p.base by omega)
      have hc3 := digitAdd_carry_le (p := p) t.1 pr.1 t.2
      have hlt3 := digitAdd_lt (p := p) t.1 pr.1 t.2
      generalize digitAdd p t.1 pr.1 t.2 = s at *
      have hs : s.1 + p.base*(s.2+pr.2) = ac + factor*m + (c+h) := by
        rw [mul_add]
        omega
      have ht : ofDigits p.base (ac::a) + factor*ofDigits p.base (m::mul) +
            (c+h) = ac + factor*m + (c+h) +
            p.base*(ofDigits p.base a+factor*ofDigits p.base mul) := by
        rw [ofDigits_cons,ofDigits_cons]
        ring
      rw [ht] at hf ⊢
      obtain ⟨iv,il,id⟩ := ih a s.2 pr.2 hmr hr (by omega) hhg
        (by simpa using hl) (Base.carry_lt hs hf)
      exact ⟨Base.carry_chain_exact hs iv,by simp [il],forall_mem_cons.2 ⟨hlt3,id⟩⟩

private theorem digits_lt_pow {ds : List Nat} (h : ∀ d ∈ ds, d < p.base) :
    ofDigits p.base ds < p.base^ds.length :=
  ofDigits_lt_base_pow_length (by have := p.base_ge; omega) h

/-- An accumulation adds a digit's multiple at the digit's position. -/
theorem multiplyAccumulate_spec (hm : factor < p.base) {mul ac : List Nat}
    {i : Nat} (hmd : ∀ d ∈ mul, d < p.base) (ha : ∀ d ∈ ac, d < p.base)
    (hl : i + mul.length < ac.length)
    (hr : Nat.ofDigits p.base ac < p.base^(i+mul.length)) :
    Nat.ofDigits p.base (multiplyAccumulate p mul factor ac i) =
        Nat.ofDigits p.base ac + p.base^i*(factor*Nat.ofDigits p.base mul) ∧
      (multiplyAccumulate p mul factor ac i).length = ac.length ∧
      (∀ d ∈ multiplyAccumulate p mul factor ac i, d < p.base) ∧
      Nat.ofDigits p.base (multiplyAccumulate p mul factor ac i) <
        p.base^(i+1+mul.length) := by
  unfold multiplyAccumulate
  split
  next hz =>
    refine ⟨by rw [hz,Nat.zero_mul,Nat.mul_zero,Nat.add_zero],rfl,ha,hr.trans_le ?_⟩
    exact Nat.pow_le_pow_right p.base_pos (by omega)
  · have hs := Base.ofDigits_take_drop (b := p.base) ac (show i ≤ ac.length by omega)
    have ht : ∀ d ∈ ac.take i, d < p.base := fun d hd => ha d (mem_of_mem_take hd)
    have hdr : ∀ d ∈ ac.drop i, d < p.base := fun d hd => ha d (mem_of_mem_drop hd)
    have hlw := digits_lt_pow ht
    have hY := digits_lt_pow hmd
    have hln : (ac.take i).length = i := by
      rw [length_take]
      omega
    rw [hln] at hlw
    have hh : Nat.ofDigits p.base (ac.drop i) < p.base^mul.length := by
      rw [pow_add] at hr
      exact Nat.lt_of_mul_lt_mul_left (a := p.base^i) (by omega)
    have hsm : Nat.ofDigits p.base (ac.drop i) + factor*Nat.ofDigits p.base mul <
        p.base^(mul.length+1) := by
      have h1 := Nat.mul_le_mul (show factor ≤ p.base - 1 by omega) hY.le
      have h2 : p.base^(mul.length+1) = p.base^mul.length + (p.base-1)*p.base^mul.length := by
        rw [pow_succ',Nat.add_comm,← Nat.succ_mul,Nat.succ_eq_add_one,Nat.sub_add_cancel p.base_pos]
      omega
    obtain ⟨hv,hlv,hd⟩ := accumulateLoop_spec hm mul (ac.drop i) 0 0 hmd hdr p.base_pos
      p.base_pos (by rw [length_drop]; omega)
      (hsm.trans_le (Nat.pow_le_pow_right p.base_pos (by rw [length_drop]; omega)))
    rw [Nat.add_zero] at hv
    rw [Nat.ofDigits_append,hln,hv]
    refine ⟨by rw [Nat.mul_add]; omega,?_,forall_mem_append.2 ⟨ht,hd⟩,?_⟩
    · rw [length_append,hlv,← length_append,take_append_drop]
    · have h1 := Nat.mul_le_mul_left (p.base^i) (Nat.succ_le_of_lt hsm)
      rw [Nat.succ_eq_add_one,Nat.mul_add _ _ 1,← pow_add] at h1
      rw [show i + 1 + mul.length = i + (mul.length+1) by omega]
      omega

/-- All accumulations together add the product. -/
theorem multiplyLoop_spec {mul : List Nat} (hm : ∀ d ∈ mul, d < p.base) (ds : List Nat) (i : Nat)
    (a : List Nat) (hds : ∀ d ∈ ds, d < p.base) (ha : ∀ d ∈ a, d < p.base)
    (hl : a.length = i + ds.length + mul.length)
    (hrm : ofDigits p.base a < p.base^(i+mul.length)) :
    ofDigits p.base (multiplyLoop p mul ds i a) = ofDigits p.base a +
          p.base^i*(ofDigits p.base ds*ofDigits p.base mul) ∧
      (multiplyLoop p mul ds i a).length = a.length ∧
      ∀ d ∈ multiplyLoop p mul ds i a, d < p.base := by
  induction ds generalizing i a with
  | nil => simpa [multiplyLoop] using ha
  | cons d ds ih =>
    obtain ⟨hd,hrs⟩ := forall_mem_cons.1 hds
    rw [length_cons] at hl
    obtain ⟨hv,hlv,hdv,hr⟩ := multiplyAccumulate_spec hd hm ha (i := i) (by omega) hrm
    rw [multiplyLoop]
    obtain ⟨iv,il,id⟩ := ih (i+1) _ hrs hdv (by omega) hr
    refine ⟨?_,il.trans hlv,id⟩
    rw [iv,hv,ofDigits_cons]
    ring

end

namespace JSBigInt
variable {p : Platform} (heap : Storage p) {x y : JSBigInt}

theorem internalMultiplyAdd_spec {s r : JSBigInt} {factor : Nat} (hs : ∀ d ∈ s.digits, d < p.base)
    (hf : factor < p.base) (hr : r.length = s.length + 1) :
    (internalMultiplyAdd (p := p) s factor 0 s.length r).magnitude p = s.magnitude p*factor ∧
      (internalMultiplyAdd (p := p) s factor 0 s.length r).length = s.length + 1 ∧
      ∀ d ∈ (internalMultiplyAdd (p := p) s factor 0 s.length r).digits, d < p.base := by
  obtain ⟨hv,hl,hd⟩ := multiplyAddLoop_spec hf s.digits 0 0 hs p.base_pos p.base_pos
  unfold internalMultiplyAdd magnitude
  rw [if_pos (by omega),hr,Nat.sub_self,replicate_zero,length,take_length]
  generalize multiplyAddLoop p factor s.digits 0 0 = pr at *
  have ht : pr.2.1 + pr.2.2 < p.base := by
    have hlt : Nat.ofDigits p.base s.digits*factor < p.base^s.digits.length*p.base :=
      Nat.mul_lt_mul'' (magnitude_lt (x := s) hs) hf
    refine Nat.lt_of_mul_lt_mul_left (a := p.base^s.digits.length) ?_
    omega
  have hfl : (pr.1 ++ [(pr.2.1+pr.2.2)%p.base]).length = r.length := by
    rw [hr,length_append,hl]
    rfl
  rw [setDigits_full hfl,Nat.mod_eq_of_lt ht]
  refine ⟨?_,by simp [hl,length],forall_mem_append.2 ⟨hd,forall_mem_singleton.2 ht⟩⟩
  rw [Nat.ofDigits_append,hl,Nat.ofDigits_singleton,hv,Nat.add_zero]

/-- Multiplication is exact unless the product may exceed the length limit. -/
theorem multiply_spec (hx : x.Normalized p) (hy : y.Normalized p) :
    Yields p (x.toInt p*y.toInt p) (p.maxLength < x.length + y.length) (multiply heap x y) := by
  unfold multiply
  split
  next hz =>
    rw [isZero_iff] at hz
    refine ⟨hx,?_⟩
    simp [toInt,magnitude,hz]
  next hxz =>
  split
  next hz =>
    rw [isZero_iff] at hz
    refine ⟨hy,?_⟩
    simp [toInt,magnitude,hz]
  unfold tryCreateWithLength
  split
  next hl => exact ⟨rfl,hl⟩
  next hl =>
    obtain ⟨hv,hln,hd⟩ := multiplyLoop_spec hy.digit_lt x.digits 0 (replicate (x.length+y.length) 0)
      hx.digit_lt (fun d hd => (eq_of_mem_replicate hd) ▸ p.base_pos) (by simp [length])
      (by simpa using Nat.pow_pos p.base_pos)
    have hp : 0 < x.length := pos_of_ne_zero (by simpa [isZero] using hxz)
    have hc : (createWithLengthUnchecked heap (x.length+y.length)).setDigits
        (replicate (x.length+y.length) 0) = ⟨false,replicate (x.length+y.length) 0⟩ :=
      setDigits_fresh heap length_replicate
    change Represents _ (rightTrim heap (((((createWithLengthUnchecked heap _).setDigits _).setDigits _)).setSign _)) _
    rw [hc,toInt,toInt,← signedValue_mul]
    exact trimmed_represents heap (x.sign != y.sign) length_replicate (hln.trans length_replicate) hd
      (by omega) (Nat.le_of_not_lt hl) (by simpa [magnitude] using hv)

end JSBigInt
end WebKit.JavaScriptCore.BigInt
