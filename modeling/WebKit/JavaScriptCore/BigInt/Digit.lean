import Mathlib.Data.Nat.Size
import Mathlib.Tactic.Ring
import Mathlib.Tactic.Linarith

/-! Digit arithmetic of JSBigInt. A digit is a natural number below the base; every
operation of the machine word is followed by an explicit reduction. -/
namespace WebKit.JavaScriptCore.BigInt
open Nat

/-- A 32- or 64-bit digit, whether there is a two-digit product type and whether the divide instruction is used. -/
structure Platform where
  halfDigitBits : Nat
  twoDigit : Bool
  hardwareDivide : Bool
  width : halfDigitBits = 16 ∨ halfDigitBits = 32

/-- A 64-bit build with hardware multiplication and division. -/
def platform64 : Platform := ⟨32,true,true,.inr rfl⟩

namespace Platform

def digitBits (p : Platform) : Nat := p.halfDigitBits + p.halfDigitBits
def halfDigitBase (p : Platform) : Nat := 2^p.halfDigitBits
def base (p : Platform) : Nat := 2^p.digitBits
def maxLength (p : Platform) : Nat := 1024*1024/p.digitBits
def maxInt : Nat := 0x7FFFFFFF
def maxLengthBits (p : Platform) : Nat := maxInt - p.digitBits - 1

section
variable (p : Platform)
include p

theorem base_eq : p.base = p.halfDigitBase*p.halfDigitBase := pow_add 2 _ _

theorem halfDigitBase_ge : 65536 ≤ p.halfDigitBase := by
  unfold halfDigitBase
  rcases p.width with h | h <;> simp [h]

theorem halfDigitBase_pos : 0 < p.halfDigitBase := Nat.two_pow_pos _

theorem base_pos : 0 < p.base := Nat.two_pow_pos _

theorem base_ge : 65536 ≤ p.base := by
  have h := p.halfDigitBase_ge
  rw [p.base_eq]
  calc 65536 ≤ 65536*65536 := by omega
    _ ≤ _ := Nat.mul_le_mul h h

theorem base_split {s : Nat} (hs : s ≤ p.digitBits) : p.base = 2^s*2^(p.digitBits-s) := by
  rw [← pow_add,Nat.add_sub_cancel' hs]
  rfl

theorem digitBits_pos : 0 < p.digitBits := by
  unfold digitBits
  rcases p.width with h | h <;> omega

theorem maxLengthBits_lt_base : p.maxLengthBits < p.base := by
  unfold maxLengthBits base digitBits maxInt
  rcases p.width with h | h <;> simp [h]

theorem maxLength_mul_digitBits_le : p.maxLength*p.digitBits ≤ p.maxLengthBits := by
  refine (div_mul_le_self _ _).trans ?_
  unfold maxLengthBits digitBits maxInt
  rcases p.width with h | h <;> simp [h]

end

end Platform

variable (p : Platform)

/-- The sum, and the carry incremented by at most one. -/
def digitAdd (a b carry : Nat) : Nat × Nat :=
  let result := (a+b)%p.base
  (result, (carry + if result < a then 1 else 0)%p.base)

/-- The difference, and the borrow incremented by at most one. -/
def digitSub (a b borrow : Nat) : Nat × Nat :=
  let result := (a+p.base-b)%p.base
  (result, (borrow + if a < result then 1 else 0)%p.base)

def digitMul (a b : Nat) : Nat × Nat :=
  if p.twoDigit then
    let result := a*b
    (result%p.base, result/p.base)
  else
    -- Multiply in half-digit chunks: [AH AL] * [BH BL].
    let aLow := a%p.halfDigitBase
    let aHigh := a/p.halfDigitBase
    let bLow := b%p.halfDigitBase
    let bHigh := b/p.halfDigitBase
    let rLow := aLow*bLow%p.base
    let rMid1 := aLow*bHigh%p.base
    let rMid2 := aHigh*bLow%p.base
    let rHigh := aHigh*bHigh%p.base
    let first := digitAdd p rLow (rMid1*p.halfDigitBase%p.base) 0
    let second := digitAdd p first.1 (rMid2*p.halfDigitBase%p.base) first.2
    (second.1, (rMid1/p.halfDigitBase+rMid2/p.halfDigitBase+rHigh+second.2)%p.base)

def clz (d : Nat) : Nat := p.digitBits - d.size

section
variable {p} {a b : Nat}

theorem digitAdd_value {carry : Nat} (ha : a < p.base) (hb : b < p.base) (hc : carry + 1 < p.base) :
    (digitAdd p a b carry).1 + p.base*(digitAdd p a b carry).2 = a + b + p.base*carry := by
  unfold digitAdd
  dsimp only
  rcases lt_or_ge (a+b) p.base with h | h
  · rw [mod_eq_of_lt h,if_neg (by omega),add_zero,mod_eq_of_lt (by omega)]
  · rw [mod_eq_sub_mod h,mod_eq_of_lt (a := a + b - p.base) (by omega),
      if_pos (by omega),mod_eq_of_lt hc,mul_add]
    omega

theorem digitAdd_lt (a b c : Nat) : (digitAdd p a b c).1 < p.base :=
  mod_lt _ p.base_pos

theorem digitAdd_carry_le (a b c : Nat) : (digitAdd p a b c).2 ≤ c + 1 := by
  refine (mod_le _ _).trans ?_
  split <;> omega

theorem digitSub_value {br : Nat} (ha : a < p.base) (hb : b < p.base) (hc : br + 1 < p.base) :
    (digitSub p a b br).1 + b + p.base*br = a + p.base*(digitSub p a b br).2 := by
  unfold digitSub
  dsimp only
  rcases lt_or_ge a b with h | h
  · rw [mod_eq_of_lt (a := a + p.base - b) (by omega),if_pos (by omega),mod_eq_of_lt hc,mul_add]
    omega
  · rw [show a + p.base - b = (a-b) + p.base by omega,add_mod_right,
      mod_eq_of_lt (a := a - b) (by omega),if_neg (by omega),add_zero,
      mod_eq_of_lt (by omega)]
    omega

theorem digitSub_lt (a b br : Nat) : (digitSub p a b br).1 < p.base :=
  mod_lt _ p.base_pos

theorem digitSub_borrow_le (a b br : Nat) : (digitSub p a b br).2 ≤ br + 1 := by
  refine (mod_le _ _).trans ?_
  split <;> omega

section
variable (ha : a < p.base) (hb : b < p.base)
include ha hb

theorem digitAdd_two {c : Nat} (hc : c < p.base) :
    let first := digitAdd p a b 0
    let second := digitAdd p first.1 c first.2
    second.1 + p.base*second.2 = a + b + c ∧ second.1 < p.base ∧ second.2 ≤ 2 := by
  intro first second
  have hB := p.base_ge
  have c1 : first.2 ≤ 1 := digitAdd_carry_le a b 0
  have c2 : second.2 ≤ first.2 + 1 := digitAdd_carry_le _ _ _
  have h1 : first.1 + p.base*first.2 = _ := digitAdd_value ha hb (by omega)
  have h2 : second.1 + p.base*second.2 = _ :=
    digitAdd_value (digitAdd_lt a b 0) hc (by omega)
  exact ⟨by omega,digitAdd_lt _ _ _,by omega⟩

theorem digitAdd_carry {c : Nat} (hc : c ≤ 1) :
    let first := digitAdd p a b 0
    let second := digitAdd p first.1 c first.2
    second.1 + p.base*second.2 = a + b + c ∧ second.1 < p.base ∧ second.2 ≤ 1 := by
  intro first second
  have hB := p.base_ge
  obtain ⟨hv,hl,-⟩ : second.1 + p.base*second.2 = _ ∧ _ := digitAdd_two ha hb (show c < p.base by omega)
  refine ⟨hv,hl,?_⟩
  by_contra hn
  have := mul_le_mul_left p.base (show 2 ≤ second.2 by omega)
  omega

theorem digitSub_borrow {br : Nat} (hc : br ≤ 1) :
    let first := digitSub p a b 0
    let second := digitSub p first.1 br first.2
    second.1 + b + br = a + p.base*second.2 ∧ second.1 < p.base ∧ second.2 ≤ 1 := by
  intro first second
  have hB := p.base_ge
  have h1 := digitSub_value ha hb (show 0 + 1 < p.base by omega)
  have l1 : first.1 < p.base := digitSub_lt _ _ _
  change first.1 + b + p.base*0 = a + p.base*first.2 at h1
  have c1 : first.2 ≤ 1 := digitSub_borrow_le a b 0
  have h2 := digitSub_value l1 (show br < p.base by omega) (show first.2 + 1 < p.base by omega)
  have l2 : second.1 < p.base := digitSub_lt _ _ _
  change second.1 + br + p.base*first.2 = first.1 + p.base*second.2 at h2
  refine ⟨by omega,l2,?_⟩
  by_contra hn
  have := mul_le_mul_left p.base (show 2 ≤ second.2 by omega)
  omega

end

private theorem mid_shift (r : Nat) : r*p.halfDigitBase%p.base = r%p.halfDigitBase*p.halfDigitBase := by
  rw [p.base_eq,mul_mod_mul_right]

private theorem half_lt (ha : a < p.base) : a/p.halfDigitBase < p.halfDigitBase := by
  rw [div_lt_iff_lt_mul p.halfDigitBase_pos,← p.base_eq]
  exact ha

private theorem half_product_lt (ha : a < p.halfDigitBase) (hb : b < p.halfDigitBase) : a*b < p.base := by
  rw [p.base_eq]
  exact mul_lt_mul'' ha hb

theorem digitMul_value (ha : a < p.base) (hb : b < p.base) : (digitMul p a b).1 + p.base*(digitMul p a b).2 = a*b ∧
      (digitMul p a b).1 < p.base ∧ (digitMul p a b).2 < p.base := by
  have hab : a*b < p.base*p.base := mul_lt_mul'' ha hb
  have high_lt (l hg : Nat) (h : l + p.base*hg = a*b) : hg < p.base := by
    by_contra hn
    have := Nat.mul_le_mul_left p.base (Nat.le_of_not_lt hn)
    omega
  unfold digitMul
  split
  · refine ⟨mod_add_div _ _,mod_lt _ p.base_pos,?_⟩
    rw [div_lt_iff_lt_mul p.base_pos]
    exact hab
  · have hβ := p.halfDigitBase_pos
    have hB := p.base_ge
    have hbs := p.base_eq
    have aLow := mod_lt a hβ
    have bLow := mod_lt b hβ
    have aHigh := half_lt ha
    have bHigh := half_lt hb
    have ea := mod_add_div a p.halfDigitBase
    have eb := mod_add_div b p.halfDigitBase
    generalize a%p.halfDigitBase = al at *
    generalize b%p.halfDigitBase = bl at *
    generalize a/p.halfDigitBase = ah at *
    generalize b/p.halfDigitBase = bh at *
    dsimp only
    rw [mod_eq_of_lt (half_product_lt aLow bLow),mod_eq_of_lt (half_product_lt aLow bHigh),
      mod_eq_of_lt (half_product_lt aHigh bLow),mod_eq_of_lt (half_product_lt aHigh bHigh),
      mid_shift,mid_shift]
    have hp : a*b = al*bl + p.halfDigitBase*(al*bh) + p.halfDigitBase*(ah*bl) + p.base*(ah*bh) := by
      rw [← ea,← eb,hbs]
      ring
    have e1 := mod_add_div (al*bh) p.halfDigitBase
    have e2 := mod_add_div (ah*bl) p.halfDigitBase
    have m1 : al*bh%p.halfDigitBase*p.halfDigitBase < p.base := by
      rw [hbs]
      exact mul_lt_mul_of_pos_right (mod_lt _ hβ) hβ
    have m2 : ah*bl%p.halfDigitBase*p.halfDigitBase < p.base := by
      rw [hbs]
      exact mul_lt_mul_of_pos_right (mod_lt _ hβ) hβ
    have h1 := digitAdd_value (half_product_lt aLow bLow) m1 (show 0 + 1 < p.base by omega)
    have l1 : (digitAdd p (al*bl) (al*bh%p.halfDigitBase*p.halfDigitBase) 0).1 < p.base :=
      digitAdd_lt _ _ _
    generalize digitAdd p (al*bl) (al*bh%p.halfDigitBase*p.halfDigitBase) 0 = f at *
    have c1 : f.2 ≤ 1 := by
      by_contra hn
      have := mul_le_mul_left p.base (show 2 ≤ f.2 by omega)
      have := half_product_lt (p := p) aLow bLow
      omega
    have h2 := digitAdd_value l1 m2 (show f.2 + 1 < p.base by omega)
    have l2 : (digitAdd p f.1 (ah*bl%p.halfDigitBase*p.halfDigitBase) f.2).1 < p.base :=
      digitAdd_lt _ _ _
    generalize digitAdd p f.1 (ah*bl%p.halfDigitBase*p.halfDigitBase) f.2 = s at *
    have hs : s.1 + p.base*(al*bh/p.halfDigitBase + ah*bl/p.halfDigitBase +
        ah*bh + s.2) = a*b := by
      have k1 := congrArg (p.halfDigitBase * ·) e1
      have k2 := congrArg (p.halfDigitBase * ·) e2
      simp only [mul_add,← mul_assoc,← hbs,mul_comm p.halfDigitBase (_%_)] at k1 k2
      rw [hp]
      simp only [mul_add,← mul_assoc] at h1 h2 k1 k2 ⊢
      omega
    have hh := high_lt _ _ hs
    rw [mod_eq_of_lt hh]
    exact ⟨hs,l2,hh⟩

end
end WebKit.JavaScriptCore.BigInt
