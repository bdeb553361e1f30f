import Mathlib.Data.Rat.Floor
import WebKit.Base.Rounding

/-! Lengths in 64ths. A product or quotient is the exact one, truncated and saturated. One remainder meets the identity in its
comment, the other only where the division leaves whole units. -/
namespace WebKit.Graphics
open Int BitVec WebKit.Base

@[ext] structure LayoutUnit where
  value : BitVec 32
  deriving DecidableEq

namespace LayoutUnit

def setRawValue (value : Int) : LayoutUnit := ⟨.ofInt 32 value⟩

/-- Compared as doubles, which hold the quotients exactly. -/
def clampTo (value : Int) : BitVec 32 :=
  if value ≥ 2^31 - 1 then .intMax 32 else if value ≤ -2^31 then .intMin 32 else .ofInt 32 value

def saturatedAddition (a b : BitVec 32) : BitVec 32 := if a.saddOverflow b then .intMax 32 + a >>> 31 else a + b

def ofInt (value : Int) : LayoutUnit :=
  if value > (2^31-1)/64 then ⟨.intMax 32⟩
  else if value < -2^31/64 then ⟨.intMin 32⟩
  else setRawValue (value*64)

variable (a b : LayoutUnit)

def rawValue : Int := a.value.toInt

def toInt : Int := a.rawValue.tdiv 64

def add : LayoutUnit := ⟨saturatedAddition a.value b.value⟩

def boundedMultiply : LayoutUnit :=
  let result := (a.rawValue*b.rawValue).tdiv 64
  let high := BitVec.ofInt 32 (result >>> (32 : Nat))
  let low := BitVec.ofInt 32 result
  let saturated := (a.value ^^^ b.value) >>> 31 + .intMax 32
  ⟨if high ≠ low.sshiftRight 31 then saturated else low⟩

def div : LayoutUnit := ⟨clampTo ((64*a.rawValue).tdiv b.rawValue)⟩

def intMod : LayoutUnit := setRawValue (a.rawValue.tmod b.rawValue)

def mod : LayoutUnit := setRawValue (((64*a.rawValue).tmod b.rawValue).tdiv 64)

def toRat : ℚ := a.rawValue/64

def truncated (x : ℚ) : Int := if 0 ≤ x then ⌊x⌋ else ⌈x⌉

def saturated (n : Int) : Int := max (-2^31) (min (2^31-1) n)

/-- Product and quotient are the exact ones in 64ths, truncated and saturated, and both identities for remainders hold unless
the quotient is saturated. -/
def ArithmeticExact : Prop :=
  (a.boundedMultiply b).rawValue = saturated (truncated (64*(a.toRat*b.toRat))) ∧
  (b.rawValue ≠ 0 → (a.div b).rawValue = saturated (truncated (64*(a.toRat/b.toRat))) ∧
    (saturated (truncated (64*(a.toRat/b.toRat))) = truncated (64*(a.toRat/b.toRat)) →
      a = ((ofInt (a.div b).toInt).boundedMultiply b).add (a.intMod b) ∧ a = ((a.div b).boundedMultiply b).add (a.mod b)))

theorem truncated_div (p : Int) {q : Int} (hq : q ≠ 0) : truncated (p/q) = p.tdiv q := by
  have hnt (p : Int) {n : Nat} (hn : 0 < n) : truncated (p/n) = p.tdiv n := by
    have hn' : (0 : ℚ) < n := Nat.cast_pos.2 hn
    rw [truncated,Rat.floor_intCast_div_natCast,Rat.ceil_intCast_div_natCast]
    rcases le_or_gt 0 p with hp | hp
    · rw [if_pos (div_nonneg (cast_nonneg hp) hn'.le),Int.tdiv_eq_ediv_of_nonneg hp]
    · rw [if_neg (div_neg_of_neg_of_pos (cast_lt_zero.2 hp) hn').not_ge,← Int.tdiv_eq_ediv_of_nonneg (by omega),Int.neg_tdiv,
        Int.neg_neg]
  obtain ⟨n,rfl | rfl⟩ := q.eq_nat_or_neg
  · exact hnt p (by omega)
  · rw [Int.tdiv_neg,← Int.neg_tdiv,← hnt (-p) (by omega)]
    push_cast
    rw [div_neg,neg_div]

private theorem tdiv_tdiv (p q : Int) : ((64*p).tdiv q).tdiv 64 = p.tdiv q := by
  have hn (m n : Nat) : ((64*(m : Int)).tdiv n).tdiv 64 = (m : Int).tdiv n := by
    have : 64*m/n/64 = m/n := by rw [Nat.div_div_eq_div_mul,mul_comm n,Nat.mul_div_mul_left _ _ (by omega)]
    exact_mod_cast congrArg Nat.cast this
  obtain ⟨m,rfl | rfl⟩ := p.eq_nat_or_neg <;> obtain ⟨n,rfl | rfl⟩ := q.eq_nat_or_neg <;>
    simp only [mul_neg,Int.neg_tdiv,Int.tdiv_neg,Int.neg_neg,hn]

theorem tmod_between (n b : Int) : 0 ≤ n ∧ 0 ≤ n.tmod b ∧ n.tmod b ≤ n ∨ n ≤ 0 ∧ n ≤ n.tmod b ∧ n.tmod b ≤ 0 := by
  have ha := natAbs_tmod n b
  have hl := Nat.mod_le n.natAbs b.natAbs
  rcases le_total 0 n with hn | hn
  · have := tmod_nonneg b hn
    omega
  · have := tmod_nonneg b (show 0 ≤ -n by omega)
    rw [neg_tmod] at this
    omega

theorem saturated_rawValue : saturated a.rawValue = a.rawValue := by
  have hl := le_toInt a.value
  have hh := toInt_lt (x := a.value)
  rw [saturated,rawValue]
  omega

theorem rawValue_setRawValue {n : Int} (h : saturated n = n) : (setRawValue n).rawValue = n := by
  rw [saturated] at h
  rw [setRawValue,rawValue,toInt_ofInt,bmod_def]
  omega

theorem rawValue_div : (a.div b).rawValue = saturated ((64*a.rawValue).tdiv b.rawValue) := by
  rw [div,clampTo]
  split_ifs with hm hmn
  · rw [rawValue,saturated,toInt_intMax]
    omega
  · rw [rawValue,saturated,toInt_intMin]
    omega
  · have h : saturated ((64*a.rawValue).tdiv b.rawValue) = (64*a.rawValue).tdiv b.rawValue := by
      rw [saturated]
      omega
    rw [h]
    exact rawValue_setRawValue h

private theorem toInt_shift_add_intMax (x : BitVec 32) : (x >>> 31 + .intMax 32).toInt = if x.msb then -2^31 else 2^31 - 1 := by
  have hs : x >>> 31 = if x.msb then 1 else 0 := by
    apply eq_of_toNat_eq
    rw [toNat_ushiftRight,Nat.shiftRight_eq_div_pow,msb_eq_decide]
    split_ifs with h <;> simp at h <;> simp <;> omega
  rw [hs]
  split_ifs <;> rfl

private theorem msb_xor_iff (h : a.rawValue*b.rawValue ≠ 0) : (a.value ^^^ b.value).msb ↔ a.rawValue*b.rawValue < 0 := by
  have ha := left_ne_zero_of_mul h
  have hb := right_ne_zero_of_mul h
  rw [mul_neg_iff,msb_xor,msb_eq_toInt,msb_eq_toInt,bne_iff_ne,ne_eq,decide_eq_decide]
  simp only [rawValue] at *
  omega

theorem rawValue_boundedMultiply : (a.boundedMultiply b).rawValue = saturated ((a.rawValue*b.rawValue).tdiv 64) := by
  have ha := a.saturated_rawValue
  have hb := b.saturated_rawValue
  rw [saturated] at ha hb
  have hab : (a.rawValue*b.rawValue).natAbs ≤ 2^31*2^31 := natAbs_mul _ _ ▸ Nat.mul_le_mul (by omega) (by omega)
  have hs := a.msb_xor_iff b
  obtain ⟨hdv,hr⟩ := @tdiv_tmod_cases (a.rawValue*b.rawValue) 64 (by omega)
  simp only [boundedMultiply]
  generalize a.rawValue*b.rawValue = p at *
  generalize p.tdiv 64 = r at *
  -- The high half repeats the sign of the low half if nothing was lost.
  have hf : BitVec.ofInt 32 (r >>> (32 : Nat)) = (BitVec.ofInt 32 r).sshiftRight 31 ↔ saturated r = r := by
    rw [← toInt_inj,toInt_sshiftRight,toInt_ofInt,toInt_ofInt,shiftRight_eq_div_pow,
      shiftRight_eq_div_pow,bmod_def,bmod_def,saturated]
    omega
  by_cases h : saturated r = r
  · rw [if_neg (not_not.2 (hf.2 h)),h]
    exact rawValue_setRawValue h
  · rw [if_pos fun he => h (hf.1 he),rawValue,toInt_shift_add_intMax]
    rw [saturated] at h ⊢
    simp only [hs (by omega)]
    split <;> omega

theorem eq_add_iff {a b c : LayoutUnit} (h : saturated (b.rawValue+c.rawValue) = b.rawValue + c.rawValue) :
    a = b.add c ↔ a.rawValue = b.rawValue + c.rawValue := by
  simp only [rawValue] at *
  have ho : ¬ b.value.saddOverflow c.value := by
    rw [saturated] at h
    simp only [saddOverflow,Bool.or_eq_true,decide_eq_true_eq]
    omega
  rw [LayoutUnit.ext_iff,add,saturatedAddition,if_neg ho,← toInt_inj,toInt_add_of_not_saddOverflow ho]

section
variable {a b} (h : saturated ((64*a.rawValue).tdiv b.rawValue) = (64*a.rawValue).tdiv b.rawValue)
include h

private theorem eq_add_intMod : a = ((ofInt (a.div b).toInt).boundedMultiply b).add (a.intMod b) := by
  have ha := a.saturated_rawValue
  have hb := tmod_between a.rawValue b.rawValue
  have hs := mul_tdiv_add_tmod a.rawValue b.rawValue
  have hi : (a.div b).toInt = a.rawValue.tdiv b.rawValue := by rw [toInt,rawValue_div,h,tdiv_tdiv]
  have hrw : (ofInt (a.rawValue.tdiv b.rawValue)).rawValue = a.rawValue.tdiv b.rawValue*64 := by
    obtain ⟨hq,hr⟩ := @tdiv_tmod_cases ((64*a.rawValue).tdiv b.rawValue) 64 (by omega)
    push_cast at hq hr
    rw [tdiv_tdiv] at hq
    rw [saturated] at h
    rw [ofInt,if_neg (by omega),if_neg (by omega),rawValue_setRawValue]
    rw [saturated]
    omega
  rw [saturated] at ha
  have hm : (a.intMod b).rawValue = a.rawValue.tmod b.rawValue := rawValue_setRawValue (by rw [saturated]; omega)
  have hp : ((ofInt (a.div b).toInt).boundedMultiply b).rawValue = b.rawValue*a.rawValue.tdiv b.rawValue := by
    rw [rawValue_boundedMultiply,hi,hrw,mul_right_comm,mul_tdiv_cancel _ (by omega),mul_comm,saturated]
    omega
  rw [eq_add_iff] <;> rw [hp,hm,hs]
  exact a.saturated_rawValue

private theorem eq_add_mod_iff : a = ((a.div b).boundedMultiply b).add (a.mod b) ↔ 64 ∣ (64*a.rawValue).tmod b.rawValue := by
  have ha := a.saturated_rawValue
  have hb := tmod_between (64*a.rawValue) b.rawValue
  have hs := mul_tdiv_add_tmod (64*a.rawValue) b.rawValue
  obtain ⟨hr,hr'⟩ := @tdiv_tmod_cases ((64*a.rawValue).tmod b.rawValue) 64 (by omega)
  obtain ⟨hp,hp'⟩ := @tdiv_tmod_cases (b.rawValue*(64*a.rawValue).tdiv b.rawValue) 64 (by omega)
  push_cast at hr hr' hp hp'
  rw [saturated] at ha
  have hm : (a.mod b).rawValue = ((64*a.rawValue).tmod b.rawValue).tdiv 64 :=
    rawValue_setRawValue (by rw [saturated]; omega)
  have hpr : ((a.div b).boundedMultiply b).rawValue = (b.rawValue*(64*a.rawValue).tdiv b.rawValue).tdiv 64 := by
    rw [rawValue_boundedMultiply,rawValue_div,h,mul_comm,saturated]
    omega
  rw [eq_add_iff] <;> rw [hpr,hm]
  · omega
  · rw [saturated]
    omega

end

theorem arithmeticExact_iff : a.ArithmeticExact b ↔
    (b.rawValue ≠ 0 → saturated (truncated (64*(a.toRat/b.toRat))) = truncated (64*(a.toRat/b.toRat)) →
      64 ∣ (64*a.rawValue).tmod b.rawValue) := by
  have hp : 64*(a.toRat*b.toRat) = ((a.rawValue*b.rawValue : Int) : ℚ)/(64 : Int) := by
    rw [toRat,toRat]
    push_cast
    ring
  have hq : 64*(a.toRat/b.toRat) = ((64*a.rawValue : Int) : ℚ)/b.rawValue := by
    rw [toRat,toRat,div_div_div_cancel_right₀ (by norm_num)]
    push_cast
    ring
  rw [ArithmeticExact,hp,truncated_div _ (by omega),← rawValue_boundedMultiply,and_iff_right rfl,hq]
  refine forall_congr' fun hb => ?_
  rw [truncated_div _ hb,← rawValue_div,and_iff_right rfl,rawValue_div]
  exact forall_congr' fun hs => (and_iff_right (eq_add_intMod hs)).trans (eq_add_mod_iff hs)

theorem mod_misses_identity : ¬ (⟨1⟩ : LayoutUnit).ArithmeticExact ⟨3⟩ := by
  have hq : truncated (64*((⟨1⟩ : LayoutUnit).toRat/(⟨3⟩ : LayoutUnit).toRat)) = 21 := by
    have hv : 64*((⟨1⟩ : LayoutUnit).toRat/(⟨3⟩ : LayoutUnit).toRat) = (64 : Int)/(3 : Int) := by
      rw [toRat,toRat,show (⟨1⟩ : LayoutUnit).rawValue = 1 from rfl,show (⟨3⟩ : LayoutUnit).rawValue = 3 from rfl]
      norm_num
    rw [hv,truncated_div _ (by decide)]
    rfl
  intro h
  have hi := ((h.2 (by decide)).2 (by rw [hq]; rfl)).2
  revert hi
  decide

end LayoutUnit
end WebKit.Graphics
