import Mathlib.Data.BitVec
import WebKit.Base.Words
import WebKit.JavaScriptCore.B3.ReduceStrength

/-! When the range of a B3 value holds the value, and removing an overflow check is sound. -/
namespace WebKit.JavaScriptCore.B3

open Base IntRange Nat

section
variable {type : IntType}

theorem width_pos (type : IntType) : 0 < type.width := by cases type <;> decide

theorem shiftCount_lt (s : BitVec 32) : type.shiftCount s < type.width :=
  mod_lt _ (width_pos type)

theorem fits_zero (type : IntType) : type.Fits 0 := by cases type <;> decide

theorem fits_toInt (x : BitVec type.width) : type.Fits x.toInt := ⟨x.le_toInt,BitVec.toInt_lt⟩

theorem toInt_ofInt_of_fits {x : Int} (h : type.Fits x) : (BitVec.ofInt type.width x).toInt = x :=
  toInt_ofInt_of_le (width_pos type) h.1 h.2

end

namespace IntRange

/-- The range is one of the type and holds the value. -/
structure Covers (range : IntRange) {type : IntType} (x : BitVec type.width) : Prop where
  low : type.Fits range.min
  high : type.Fits range.max
  min_le : range.min ≤ x.toInt
  le_max : x.toInt ≤ range.max

/-- What survives a shift to the left lies from `-limit` on and below `limit`. -/
def shlLimit (type : IntType) (shiftAmount : BitVec 32) : Int := 2^(type.width-1-type.shiftCount shiftAmount)

/-- Both ends survive or none does, or the one that does is the last one. -/
def ShlExact (type : IntType) (range : IntRange) (shiftAmount : BitVec 32) : Prop :=
  let limit := shlLimit type shiftAmount
  ((-limit ≤ range.min ∧ range.min < limit) ↔ (-limit ≤ range.max ∧ range.max < limit)) ∨
    range.max = limit - 1 ∨ range.min = -limit

section
variable {type : IntType} {range other : IntRange} {x y : BitVec type.width}

theorem top_covers : (top type).Covers x where
  low := ⟨le_rfl,by cases type <;> decide⟩
  high := ⟨by cases type <;> decide,by cases type <;> decide⟩
  min_le := (fits_toInt x).1
  le_max := by
    have := (fits_toInt x).2
    simp only [top]
    omega

private theorem const_covers : (mk x.toInt x.toInt).Covers x := ⟨fits_toInt x,fits_toInt x,le_rfl,le_rfl⟩

variable {mask : BitVec type.width}

theorem rangeForMask_covers (h : mask = -1 ∨ 0 ≤ mask.toInt) : (rangeForMask mask).Covers (x &&& mask) := by
  rw [rangeForMask]
  split_ifs with hm
  · exact top_covers
  · have hn : 0 ≤ mask.toInt := h.resolve_left fun h => hm (by rw [h,neg_add_cancel])
    obtain ⟨hlw,hh⟩ := @toInt_and_range _ x mask hn
    exact ⟨fits_zero type,fits_toInt mask,hlw,hh⟩

/-- A mask's range holds every masked number just when the mask is not negative, or has all bits. -/
theorem rangeForMask_iff :
    (∀ x : BitVec type.width, (rangeForMask mask).Covers (x &&& mask)) ↔ mask = -1 ∨ 0 ≤ mask.toInt := by
  refine ⟨fun h => ?_,fun h x => rangeForMask_covers h⟩
  by_cases hm : mask + 1 = 0
  · exact .inl (eq_neg_of_add_eq_zero_left hm)
  · have hs := (h mask).min_le
    rw [rangeForMask,if_neg hm,BitVec.and_self] at hs
    exact .inr hs

private theorem sShr_covers (h : range.Covers x) (s : BitVec 32) :
    (range.sShr type s).Covers (x.sshiftRight (type.shiftCount s)) := by
  refine ⟨fits_toInt _,fits_toInt _,?_,?_⟩ <;>
    simp only [sShr,BitVec.toInt_sshiftRight,toInt_ofInt_of_fits h.low,toInt_ofInt_of_fits h.high,Int.shiftRight_eq_div_pow]
  · exact Int.ediv_le_ediv (by positivity) h.min_le
  · exact Int.ediv_le_ediv (by positivity) h.le_max

private theorem rangeForZShr_covers (shift : BitVec 32) : (rangeForZShr type shift).Covers (x >>> type.shiftCount shift) := by
  have hm : x >>> type.shiftCount shift =
      x >>> type.shiftCount shift &&& BitVec.allOnes type.width >>> type.shiftCount shift := by
    rw [← BitVec.ushiftRight_and_distrib,BitVec.and_allOnes]
  rw [hm]
  apply rangeForMask_covers
  by_cases hz : type.shiftCount shift = 0
  · rw [hz,BitVec.ushiftRight_zero]
    exact .inl BitVec.neg_one_eq_allOnes.symm
  · rw [BitVec.toInt_ushiftRight,if_neg hz]
    exact .inr (Int.natCast_nonneg _)

private theorem toInt_ushiftRight_of_nonneg {count : Nat} (h : 0 ≤ x.toInt) : (x >>> count).toInt = x.toNat/2^count := by
  rw [BitVec.toInt_ushiftRight]
  split_ifs with hz
  · rw [hz,pow_zero,Int.ediv_one,toInt_eq_toNat_of_nonneg h]
  · rw [shiftRight_eq_div_pow]
    rfl

private theorem zShr_covers (h : range.Covers x) (shift : BitVec 32) :
    (range.zShr type shift).Covers (x >>> type.shiftCount shift) := by
  rw [zShr]
  split_ifs with hz hng
  · have hc : type.shiftCount shift = 0 := by
      rw [hz]
      exact zero_mod _
    rwa [hc,BitVec.ushiftRight_zero]
  · exact rangeForZShr_covers shift
  · have hmi : (BitVec.ofInt type.width range.min).toInt = range.min := toInt_ofInt_of_fits h.low
    have hmx : (BitVec.ofInt type.width range.max).toInt = range.max := toInt_ofInt_of_fits h.high
    have hle := h.min_le
    have hle' := h.le_max
    have hx : 0 ≤ x.toInt := by omega
    have hm := toInt_eq_toNat_of_nonneg (show 0 ≤ (BitVec.ofInt type.width range.min).toInt by omega)
    have hmn := toInt_eq_toNat_of_nonneg (show 0 ≤ (BitVec.ofInt type.width range.max).toInt by omega)
    have hxn := toInt_eq_toNat_of_nonneg hx
    have hs (y : BitVec type.width) : ((y >>> type.shiftCount shift).toNat : Int) =
        y.toNat/2^type.shiftCount shift := by
      rw [BitVec.toNat_ushiftRight,shiftRight_eq_div_pow]
      rfl
    have hf {n : Int} (hn : 0 ≤ n) (hf : type.Fits n) : type.Fits (n/2^type.shiftCount shift) := by
      have := Int.ediv_le_self (2^type.shiftCount shift) hn
      have := Int.ediv_nonneg hn (show (0 : Int) ≤ 2^type.shiftCount shift by positivity)
      exact ⟨(fits_zero type).1.trans this,by have := hf.2; omega⟩
    rw [hmi] at hm
    rw [hmx] at hmn
    refine ⟨?_,?_,?_,?_⟩ <;> simp only [hs,← hm,← hmn]
    · exact hf (by omega) h.low
    · exact hf (by omega) h.high
    · rw [toInt_ushiftRight_of_nonneg hx,← hxn]
      exact Int.ediv_le_ediv (by positivity) hle
    · rw [toInt_ushiftRight_of_nonneg hx,← hxn]
      exact Int.ediv_le_ediv (by positivity) hle'

theorem bound_eq (type : IntType) (shift : BitVec 32) : type.bound = shlLimit type shift*2^type.shiftCount shift := by
  have := @shiftCount_lt type shift
  rw [IntType.bound,shlLimit,← pow_add,Nat.sub_add_cancel (by omega)]

theorem shl_eq (hlw : type.Fits range.min) (hh : type.Fits range.max) (shift : BitVec 32) : range.shl type shift =
      ⟨if -shlLimit type shift ≤ range.min ∧ range.min < shlLimit type shift then
          range.min*2^type.shiftCount shift else -type.bound,
        if -shlLimit type shift ≤ range.max ∧ range.max < shlLimit type shift then
          range.max*2^type.shiftCount shift else type.bound - 1⟩ := by
  have he {n : Int} (hn : type.Fits n) (other : Int) :
      (if (shiftEnd type n shift).2 then (shiftEnd type n shift).1 else other) =
        if -shlLimit type shift ≤ n ∧ n < shlLimit type shift then n*2^type.shiftCount shift else other := by
    have hn' := toInt_ofInt_of_fits hn
    have hi := @sshiftRight_shiftLeft_iff _ _ (shiftCount_lt shift) (BitVec.ofInt type.width n)
    rw [hn'] at hi
    have hf : (shiftEnd type n shift).2 ↔ -shlLimit type shift ≤ n ∧ n < shlLimit type shift :=
      decide_eq_true_iff.trans hi
    split_ifs with h1 h2 h2
    · refine (toInt_shiftLeft_of_le (shiftCount_lt shift) ?_ ?_).trans (by rw [hn'])
      · rw [hn']
        exact h2.1
      · rw [hn']
        exact h2.2
    · exact absurd (hf.1 h1) h2
    · exact absurd (hf.2 h2) h1
    · rfl
  rw [shl,← he hlw,← he hh]

theorem shl_covers (h : range.Covers x) {shift : BitVec 32} (he : range.ShlExact type shift) :
    (range.shl type shift).Covers (x <<< type.shiftCount shift) := by
  have hb := bound_eq type shift
  have hc := @shiftCount_lt type shift
  have hp : (0 : Int) < 2^type.shiftCount shift := by positivity
  obtain ⟨hyl,hyh⟩ := fits_toInt (x <<< type.shiftCount shift)
  have hle := h.min_le
  have hle' := h.le_max
  rw [ShlExact] at he
  rw [shl_eq h.low h.high]
  have hf {n other : Int} (ho : type.Fits other) :
      type.Fits (if -shlLimit type shift ≤ n ∧ n < shlLimit type shift then
        n*2^type.shiftCount shift else other) := by
    split_ifs with hn
    · rw [IntType.Fits,hb,← neg_mul]
      exact ⟨mul_le_mul_of_nonneg_right hn.1 hp.le,mul_lt_mul_of_pos_right hn.2 hp⟩
    · exact ho
  have hi (hx : -shlLimit type shift ≤ x.toInt ∧ x.toInt < shlLimit type shift) :
      (x <<< type.shiftCount shift).toInt = x.toInt*2^type.shiftCount shift :=
    toInt_shiftLeft_of_le hc hx.1 hx.2
  refine ⟨hf ⟨le_rfl,by omega⟩,hf ⟨by omega,by omega⟩,?_,?_⟩ <;> dsimp only <;> split_ifs with hen
  · by_cases hx : x.toInt < shlLimit type shift
    · rw [hi ⟨by omega,hx⟩]
      exact mul_le_mul_of_nonneg_right hle hp.le
    · obtain hmn : range.min = -shlLimit type shift := by omega
      rwa [hmn,neg_mul,← hb]
  · exact hyl
  · by_cases hx : -shlLimit type shift ≤ x.toInt
    · rw [hi ⟨hx,by omega⟩]
      exact mul_le_mul_of_nonneg_right hle' hp.le
    · obtain hm : range.max = shlLimit type shift - 1 := by omega
      rw [hm]
      exact toInt_shiftLeft_le hc
  · omega

/-- A shifted range holds the shifted numbers just when its ends agree. -/
theorem shl_iff (hlw : type.Fits range.min) (hh : type.Fits range.max) (hle : range.min ≤ range.max)
    {shift : BitVec 32} :
    (∀ x : BitVec type.width, range.min ≤ x.toInt → x.toInt ≤ range.max →
      (range.shl type shift).Covers (x <<< type.shiftCount shift)) ↔ range.ShlExact type shift := by
  refine ⟨fun h => ?_,fun he x hm hmx => shl_covers ⟨hlw,hh,hm,hmx⟩ he⟩
  have hb := bound_eq type shift
  have hc := @shiftCount_lt type shift
  have hp : (0 : Int) < 2^type.shiftCount shift := by positivity
  have hht {n : Int} (hm : range.min ≤ n) (hmx : n ≤ range.max) : ∃ x : BitVec type.width, x.toInt = n ∧
      (range.shl type shift).Covers (x <<< type.shiftCount shift) := by
    have hn : (BitVec.ofInt type.width n).toInt = n :=
      toInt_ofInt_of_fits ⟨hlw.1.trans hm,hmx.trans_lt hh.2⟩
    exact ⟨_,hn,h _ (by rwa [hn]) (by rwa [hn])⟩
  rw [shl_eq hlw hh] at hht
  by_contra he
  rw [ShlExact] at he
  by_cases hen : -shlLimit type shift ≤ range.max ∧ range.max < shlLimit type shift
  · obtain ⟨x,hx,hcv⟩ := @hht (-shlLimit type shift-1) (by omega) (by omega)
    have hs := toInt_shiftLeft_below hc hx
    have hmx := hcv.le_max
    rw [hs,if_pos hen] at hmx
    have := le_of_mul_le_mul_right hmx hp
    change shlLimit type shift - 1 ≤ range.max at this
    omega
  · obtain ⟨x,hx,hcv⟩ := @hht (shlLimit type shift) (by omega) (by omega)
    have hs := toInt_shiftLeft_above hc hx
    have hm := hcv.min_le
    have hen' : -shlLimit type shift ≤ range.min ∧ range.min < shlLimit type shift := by omega
    rw [hs,if_pos hen'] at hm
    change _ ≤ -type.bound at hm
    rw [hb,← neg_mul] at hm
    have := le_of_mul_le_mul_right hm hp
    omega

private theorem mul_le_corners {a b x y : Int} (hlw : a ≤ x) (hh : x ≤ b) : x*y ≤ Max.max (a*y) (b*y) := by
  obtain hy | hy := le_total 0 y
  · exact (mul_le_mul_of_nonneg_right hh hy).trans (le_max_right _ _)
  · exact (mul_le_mul_of_nonpos_right hlw hy).trans (le_max_left _ _)

private theorem corners_le_mul {a b x y : Int} (hlw : a ≤ x) (hh : x ≤ b) : Min.min (a*y) (b*y) ≤ x*y := by
  obtain hy | hy := le_total 0 y
  · exact (min_le_left _ _).trans (mul_le_mul_of_nonneg_right hlw hy)
  · exact (min_le_right _ _).trans (mul_le_mul_of_nonpos_right hh hy)

private theorem mul_corners (hx : range.Covers x) (hy : other.Covers y) :
    Min.min (Min.min (range.min*other.min) (range.min*other.max))
        (Min.min (range.max*other.min) (range.max*other.max)) ≤ x.toInt*y.toInt ∧
      x.toInt*y.toInt ≤ Max.max (Max.max (range.min*other.min) (range.min*other.max))
        (Max.max (range.max*other.min) (range.max*other.max)) := by
  have hlw (n : Int) : Min.min (n*other.min) (n*other.max) ≤ n*y.toInt := by
    simp only [mul_comm n]
    exact corners_le_mul hy.min_le hy.le_max
  have hh (n : Int) : n*y.toInt ≤ Max.max (n*other.min) (n*other.max) := by
    simp only [mul_comm n]
    exact mul_le_corners hy.min_le hy.le_max
  exact ⟨(min_le_min (hlw _) (hlw _)).trans (corners_le_mul hx.min_le hx.le_max),
    (mul_le_corners hx.min_le hx.le_max).trans (max_le_max (hh _) (hh _))⟩

/-- An integer between two that are of the type. -/
structure Between (type : IntType) (low n high : Int) : Prop where
  fits_low : type.Fits low
  fits_high : type.Fits high
  low_le : low ≤ n
  le_high : n ≤ high

theorem Between.fits {l n hg : Int} (h : Between type l n hg) : type.Fits n :=
  ⟨h.fits_low.1.trans h.low_le,h.le_high.trans_lt h.fits_high.2⟩

theorem Between.covers {z : BitVec type.width} {l n hg : Int} (h : Between type l n hg)
    (hz : z.toInt = n.bmod (2^type.width)) : (IntRange.mk l hg).Covers z := by
  have hn : z.toInt = n := by
    rw [hz,← BitVec.toInt_ofInt]
    exact toInt_ofInt_of_fits h.fits
  exact ⟨h.fits_low,h.fits_high,hn.symm ▸ h.low_le,hn.symm ▸ h.le_high⟩

theorem not_couldOverflow {os : Int → Int → Bool} (h : ¬ couldOverflow os range other) :
    os range.min other.min = false ∧ os range.min other.max = false ∧
      os range.max other.min = false ∧ os range.max other.max = false := by
  simpa [couldOverflow,and_assoc] using h

section
variable (hx : range.Covers x) (hy : other.Covers y)
include hx hy

theorem add_between (h : ¬ couldOverflowAdd type range other) :
    Between type (range.min+other.min) (x.toInt+y.toInt) (range.max+other.max) := by
  obtain ⟨hmn,-,-,hm⟩ := not_couldOverflow h
  simp only [sumOverflows,Bool.not_eq_false',Bool.and_eq_true,decide_eq_true_eq] at hmn hm
  exact ⟨hmn.2,hm.2,add_le_add hx.min_le hy.min_le,add_le_add hx.le_max hy.le_max⟩

theorem sub_between (h : ¬ couldOverflowSub type range other) :
    Between type (range.min-other.max) (x.toInt-y.toInt) (range.max-other.min) := by
  obtain ⟨-,hmn,hm,-⟩ := not_couldOverflow h
  simp only [differenceOverflows,Bool.not_eq_false',Bool.and_eq_true,decide_eq_true_eq] at hmn hm
  exact ⟨hmn.2,hm.2,sub_le_sub hx.min_le hy.le_max,sub_le_sub hx.le_max hy.min_le⟩

theorem mul_between (h : ¬ couldOverflowMul type range other) : Between type
      (Min.min (Min.min (range.min*other.min) (range.min*other.max)) (Min.min (range.max*other.min) (range.max*other.max)))
      (x.toInt*y.toInt)
      (Max.max (Max.max (range.min*other.min) (range.min*other.max))
        (Max.max (range.max*other.min) (range.max*other.max))) := by
  obtain ⟨h1,h2,h3,h4⟩ := not_couldOverflow h
  simp only [productOverflows,Bool.not_eq_false',Bool.and_eq_true,decide_eq_true_eq] at h1 h2 h3 h4
  obtain ⟨hle,hle'⟩ := mul_corners hx hy
  refine ⟨⟨?_,?_⟩,⟨?_,?_⟩,hle,hle'⟩
  · exact le_min (le_min h1.2.1 h2.2.1) (le_min h3.2.1 h4.2.1)
  · exact (min_le_left _ _).trans_lt ((min_le_left _ _).trans_lt h1.2.2)
  · exact h1.2.1.trans ((le_max_left _ _).trans (le_max_left _ _))
  · exact max_lt (max_lt h1.2.2 h2.2.2) (max_lt h3.2.2 h4.2.2)

private theorem add_covers : (range.add type other).Covers (x+y) := by
  rw [add]
  split_ifs with ho
  · exact top_covers
  · exact (add_between hx hy ho).covers (BitVec.toInt_add x y)

private theorem sub_covers : (range.sub type other).Covers (x-y) := by
  rw [sub]
  split_ifs with ho
  · exact top_covers
  · exact (sub_between hx hy ho).covers BitVec.toInt_sub

private theorem mul_covers : (range.mul type other).Covers (x*y) := by
  rw [mul]
  split_ifs with ho
  · exact top_covers
  · exact (mul_between hx hy ho).covers (BitVec.toInt_mul x y)

/-- What does not overflow at the ends of the ranges does not overflow between them. -/
theorem fits_operation {opcode : CheckOpcode} (h : ¬ opcode.couldOverflow type range other) :
    type.Fits (opcode.operation x.toInt y.toInt) := by
  cases opcode with
  | checkAdd => exact (add_between hx hy h).fits
  | checkSub => exact (sub_between hx hy h).fits
  | checkMul => exact (mul_between hx hy h).fits

end
end
end IntRange

namespace Value

/-- Every mask on the way is not negative or has all bits, and every shift to the left is exact at the ends of its range. -/
def RulesExact : {type : IntType} → Value type → (timeToLive : Nat) → Prop
  | _, _, 0 => True
  | _, bitAnd _ (const mask), _ + 1 => mask = -1 ∨ 0 ≤ mask.toInt
  | _, sShr left (const _), timeToLive + 1 => left.RulesExact timeToLive
  | _, zShr left (const _), timeToLive + 1 => left.RulesExact timeToLive
  | type, shl left (const shiftAmount), timeToLive + 1 =>
    left.RulesExact timeToLive ∧ (left.rangeFor timeToLive).ShlExact type shiftAmount
  | _, add left right, timeToLive + 1 => left.RulesExact timeToLive ∧ right.RulesExact timeToLive
  | _, sub left right, timeToLive + 1 => left.RulesExact timeToLive ∧ right.RulesExact timeToLive
  | _, mul left right, timeToLive + 1 => left.RulesExact timeToLive ∧ right.RulesExact timeToLive
  | _, _, _ => True

theorem rangeFor_covers (leaves : (type : IntType) → Nat → BitVec type.width) {type : IntType} (v : Value type)
    (t : Nat) (h : v.RulesExact t) : (v.rangeFor t).Covers (v.eval leaves) := by
  fun_induction rangeFor v t with
  | case1 => exact top_covers
  | case2 => exact const_covers
  | case3 => exact rangeForMask_covers h
  | case4 type left s t ih => exact sShr_covers (ih h) s
  | case5 type left s t ih => exact zShr_covers (ih h) s
  | case6 type left s t ih => exact shl_covers (ih h.1) h.2
  | case7 type left right t ih1 ih2 => exact add_covers (ih1 h.1) (ih2 h.2)
  | case8 type left right t ih1 ih2 => exact sub_covers (ih1 h.1) (ih2 h.2)
  | case9 type left right t ih1 ih2 => exact mul_covers (ih1 h.1) (ih2 h.2)
  | case10 => exact top_covers

end Value

/-- What a checked operation computes, unless it overflows. -/
def CheckOpcode.meaning {type : IntType} (opcode : CheckOpcode) (x y : BitVec type.width) : Option (BitVec type.width) :=
  if type.Fits (opcode.operation x.toInt y.toInt) then some (.ofInt _ (opcode.operation x.toInt y.toInt)) else none

/-- What is computed after a reduction. -/
def Reduced.meaning {type : IntType} (leaves : (type : IntType) → Nat → BitVec type.width) :
    Reduced type → Option (BitVec type.width)
  | .constant value => some value
  | .identity value => some (value.eval leaves)
  | .unchecked .checkAdd left right => some (left.eval leaves+right.eval leaves)
  | .unchecked .checkSub left right => some (left.eval leaves-right.eval leaves)
  | .unchecked .checkMul left right => some (left.eval leaves*right.eval leaves)
  | .check opcode left right => opcode.meaning (left.eval leaves) (right.eval leaves)

section
variable {type : IntType} {left right : Value type} (leaves : (type : IntType) → Nat → BitVec type.width)

variable {x : BitVec type.width} {opcode : CheckOpcode}

theorem eval_of_asInt? {v : Value type} (h : v.asInt? = some x) : v.eval leaves = x := by
  cases v <;> simp_all [Value.asInt?,Value.eval]

private theorem meaning_unchecked (opcode : CheckOpcode)
    (h : type.Fits (opcode.operation (left.eval leaves).toInt (right.eval leaves).toInt)) :
    (Reduced.unchecked opcode left right).meaning leaves = opcode.meaning (left.eval leaves) (right.eval leaves) := by
  rw [CheckOpcode.meaning,if_pos h]
  cases opcode with
  | checkAdd => exact congrArg some (BitVec.eq_of_toInt_eq (by rw [BitVec.toInt_add,BitVec.toInt_ofInt]; rfl))
  | checkSub => exact congrArg some (BitVec.eq_of_toInt_eq (by rw [BitVec.toInt_sub,BitVec.toInt_ofInt]; rfl))
  | checkMul => exact congrArg some (BitVec.eq_of_toInt_eq (by rw [BitVec.toInt_mul,BitVec.toInt_ofInt]; rfl))

theorem meaning_checkConstant {value : BitVec type.width} (h : checkConstant opcode left right = some value) :
    opcode.meaning (left.eval leaves) (right.eval leaves) = some value := by
  rw [checkConstant] at h
  split at h
  next x y hx hy => rw [eval_of_asInt? leaves hx,eval_of_asInt? leaves hy,CheckOpcode.meaning,h]
  · cases h

theorem meaning_congr {opcode' : CheckOpcode} {y x' y' : BitVec type.width}
    (h : opcode.operation x.toInt y.toInt = opcode'.operation x'.toInt y'.toInt) : opcode.meaning x y = opcode'.meaning x' y' := by
  rw [CheckOpcode.meaning,CheckOpcode.meaning,h]

theorem meaning_comm (h : opcode ≠ .checkSub) (x y : BitVec type.width) : opcode.meaning x y = opcode.meaning y x := by
  apply meaning_congr
  cases opcode with
  | checkAdd => exact add_comm _ _
  | checkSub => exact absurd rfl h
  | checkMul => exact mul_comm _ _

theorem toInt_small (type : IntType) :
    (0 : BitVec type.width).toInt = 0 ∧ (1 : BitVec type.width).toInt = 1 ∧ (2 : BitVec type.width).toInt = 2 := by
  cases type <;> decide

theorem meaning_reduceByRange (hl : left.RulesExact 5) (hr : right.RulesExact 5) :
    (reduceByRange opcode left right).meaning leaves = opcode.meaning (left.eval leaves) (right.eval leaves) := by
  rw [reduceByRange]
  split_ifs with ho
  · rfl
  · exact meaning_unchecked leaves opcode (fits_operation (left.rangeFor_covers leaves 5 hl)
      (right.rangeFor_covers leaves 5 hr) ho)

theorem meaning_eq_self {y : BitVec type.width}
    (h : opcode.operation x.toInt y.toInt = x.toInt) : opcode.meaning x y = some x := by
  rw [CheckOpcode.meaning,h,if_pos (fits_toInt x),BitVec.ofInt_toInt]

variable (hl : left.RulesExact 5) (hr : right.RulesExact 5)
include hl hr

theorem handleCommutativity_cases (h : opcode ≠ .checkSub) (g : Bool) :
    ∃ f s, handleCommutativity g left right = (f, s) ∧ f.RulesExact 5 ∧ s.RulesExact 5 ∧
      opcode.meaning (f.eval leaves) (s.eval leaves) = opcode.meaning (left.eval leaves) (right.eval leaves) := by
  rw [handleCommutativity]
  split_ifs
  · exact ⟨right,left,rfl,hr,hl,meaning_comm h _ _⟩
  · exact ⟨left,right,rfl,hl,hr,rfl⟩

private theorem meaning_reduceCheckAdd (g : Bool) : (reduceCheckAdd g left right).meaning leaves =
      CheckOpcode.checkAdd.meaning (left.eval leaves) (right.eval leaves) := by
  obtain ⟨f,s,hsw,hf,hs,hm⟩ :=
    handleCommutativity_cases leaves hl hr (show CheckOpcode.checkAdd ≠ .checkSub by decide) g
  rw [reduceCheckAdd,hsw]
  split
  next v hv => exact (meaning_checkConstant leaves hv).symm
  · dsimp only
    rw [← hm]
    split_ifs with hz
    · refine (meaning_eq_self ?_).symm
      rw [eval_of_asInt? leaves hz,(toInt_small type).1]
      exact add_zero _
    · exact meaning_reduceByRange leaves hf hs

private theorem meaning_reduceCheckSub :
    (reduceCheckSub left right).meaning leaves = CheckOpcode.checkSub.meaning (left.eval leaves) (right.eval leaves) := by
  rw [reduceCheckSub]
  split
  next v hv => exact (meaning_checkConstant leaves hv).symm
  · split_ifs with hz
    · refine (meaning_eq_self ?_).symm
      rw [eval_of_asInt? leaves hz,(toInt_small type).1]
      exact sub_zero _
    · split
      next n hn =>
        obtain ⟨v,hv,hng⟩ := Option.bind_eq_some_iff.1 hn
        rw [checkNegConstant] at hng
        split_ifs at hng with hs
        have hne : v ≠ BitVec.intMin type.width := fun h => hs (by rw [h,BitVec.neg_intMin])
        rw [Reduced.meaning,Value.eval,← Option.some.inj hng,eval_of_asInt? leaves hv]
        apply meaning_congr
        rw [BitVec.toInt_neg_of_ne_intMin hne]
        exact (sub_eq_add_neg _ _).symm
      · exact meaning_reduceByRange leaves hl hr

private theorem meaning_reduceCheckMul (g : Bool) : (reduceCheckMul g left right).meaning leaves =
      CheckOpcode.checkMul.meaning (left.eval leaves) (right.eval leaves) := by
  obtain ⟨f,s,hsw,hf,hs,hm⟩ :=
    handleCommutativity_cases leaves hl hr (show CheckOpcode.checkMul ≠ .checkSub by decide) g
  rw [reduceCheckMul,hsw]
  split
  next v hv => exact (meaning_checkConstant leaves hv).symm
  · dsimp only
    rw [← hm]
    split_ifs with hz ho ht
    · rw [eval_of_asInt? leaves hz,meaning_comm (by decide)]
      refine (meaning_eq_self ?_).symm
      rw [(toInt_small type).1]
      exact zero_mul _
    · refine (meaning_eq_self ?_).symm
      rw [eval_of_asInt? leaves ho,(toInt_small type).2.1]
      exact mul_one _
    · rw [Reduced.meaning,eval_of_asInt? leaves ht]
      apply meaning_congr
      rw [(toInt_small type).2.2]
      exact (mul_two _).symm
    · exact meaning_reduceByRange leaves hf hs

private theorem meaning_reduceCheck (g : Bool) (opcode : CheckOpcode) :
    (reduceCheck g opcode left right).meaning leaves = opcode.meaning (left.eval leaves) (right.eval leaves) := by
  cases opcode with
  | checkAdd => exact meaning_reduceCheckAdd leaves hl hr g
  | checkSub => exact meaning_reduceCheckSub leaves hl hr
  | checkMul => exact meaning_reduceCheckMul leaves hl hr g

end

/-- The rules for masks and shifts to the left are sound exactly under the conditions of `RulesExact`; where these hold, every
value lies in its range at every cut-off and every reduction of a checked operation keeps its meaning. -/
theorem rangeFor_sound (type : IntType) : (∀ mask : BitVec type.width,
      (∀ x : BitVec type.width, (rangeForMask mask).Covers (x &&& mask)) ↔ mask = -1 ∨ 0 ≤ mask.toInt) ∧
    (∀ (range : IntRange) (shiftAmount : BitVec 32), type.Fits range.min → type.Fits range.max → range.min ≤ range.max →
      ((∀ x : BitVec type.width, range.min ≤ x.toInt → x.toInt ≤ range.max →
        (range.shl type shiftAmount).Covers (x <<< type.shiftCount shiftAmount)) ↔ range.ShlExact type shiftAmount)) ∧
    (∀ (value : Value type) (timeToLive : Nat), value.RulesExact timeToLive →
      ∀ leaves, (value.rangeFor timeToLive).Covers (value.eval leaves)) ∧
    ∀ (left right : Value type) (opcode : CheckOpcode) (leftIsGreater : Bool),
      left.RulesExact 5 → right.RulesExact 5 → ∀ leaves,
      (reduceCheck leftIsGreater opcode left right).meaning leaves = opcode.meaning (left.eval leaves) (right.eval leaves) :=
  ⟨fun _ => rangeForMask_iff,fun _ _ hlw hh hle => shl_iff hlw hh hle,
    fun value timeToLive h leaves => value.rangeFor_covers leaves timeToLive h,
    fun _ _ opcode leftIsGreater hl hr leaves => meaning_reduceCheck leaves hl hr leftIsGreater opcode⟩

/-- The checks on a negative mask and on a shift to the left are removed, but fail when the leaf is 2 and 2^30. -/
theorem removed_checks_overflow :
    let masked : Value .int32 := .bitAnd (.leaf 0) (.const (-2))
    let shifted : Value .int32 := .shl (.bitAnd (.leaf 0) (.const 0x7FFFFFFF)) (.const 1)
    reduceCheck false .checkAdd masked (.const 0x7FFFFFFF) = .unchecked .checkAdd masked (.const 0x7FFFFFFF) ∧
    CheckOpcode.checkAdd.meaning (masked.eval fun _ _ => 2) 0x7FFFFFFF = none ∧
    reduceCheck false .checkAdd shifted (.const (-1)) = .unchecked .checkAdd shifted (.const (-1)) ∧
    CheckOpcode.checkAdd.meaning (shifted.eval fun _ _ => 0x40000000) (-1) = none := by
  refine ⟨?_,by decide,?_,by decide⟩
  · rfl
  · rfl

theorem rangeFor_sound_byte :
    let byte : Value .int32 := .bitAnd (.leaf 0) (.const 255)
    (byte.rangeFor 5).Covers (byte.eval fun _ _ => 300) ∧
      (reduceCheck false .checkAdd byte (.const 1)).meaning (fun _ _ => 300) = some 45 := by
  have hb : (Value.bitAnd (.leaf 0) (.const 255) : Value .int32).RulesExact 5 := .inr (by decide)
  exact ⟨(rangeFor_sound _).2.2.1 _ 5 hb _,((rangeFor_sound _).2.2.2 _ (.const 1) .checkAdd false hb trivial _).trans (by decide)⟩

end WebKit.JavaScriptCore.B3
