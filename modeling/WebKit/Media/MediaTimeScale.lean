import WebKit.Base.Rounding
import WebKit.Media.MediaTimeCompare

/-! The value of a media time at another scale: rounded, infinite, or wrapped around. -/
namespace WebKit.Media

open Base Int

/-- What a rounding mode adds to a truncated quotient. -/
def RoundingFlags.adjustment (remainder : Int) (d : Nat) : RoundingFlags → Int
  | .halfAwayFromZero => if remainder.natAbs*2 ≥ d then remainder.sign else 0
  | .towardZero => 0
  | .awayFromZero => remainder.sign
  | .towardPositiveInfinity => if remainder > 0 then 1 else 0
  | .towardNegativeInfinity => if remainder < 0 then -1 else 0

theorem RoundingFlags.adjustment_zero {d : Nat} (flags : RoundingFlags) : flags.adjustment 0 d = 0 := by
  cases flags <;> simp [adjustment]

namespace MediaTime

def truncatedAt (time : MediaTime) (scale : Nat) : Int := (time.timeValue.toInt*scale).tdiv time.timeScale.toNat

def remainderAt (time : MediaTime) (scale : Nat) : Int := (time.timeValue.toInt*scale).tmod time.timeScale.toNat

def roundedAt (time : MediaTime) (scale : Nat) : Int := roundDiv (time.timeValue.toInt*scale) time.timeScale.toNat

/-- The flags but for whether the time has been rounded. -/
def kind (time : MediaTime) : TimeFlags := { time.timeFlags with hasBeenRounded := false }

section
variable {time : MediaTime} {scale : UInt32}

theorem clamp_eq (h : scale.toNat ≤ 1000000000) :
    (if maximumTimeScale ≤ scale then maximumTimeScale else scale) = scale := by
  split
  next hle =>
    rw [UInt32.le_iff_toNat_le] at hle
    have hm : maximumTimeScale.toNat = 1000000000 := rfl
    exact UInt32.toNat_inj.1 (by omega)
  · rfl

theorem truncatedAt_self (hs : time.timeScale ≠ 0) : time.truncatedAt time.timeScale.toNat = time.timeValue.toInt := by
  have hp : time.timeScale.toNat ≠ 0 := fun h => hs (UInt32.toNat_inj.1 h)
  exact mul_tdiv_cancel _ (by omega)

theorem fits_toInt (x : Int64) : FitsInt64 x.toInt := by
  have hl := x.le_toInt
  have hh := x.toInt_lt
  rw [FitsInt64]
  omega

variable {flags : RoundingFlags}

private theorem round_eq {r : Int} (h : r ≠ 0) : time.round r scale flags =
    { time with timeValue := time.timeValue + .ofInt (flags.adjustment r scale.toNat) } := by
  have hz : time.timeValue + .ofInt 0 = time.timeValue := Int64.add_zero _
  have hm : Int64.ofInt (-1) = -1 := by decide
  have hn : time.timeValue + .ofInt (-1) = time.timeValue - 1 := by rw [hm,Int64.sub_eq_add_neg]
  rcases lt_or_gt_of_ne h with hr | hr
  · cases flags <;> simp only [round,RoundingFlags.adjustment,sign_eq_neg_one_of_neg hr,hr,hr.not_gt,if_true,if_false,
      hz,hn]
    split <;> simp only [hz,hn]
  · cases flags <;> simp only [round,RoundingFlags.adjustment,sign_eq_one_of_pos hr,hr,hr.not_gt,if_true,if_false,hz]
    · split
      · rfl
      · rw [hz]
    all_goals rfl

variable (hdb : time.timeFlags.doubleValue = false) (hs : time.timeScale ≠ 0) (hne : scale ≠ 0)
  (hle : scale.toNat ≤ 1000000000)
include hdb hs hne hle

theorem setTimeScale_eq_negativeInfinite (h : time.truncatedAt scale.toNat < -9223372036854775808) :
    time.setTimeScale scale flags = negativeInfiniteTime := by
  have hne' : scale ≠ time.timeScale := by
    rintro rfl
    rw [truncatedAt_self hs] at h
    have := (fits_toInt time.timeValue).1
    omega
  simp only [setTimeScale,hasDoubleValue,hdb,Bool.false_eq_true,if_false,hne,hne',clamp_eq hle]
  exact if_pos h

theorem setTimeScale_eq_positiveInfinite (h : 9223372036854775807 < time.truncatedAt scale.toNat) :
    time.setTimeScale scale flags = positiveInfiniteTime := by
  have hne' : scale ≠ time.timeScale := by
    rintro rfl
    rw [truncatedAt_self hs] at h
    have := (fits_toInt time.timeValue).2
    omega
  have hl : ¬ time.truncatedAt scale.toNat < -9223372036854775808 := by omega
  simp only [setTimeScale,hasDoubleValue,hdb,Bool.false_eq_true,if_false,hne,hne',clamp_eq hle]
  rw [truncatedAt] at h hl
  rw [if_neg hl,if_pos h]

/-- A value whose truncation fits is rounded as a machine integer. -/
theorem setTimeScale_eq_of_fits (h : FitsInt64 (time.truncatedAt scale.toNat)) : time.setTimeScale scale flags =
    ⟨.ofInt (time.truncatedAt scale.toNat+flags.adjustment (time.remainderAt scale.toNat) time.timeScale.toNat),scale,
      { time.timeFlags with
        hasBeenRounded := time.timeFlags.hasBeenRounded || time.remainderAt scale.toNat ≠ 0 }⟩ := by
  have hv : time.hasDoubleValue = false := hdb
  simp only [setTimeScale,hv,Bool.false_eq_true,if_false,hne,clamp_eq hle]
  split
  next he =>
    subst he
    have hz : time.remainderAt time.timeScale.toNat = 0 := mul_tmod_left _ _
    rw [truncatedAt_self hs,hz,flags.adjustment_zero,add_zero,Int64.ofInt_toInt]
    simp
  · rw [truncatedAt,FitsInt64] at h
    rw [if_neg (by omega),if_neg (by omega),← truncatedAt,← remainderAt]
    split
    next hz =>
      rw [hz,flags.adjustment_zero,add_zero]
      simp
    next hr =>
      rw [round_eq hr,Int64.ofInt_add]
      simp [hr]

end
end MediaTime
end WebKit.Media
