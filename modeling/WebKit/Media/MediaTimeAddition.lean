import WebKit.Media.MediaTimeHalving

/-! The sum of two rational media times is commutative, and accurate as far as halving the common scale keeps it. -/
namespace WebKit.Media

open Base Nat

/-- The time is the sum up to a unit, or the infinity of its sign. -/
def ExactTime.Denotes (unit sum : ℚ) : ExactTime → Prop
  | .finite time => |time - sum| ≤ unit
  | .positiveInfinite => 0 < sum
  | .negativeInfinite => sum < 0
  | .undefined => False

def ScaledSum.unit : ScaledSum → ℚ
  | .finite _ scale => 1/scale
  | .infinite _ => 1

namespace MediaTime

/-- The value at a scale is one that can be negated. -/
def FitsAt (time : MediaTime) (scale : Nat) : Prop := |time.roundedAt scale| ≤ 9223372036854775807

section
variable {a b : MediaTime}

end

variable {time : MediaTime}

section
variable {time : MediaTime} {scale : Nat} (h : time.IsRational)
include h

private theorem roundedAt_cases : time.roundedAt scale = time.truncatedAt scale ∨
    (0 ≤ time.truncatedAt scale ∧ time.roundedAt scale = time.truncatedAt scale + 1) ∨
    (time.truncatedAt scale ≤ 0 ∧ time.roundedAt scale = time.truncatedAt scale - 1) := by
  obtain he | ⟨hps,he⟩ | ⟨hng,he⟩ := @roundDiv_cases (time.timeValue.toInt*scale) _ h.scale_pos
  · exact .inl he
  · exact .inr (.inl ⟨Int.tdiv_nonneg hps.le (Int.natCast_nonneg _),he⟩)
  · refine .inr (.inr ⟨?_,he⟩)
    have hn := Int.tdiv_nonneg (show 0 ≤ -(time.timeValue.toInt*scale) by omega) (Int.natCast_nonneg time.timeScale.toNat)
    rw [Int.neg_tdiv] at hn
    exact Int.neg_nonneg.1 hn

private theorem FitsAt.fits (hr : time.FitsAt scale) : FitsInt64 (time.truncatedAt scale) ∧ FitsInt64 (time.roundedAt scale) := by
  have hc := @roundedAt_cases time scale h
  rw [FitsAt,abs_le] at hr
  simp only [FitsInt64]
  omega

end

section
variable {a b : MediaTime} (ha : a.IsRational) (hb : b.IsRational)
include ha hb

variable (hfa : a.FitsAt (commonTimeScale a b).toNat) (hfb : b.FitsAt (commonTimeScale a b).toNat)
include hfa hfb

end

section
variable {a b : MediaTime} (hb : b.IsRational)
include hb

private theorem neg_eq : b.neg = { b with timeValue := -b.timeValue } := by
  simp [neg,isInvalid,isValid,isIndefinite,isPositiveInfinite,isNegativeInfinite,hasDoubleValue,hb.valid,
    hb.positiveInfinite,hb.negativeInfinite,hb.indefinite,hb.doubleValue]

private theorem IsRational.neg : b.neg.IsRational := by
  rw [neg_eq hb]
  exact ⟨hb.valid,hb.positiveInfinite,hb.negativeInfinite,hb.indefinite,hb.doubleValue,hb.timeScale⟩

variable (hm : b.timeValue ≠ Int64.minValue) {scale : Nat}
include hm

private theorem toInt_neg : b.neg.timeValue.toInt = -b.timeValue.toInt := by
  rw [neg_eq hb]
  have hl := b.timeValue.le_toInt
  have hh := b.timeValue.toInt_lt
  have hn : b.timeValue.toInt ≠ -9223372036854775808 := fun h => hm (Int64.toInt_inj.1 h)
  rw [Int64.toInt_neg,Int.bmod_eq_of_le (by omega) (by omega)]

variable (ha : a.IsRational)
include ha

end

end MediaTime
end WebKit.Media
