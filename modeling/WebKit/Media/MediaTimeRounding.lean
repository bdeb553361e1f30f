import Mathlib.Data.Rat.Floor
import WebKit.Media.MediaTimeScale

/-! Media times rescaled in every rounding mode: the value the mode prescribes, unless rounding wraps around. -/
namespace WebKit.Media
open Int

namespace RoundingFlags

/-- The integer that a mode prescribes for a rational. -/
def prescribed (x : ℚ) : RoundingFlags → ℤ
  | .halfAwayFromZero => if 0 ≤ x then ⌊x + 1/2⌋ else ⌈x - 1/2⌉
  | .towardZero => if 0 ≤ x then ⌊x⌋ else ⌈x⌉
  | .awayFromZero => if 0 ≤ x then ⌈x⌉ else ⌊x⌋
  | .towardPositiveInfinity => ⌈x⌉
  | .towardNegativeInfinity => ⌊x⌋

section
variable {q r : Int} {d : Nat} {f : ℚ}

private theorem half_le_iff (hd : 0 < d) (hf : f*d = r) : r.natAbs*2 ≥ d ↔ 1/2 ≤ |f| := by
  have hd' : (0 : ℚ) < d := Nat.cast_pos.2 hd
  have ha : (r.natAbs : ℚ) = |f| * d := by rw [Nat.cast_natAbs,cast_abs,← hf,abs_mul,abs_of_pos hd']
  have hc : r.natAbs*2 ≥ d ↔ (d : ℚ) ≤ r.natAbs*2 := by norm_cast
  rw [hc,ha,mul_right_comm,le_mul_iff_one_le_left hd',div_le_iff₀ two_pos]

private theorem prescribed_add (hf : f*d = r) (hl : -(d : Int) < r) (hhg : r < d)
    (hs : 0 ≤ q ∧ 0 ≤ r ∨ q ≤ 0 ∧ r ≤ 0) (fs : RoundingFlags) :
    fs.prescribed (q+f) = q + fs.adjustment r d := by
  have hp : 0 < d := by omega
  have hd : (0 : ℚ) < d := Nat.cast_pos.2 hp
  have hfr : f = r/d := by rw [← hf,mul_div_cancel_right₀ _ hd.ne.symm]
  have hh := half_le_iff hp hf
  rcases lt_trichotomy r 0 with hr | rfl | hr
  · have hng : f < 0 := hfr ▸ div_neg_of_neg_of_pos (cast_lt_zero.2 hr) hd
    have ho : -1 < f := by rw [hfr,lt_div_iff₀ hd,neg_one_mul]; exact_mod_cast hl
    have hq : (q : ℚ) ≤ 0 := cast_nonpos.2 (by omega)
    have hx : ¬ 0 ≤ (q : ℚ) + f := by linarith
    have hfl : ⌊f⌋ = -1 := floor_eq_iff.2 ⟨by push_cast; linarith,by push_cast; linarith⟩
    have hc : ⌈f⌉ = 0 := ceil_eq_iff.2 ⟨by push_cast; linarith,by push_cast; linarith⟩
    have hn : ⌈f - 1/2⌉ = if r.natAbs*2 ≥ d then -1 else 0 := by
      rw [abs_of_neg hng] at hh
      split_ifs with h <;> rw [hh] at h <;> exact ceil_eq_iff.2 ⟨by push_cast; linarith,by push_cast; linarith⟩
    cases fs <;> simp only [prescribed,adjustment,hx,hr,hr.not_gt,if_true,if_false,sign_eq_neg_one_of_neg hr,
      add_sub_assoc,ceil_intCast_add,floor_intCast_add,hfl,hc,hn]
  · have hz : f = 0 := by rw [hfr,cast_zero,zero_div]
    have hu : ⌊(1/2 : ℚ)⌋ = 0 := by norm_num
    have hdw : ⌈(-(1/2) : ℚ)⌉ = 0 := by norm_num
    cases fs <;> simp only [prescribed,adjustment,hz,add_zero,floor_intCast,ceil_intCast,ite_self,
      sign_zero,lt_irrefl,if_false,floor_intCast_add,sub_eq_add_neg,ceil_intCast_add,hu,hdw]
  · have hg : 0 < f := hfr ▸ div_pos (cast_pos.2 hr) hd
    have ho : f < 1 := by rw [hfr,div_lt_one hd]; exact_mod_cast hhg
    have hq : (0 : ℚ) ≤ q := cast_nonneg (by omega)
    have hx : 0 ≤ (q : ℚ) + f := by linarith
    have hfl : ⌊f⌋ = 0 := floor_eq_iff.2 ⟨by push_cast; linarith,by push_cast; linarith⟩
    have hc : ⌈f⌉ = 1 := ceil_eq_iff.2 ⟨by push_cast; linarith,by push_cast; linarith⟩
    have hn : ⌊f + 1/2⌋ = if r.natAbs*2 ≥ d then 1 else 0 := by
      rw [abs_of_pos hg] at hh
      split_ifs with h <;> rw [hh] at h <;> exact floor_eq_iff.2 ⟨by push_cast; linarith,by push_cast; linarith⟩
    cases fs <;> simp only [prescribed,adjustment,hx,hr,hr.not_gt,if_true,if_false,sign_eq_one_of_pos hr,
      add_assoc,ceil_intCast_add,floor_intCast_add,hfl,hc,hn]

private theorem adjustment_sign (hs : 0 ≤ q ∧ 0 ≤ r ∨ q ≤ 0 ∧ r ≤ 0) (fs : RoundingFlags) :
    0 ≤ q ∧ 0 ≤ fs.adjustment r d ∨ q ≤ 0 ∧ fs.adjustment r d ≤ 0 := by
  have hp : 0 ≤ r → 0 ≤ r.sign := sign_nonneg_iff.2
  have hn : r ≤ 0 → r.sign ≤ 0 := sign_nonpos_iff.2
  cases fs <;> simp only [adjustment] <;> (try split) <;> omega

end
end RoundingFlags

namespace MediaTime

/-- What the mode prescribes for the exact time, with rounding reported if that is inexact, or infinite if it does not fit. -/
def RescalesExactly (time : MediaTime) (scale : UInt32) (flags : RoundingFlags) : Prop :=
  let exact := time.toRat*scale.toNat
  let result := time.setTimeScale scale flags
  (FitsInt64 (flags.prescribed exact) → result.timeValue.toInt = flags.prescribed exact ∧ result.timeScale = scale ∧
    result.timeFlags = { time.timeFlags with hasBeenRounded := flags.prescribed exact ≠ exact }) ∧
  (¬ FitsInt64 (flags.prescribed exact) →
    result = if time.timeValue < 0 then negativeInfiniteTime else positiveInfiniteTime)

section
variable {time : MediaTime} (scale : Nat)

private theorem truncatedAt_sign : 0 ≤ time.timeValue.toInt ∧ 0 ≤ time.truncatedAt scale ∧ 0 ≤ time.remainderAt scale ∨
    time.timeValue.toInt < 0 ∧ time.truncatedAt scale ≤ 0 ∧ time.remainderAt scale ≤ 0 := by
  have hs : (0 : Int) ≤ time.timeScale.toNat := by omega
  rcases le_or_gt 0 time.timeValue.toInt with hv | hv
  · have hn := mul_nonneg hv (by omega : (0 : Int) ≤ scale)
    exact .inl ⟨hv,Int.tdiv_nonneg hn hs,tmod_nonneg _ hn⟩
  · have hn : 0 ≤ -(time.timeValue.toInt*scale) := by
      rw [← neg_mul]
      exact mul_nonneg (by omega) (by omega)
    have hq := Int.tdiv_nonneg hn hs
    have hr := tmod_nonneg (time.timeScale.toNat : Int) hn
    rw [Int.neg_tdiv] at hq
    rw [neg_tmod] at hr
    exact .inr ⟨hv,by rw [truncatedAt]; omega,by rw [remainderAt]; omega⟩

variable (h : time.IsRational)
include h

private theorem toRat_mul : time.toRat*scale = time.truncatedAt scale + (time.remainderAt scale : ℚ)/time.timeScale.toNat := by
  have hd : (time.timeScale.toNat : ℚ) ≠ 0 := Nat.cast_ne_zero.2 h.scale_pos.ne.symm
  rw [toRat,div_mul_eq_mul_div,div_eq_iff hd,add_mul,div_mul_cancel₀ _ hd,mul_comm (time.truncatedAt scale : ℚ)]
  exact_mod_cast (mul_tdiv_add_tmod (time.timeValue.toInt*scale) time.timeScale.toNat).symm

private theorem prescribed_eq (fs : RoundingFlags) : fs.prescribed (time.toRat*scale) =
    time.truncatedAt scale + fs.adjustment (time.remainderAt scale) time.timeScale.toNat := by
  have hd : (time.timeScale.toNat : ℚ) ≠ 0 := Nat.cast_ne_zero.2 h.scale_pos.ne.symm
  have hs := @truncatedAt_sign time scale
  obtain ⟨-,hc⟩ := @Base.tdiv_tmod_cases (time.timeValue.toInt*scale) _ h.scale_pos
  rw [← remainderAt] at hc
  rw [toRat_mul scale h]
  exact RoundingFlags.prescribed_add (div_mul_cancel₀ _ hd) (by omega) (by omega) (by omega) fs

private theorem prescribed_eq_exact_iff (fs : RoundingFlags) :
    (fs.prescribed (time.toRat*scale) : ℚ) = time.toRat*scale ↔ time.remainderAt scale = 0 := by
  have hd : (time.timeScale.toNat : ℚ) ≠ 0 := Nat.cast_ne_zero.2 h.scale_pos.ne.symm
  constructor
  · intro he
    -- an integer quotient is a multiple of the scale
    generalize fs.prescribed _ = v at he
    rw [toRat,div_mul_eq_mul_div,eq_div_iff hd] at he
    have hm : time.timeValue.toInt*scale = v*time.timeScale.toNat := by exact_mod_cast he.symm
    rw [remainderAt,hm,mul_tmod_left]
  · intro hr
    rw [prescribed_eq scale h,toRat_mul scale h,hr,fs.adjustment_zero,add_zero,cast_zero,zero_div,add_zero]

end

/-- Rescaling is exact unless only the truncated value fits, or a time that has been rounded before needs no rounding now: its
flag is never cleared. -/
theorem setTimeScale_exact_iff {time : MediaTime} {scale : UInt32} (h : time.IsRational) (hne : scale ≠ 0)
    (hle : scale ≤ maximumTimeScale) (flags : RoundingFlags) : time.RescalesExactly scale flags ↔
      (FitsInt64 (RoundingFlags.towardZero.prescribed (time.toRat*scale.toNat)) →
        FitsInt64 (flags.prescribed (time.toRat*scale.toNat))) ∧
      (time.timeFlags.hasBeenRounded → FitsInt64 (flags.prescribed (time.toRat*scale.toNat)) →
        (flags.prescribed (time.toRat*scale.toNat) : ℚ) ≠ time.toRat*scale.toNat) := by
  have hs : scale.toNat ≤ 1000000000 := UInt32.le_iff_toNat_le.1 hle
  have hsg := @truncatedAt_sign time scale.toNat
  have ha := RoundingFlags.adjustment_sign (d := time.timeScale.toNat) (by omega :
    0 ≤ time.truncatedAt scale.toNat ∧ 0 ≤ time.remainderAt scale.toNat ∨ _ ∧ time.remainderAt scale.toNat ≤ 0) flags
  have hz : RoundingFlags.towardZero.prescribed (time.toRat*scale.toNat) = time.truncatedAt scale.toNat := by
    rw [prescribed_eq _ h,RoundingFlags.adjustment,add_zero]
  have hl : time.timeValue < 0 ↔ time.timeValue.toInt < 0 := Int64.lt_iff_toInt_lt
  rw [hz,RescalesExactly]
  by_cases hf : FitsInt64 (time.truncatedAt scale.toNat)
  · simp only [setTimeScale_eq_of_fits h.doubleValue h.timeScale hne hs hf,← prescribed_eq _ h,
      ne_eq,prescribed_eq_exact_iff _ h,hf,true_imp_iff]
    constructor
    · intro hr
      have hv : FitsInt64 (flags.prescribed (time.toRat*scale.toNat)) := by
        -- a finite time is not an infinity
        by_contra hno
        have hi := congrArg MediaTime.timeFlags (hr.2 hno)
        split at hi
        · exact absurd ((congrArg TimeFlags.negativeInfinite hi).symm.trans h.negativeInfinite) (by decide)
        · exact absurd ((congrArg TimeFlags.positiveInfinite hi).symm.trans h.positiveInfinite) (by decide)
      refine ⟨hv,fun hb _ hz => ?_⟩
      have hf := congrArg TimeFlags.hasBeenRounded (hr.1 hv).2.2
      simp [hb,hz] at hf
    · rintro ⟨hv,hb⟩
      refine ⟨fun _ => ⟨Int64.toInt_ofInt_of_le hv.1 (by have := hv.2; omega),trivial,?_⟩,fun hno => absurd hv hno⟩
      cases hr : time.timeFlags.hasBeenRounded with
      | false => rfl
      | true => simp [hb hr hv]
  · have hno : ¬ FitsInt64 (flags.prescribed (time.toRat*scale.toNat)) := by
      rw [prescribed_eq _ h]
      rw [FitsInt64] at hf ⊢
      omega
    refine ⟨fun _ => ⟨fun hc => absurd hc hf,fun _ hc => absurd hc hno⟩,fun _ => ⟨fun hc => absurd hc hno,fun _ => ?_⟩⟩
    rw [FitsInt64] at hf
    rcases lt_or_ge (time.truncatedAt scale.toNat) 0 with hn | hn
    · rw [setTimeScale_eq_negativeInfinite h.doubleValue h.timeScale hne hs (by omega),if_pos (hl.2 (by omega))]
    · rw [setTimeScale_eq_positiveInfinite h.doubleValue h.timeScale hne hs (by omega),if_neg (by rw [hl]; omega)]

/-- 2^63 - 1/2 rounded up wraps around, and is not reported as infinite. -/
theorem setTimeScale_inexact : ¬ (rational 6148914691236517205 2).RescalesExactly 3 .halfAwayFromZero ∧
    ((rational 6148914691236517205 2).setTimeScale 3 .halfAwayFromZero).timeValue = -9223372036854775808 := by
  refine ⟨fun h => ?_,by decide⟩
  have he : (rational 6148914691236517205 2).toRat*(3 : UInt32).toNat = 18446744073709551615/2 := by
    have hv : (6148914691236517205 : Int64).toInt = 6148914691236517205 := by decide
    have hs : (2 : UInt32).toNat = 2 ∧ (3 : UInt32).toNat = 3 := by decide
    norm_num only [toRat, rational, hv, hs]
  have hf : ¬ FitsInt64 (RoundingFlags.halfAwayFromZero.prescribed (18446744073709551615/2)) := by decide +kernel
  rw [RescalesExactly,he] at h
  exact absurd (h.2 hf) (by decide)

theorem setTimeScale_exact_half : (rational 1 2).RescalesExactly 3 .towardNegativeInfinity := by
  have h : (rational 1 2).IsRational := ⟨rfl,rfl,rfl,rfl,rfl,by decide⟩
  refine (setTimeScale_exact_iff h (by decide) (by decide) _).2 ⟨fun _ => ?_,fun hr => absurd hr (by decide)⟩
  decide +kernel

end MediaTime
end WebKit.Media
