import Mathlib.Algebra.Order.Field.Basic
import Mathlib.Tactic.Linarith
import Mathlib.Tactic.Ring
import WebKit.Media.MediaTime

/-! When the comparison of two rational media times is exact. -/
namespace WebKit.Media
open Int

/-- What a comparison says of two numbers. -/
def ComparisonFlags.Holds (x y : ℚ) : ComparisonFlags → Prop
  | .lessThan => x < y
  | .equalTo => x = y
  | .greaterThan => y < x

namespace MediaTime

/-- A finite and valid time that is not a double. -/
structure IsRational (time : MediaTime) : Prop where
  valid : time.timeFlags.valid = true
  positiveInfinite : time.timeFlags.positiveInfinite = false
  negativeInfinite : time.timeFlags.negativeInfinite = false
  indefinite : time.timeFlags.indefinite = false
  doubleValue : time.timeFlags.doubleValue = false
  timeScale : time.timeScale ≠ 0

def toRat (time : MediaTime) : ℚ := (time.timeValue.toInt : ℚ)/(time.timeScale.toNat : ℚ)

theorem IsRational.scale_pos {t : MediaTime} (h : t.IsRational) : 0 < t.timeScale.toNat :=
  Nat.pos_of_ne_zero fun hz => h.timeScale (UInt32.toNat_inj.1 hz)

section
variable {a b : MediaTime}

private theorem compare_eq_compareRational (ha : a.IsRational) (hb : b.IsRational) : a.compare b = a.compareRational b := by
  simp [compare,TimeFlags.and,TimeFlags.or,ha.valid,ha.positiveInfinite,ha.negativeInfinite,ha.indefinite,
    ha.doubleValue,hb.valid,hb.positiveInfinite,hb.negativeInfinite,hb.indefinite,hb.doubleValue]

def IntHolds (x y : Int) : ComparisonFlags → Prop
  | .lessThan => x < y
  | .equalTo => x = y
  | .greaterThan => y < x

private theorem intHolds_congr {x y x' y' : Int} (h : x - y = x' - y') (flags : ComparisonFlags) :
    IntHolds x y flags ↔ IntHolds x' y' flags := by
  cases flags <;> simp only [IntHolds] <;> omega

private theorem holds_iff (ha : a.IsRational) (hb : b.IsRational) (flags : ComparisonFlags) : flags.Holds a.toRat b.toRat ↔
      IntHolds (a.timeValue.toInt*b.timeScale.toNat) (b.timeValue.toInt*a.timeScale.toNat) flags := by
  have hs1 : (0 : ℚ) < a.timeScale.toNat := Nat.cast_pos.2 ha.scale_pos
  have hs2 : (0 : ℚ) < b.timeScale.toNat := Nat.cast_pos.2 hb.scale_pos
  cases flags with
  | lessThan =>
    rw [ComparisonFlags.Holds,toRat,toRat,div_lt_div_iff₀ hs1 hs2,IntHolds]
    exact_mod_cast Iff.rfl
  | equalTo =>
    rw [ComparisonFlags.Holds,toRat,toRat,div_eq_div_iff hs1.ne' hs2.ne',IntHolds]
    exact_mod_cast Iff.rfl
  | greaterThan =>
    rw [ComparisonFlags.Holds,toRat,toRat,div_lt_div_iff₀ hs2 hs1,IntHolds]
    exact_mod_cast Iff.rfl

end

section
variable {v1 v2 : Int} {s1 s2 : Nat}

theorem tmod_cases (hs : 0 < s1) :
    (0 ≤ v1 → 0 ≤ v1.tmod s1 ∧ v1.tmod s1 < s1) ∧ (v1 ≤ 0 → v1.tmod s1 ≤ 0 ∧ -(s1 : Int) < v1.tmod s1) := by
  have hn (w : Int) (hw : 0 ≤ w) : 0 ≤ w.tmod s1 ∧ w.tmod s1 < s1 :=
    ⟨tmod_nonneg _ hw,tmod_lt_of_pos _ (by omega)⟩
  refine ⟨hn v1,fun hv => ?_⟩
  have := hn (-v1) (by omega)
  rw [neg_tmod] at this
  omega

theorem cross_eq : v1*s2 - v2*s1 = (v1.tdiv s1-v2.tdiv s2)*(s1*s2) + (v1.tmod s1*s2-v2.tmod s2*s1) := by
  have h1 := mul_tdiv_add_tmod v1 s1
  have h2 := mul_tdiv_add_tmod v2 s2
  generalize v1.tdiv s1 = q1 at *
  generalize v2.tdiv s2 = q2 at *
  generalize v1.tmod s1 = r1 at *
  generalize v2.tmod s2 = r2 at *
  rw [← h1,← h2]
  ring

private theorem cross_lt_of_tdiv_lt (hs1 : 0 < s1) (hs2 : 0 < s2) (hs : (0 ≤ v1 ∧ 0 ≤ v2) ∨ (v1 ≤ 0 ∧ v2 ≤ 0))
    (h : v1.tdiv s1 < v2.tdiv s2) : v1*s2 < v2*s1 := by
  have hc := @cross_eq v1 v2 s1 s2
  obtain ⟨hp1,hn1⟩ := @tmod_cases v1 s1 hs1
  obtain ⟨hp2,hn2⟩ := @tmod_cases v2 s2 hs2
  generalize v1.tdiv s1 = q1 at *
  generalize v2.tdiv s2 = q2 at *
  have hs1' : (0 : Int) < s1 := by omega
  have hs2' : (0 : Int) < s2 := by omega
  have hw : (q1-q2)*(s1*s2) ≤ -(s1*s2 : Int) := by nlinarith [mul_pos hs1' hs2']
  rcases hs with ⟨hv1,hv2⟩ | ⟨hv1,hv2⟩
  · nlinarith [hp1 hv1, hp2 hv2, mul_nonneg (hp2 hv2).1 hs1'.le]
  · nlinarith [hn1 hv1, hn2 hv2, mul_nonneg (neg_nonneg.2 (hn1 hv1).1) hs2'.le]

private theorem cross_eq_of_whole (h : v1.tdiv s1 = v2.tdiv s2) : v1*s2 - v2*s1 = v1.tmod s1*s2 - v2.tmod s2*s1 := by
  rw [cross_eq,h,sub_self,zero_mul,zero_add]

/-- Products of one sign compare as machine integers as they do as integers, if both fit or none does. -/
theorem intHolds_bmod {x y : Int} (hx : -18446744073709551616 < x ∧ x < 18446744073709551616)
    (hy : -18446744073709551616 < y ∧ y < 18446744073709551616) (hs : (0 ≤ x ∧ 0 ≤ y) ∨ (x ≤ 0 ∧ y ≤ 0)) :
    IntHolds x y (if x.bmod (2^64) = y.bmod (2^64) then .equalTo
      else if y.bmod (2^64) < x.bmod (2^64) then .greaterThan else .lessThan) ↔ (FitsInt64 x ↔ FitsInt64 y) := by
  have hb (z : Int) : z.bmod (2^64) = if z%18446744073709551616 < 9223372036854775808 then
      z%18446744073709551616 else z%18446744073709551616 - 18446744073709551616 := by
    rw [bmod]
    norm_num
  have hx' := hb x
  have hy' := hb y
  rw [FitsInt64,FitsInt64]
  split_ifs <;> simp only [IntHolds] <;> split at hx' <;> split at hy' <;> omega

end

theorem toInt_wide (s : UInt32) : (wide s).toInt = s.toNat := by
  have := s.toNat_lt
  exact Int64.toInt_ofNat_of_lt (by omega)

/-- Neither the signs nor a shortcut decide, a cross product does not fit, and the whole parts are equal. -/
def ComparesRemainders (a b : MediaTime) : Prop :=
  (a.timeValue < 0 ↔ b.timeValue < 0) ∧ a.timeScale ≠ b.timeScale ∧ a.timeValue ≠ b.timeValue ∧
  (0 ≤ a.timeValue → (a.timeValue < b.timeValue ↔ a.timeScale < b.timeScale)) ∧
  (a.timeValue < 0 → (a.timeValue < b.timeValue ↔ b.timeScale < a.timeScale)) ∧
  ¬ (FitsInt64 (a.timeValue.toInt*b.timeScale.toNat) ∧ FitsInt64 (b.timeValue.toInt*a.timeScale.toNat)) ∧
  a.timeValue.toInt.tdiv a.timeScale.toNat = b.timeValue.toInt.tdiv b.timeScale.toNat

/-- The products of remainders and scales both fit, or none does. -/
def RemaindersFit (a b : MediaTime) : Prop :=
  FitsInt64 (a.timeValue.toInt.tmod a.timeScale.toNat*b.timeScale.toNat) ↔
    FitsInt64 (b.timeValue.toInt.tmod b.timeScale.toNat*a.timeScale.toNat)

/-- Equal negative values at different scales. -/
def EqualNegativeValues (a b : MediaTime) : Prop :=
  a.timeValue = b.timeValue ∧ a.timeValue < 0 ∧ a.timeScale ≠ b.timeScale

section
variable {a b : MediaTime} {s : UInt32}

private theorem toInt_div_wide (v : Int64) (hs : 0 < s.toNat) : (v/wide s).toInt = v.toInt.tdiv s.toNat := by
  have hsl (w : Int) (hw : 0 ≤ w) : 0 ≤ w.tdiv s.toNat ∧ w.tdiv s.toNat ≤ w :=
    ⟨Int.tdiv_nonneg hw (by omega),Int.tdiv_le_self _ hw⟩
  have hf : -2^63 ≤ v.toInt.tdiv s.toNat ∧ v.toInt.tdiv s.toNat < 2^63 := by
    have hl := v.le_toInt
    have hh := v.toInt_lt
    rcases le_total 0 v.toInt with hv | hv
    · have := hsl _ hv
      omega
    · have := hsl (-v.toInt) (by omega)
      rw [Int.neg_tdiv] at this
      omega
  rw [Int64.toInt_div,toInt_wide]
  exact bmod_eq_of_le (by omega) (by omega)

private theorem toInt_remainder (v : Int64) (s t : UInt32) :
    (v%wide s*wide t).toInt = (v.toInt.tmod s.toNat*t.toNat).bmod (2^64) := by
  rw [Int64.toInt_mul,Int64.toInt_mod,toInt_wide,toInt_wide]

private theorem toInt_of_fits {x : Int} (h : FitsInt64 x) : x.bmod (2^64) = x := by
  rw [FitsInt64] at h
  exact bmod_eq_of_le (by omega) (by omega)

private theorem safeMultiply_eq_some {v p : Int64} (h : safeMultiply v (wide s) = some p) :
    FitsInt64 (v.toInt*s.toNat) ∧ p.toInt = v.toInt*s.toNat := by
  obtain ⟨hf,he⟩ := Option.ite_none_right_eq_some.1 h
  rw [toInt_wide] at hf
  rw [← Option.some.inj he,Int64.toInt_mul,toInt_wide,toInt_of_fits hf]
  exact ⟨hf,rfl⟩

private theorem remainder_bounds (v : Int64) {t : UInt32} (hs : 0 < s.toNat) :
    -18446744073709551616 < v.toInt.tmod s.toNat*t.toNat ∧ v.toInt.tmod s.toNat*t.toNat < 18446744073709551616 := by
  obtain ⟨hp,hn⟩ := @tmod_cases v.toInt s.toNat hs
  have hsl := s.toNat_lt
  have ht := t.toNat_lt
  generalize v.toInt.tmod s.toNat = r at *
  have hr : -4294967296 < r ∧ r < 4294967296 := by omega
  constructor <;> nlinarith

private theorem remainder_signs {v w : Int64} {t : UInt32} (hs : 0 < s.toNat) (ht : 0 < t.toNat)
    (hsg : (0 ≤ v.toInt ∧ 0 ≤ w.toInt) ∨ (v.toInt ≤ 0 ∧ w.toInt ≤ 0)) :
    (0 ≤ v.toInt.tmod s.toNat*t.toNat ∧ 0 ≤ w.toInt.tmod t.toNat*s.toNat) ∨
      (v.toInt.tmod s.toNat*t.toNat ≤ 0 ∧ w.toInt.tmod t.toNat*s.toNat ≤ 0) := by
  obtain ⟨hp,hn⟩ := @tmod_cases v.toInt s.toNat hs
  obtain ⟨hp',hn'⟩ := @tmod_cases w.toInt t.toNat ht
  rcases hsg with ⟨hv,hw⟩ | ⟨hv,hw⟩
  · exact .inl ⟨mul_nonneg (hp hv).1 (by omega),mul_nonneg (hp' hw).1 (by omega)⟩
  · exact .inr ⟨mul_nonpos_of_nonpos_of_nonneg (hn hv).1 (by omega),
      mul_nonpos_of_nonpos_of_nonneg (hn' hw).1 (by omega)⟩

/-- The last stage is exact if the cross products fit or the whole parts differ. -/
theorem compareProducts_iff (ha : a.IsRational) (hb : b.IsRational)
    (hs : (0 ≤ a.timeValue.toInt ∧ 0 ≤ b.timeValue.toInt) ∨ (a.timeValue.toInt ≤ 0 ∧ b.timeValue.toInt ≤ 0)) :
    IntHolds (a.timeValue.toInt*b.timeScale.toNat) (b.timeValue.toInt*a.timeScale.toNat) (a.compareProducts b) ↔
      (¬ (FitsInt64 (a.timeValue.toInt*b.timeScale.toNat) ∧ FitsInt64 (b.timeValue.toInt*a.timeScale.toNat)) ∧
        a.timeValue.toInt.tdiv a.timeScale.toNat = b.timeValue.toInt.tdiv b.timeScale.toNat → RemaindersFit a b) := by
  have hs1 := ha.scale_pos
  have hs2 := hb.scale_pos
  rw [compareProducts]
  split
  next l r hl hr =>
    obtain ⟨hf1,hl⟩ := safeMultiply_eq_some hl
    obtain ⟨hf2,hr⟩ := safeMultiply_eq_some hr
    refine iff_of_true ?_ fun h => absurd ⟨hf1,hf2⟩ h.1
    simp only [← Int64.toInt_inj,Int64.lt_iff_toInt_lt,hl,hr]
    split_ifs with he hlt
    · exact he
    · exact hlt
    · exact lt_of_le_of_ne (not_lt.1 hlt) (Ne.symm he)
  next hn =>
    have hf : ¬ (FitsInt64 (a.timeValue.toInt*b.timeScale.toNat) ∧ FitsInt64 (b.timeValue.toInt*a.timeScale.toNat)) := by
      rintro ⟨hf1,hf2⟩
      refine hn (a.timeValue*wide b.timeScale) (b.timeValue*wide a.timeScale) ?_ ?_
      · exact if_pos (by rwa [toInt_wide])
      · exact if_pos (by rwa [toInt_wide])
    simp only [Int64.lt_iff_toInt_lt,← Int64.toInt_inj,gt_iff_lt,toInt_div_wide _ hs1,toInt_div_wide _ hs2,
      toInt_remainder]
    split
    next hg =>
      refine iff_of_true ?_ fun h => absurd h.2 hg.ne'
      exact cross_lt_of_tdiv_lt hs2 hs1 (hs.imp And.symm And.symm) hg
    next hge =>
      split
      next hlt =>
        refine iff_of_true ?_ fun h => absurd h.2 hlt.ne
        exact cross_lt_of_tdiv_lt hs1 hs2 hs hlt
      next hle =>
        have hw := le_antisymm (not_lt.1 hge) (not_lt.1 hle)
        rw [and_iff_left hw,imp_iff_right hf,intHolds_congr (cross_eq_of_whole hw)]
        exact intHolds_bmod (remainder_bounds _ hs1) (remainder_bounds _ hs2) (remainder_signs hs1 hs2 hs)

private theorem compareRational_iff (ha : a.IsRational) (hb : b.IsRational) :
    IntHolds (a.timeValue.toInt*b.timeScale.toNat) (b.timeValue.toInt*a.timeScale.toNat) (a.compareRational b) ↔
      ¬ EqualNegativeValues a b ∧ (ComparesRemainders a b → RemaindersFit a b) := by
  have hs1 := ha.scale_pos
  have hs2 := hb.scale_pos
  have hpr := compareProducts_iff ha hb
  have hzr : (0 : Int64).toInt = 0 := rfl
  rw [compareRational]
  simp only [EqualNegativeValues,ComparesRemainders,Int64.lt_iff_toInt_lt,Int64.le_iff_toInt_le,
    ← Int64.toInt_inj,UInt32.lt_iff_toNat_lt,← UInt32.toNat_inj,ge_iff_le,gt_iff_lt,hzr,ne_eq]
  generalize a.timeScale.toNat = s1 at *
  generalize b.timeScale.toNat = s2 at *
  generalize a.timeValue.toInt = v1 at *
  generalize b.timeValue.toInt = v2 at *
  have hs1' : (0 : Int) < s1 := by omega
  have hs2' : (0 : Int) < s2 := by omega
  simp only [decide_eq_decide]
  split_ifs with hsg hz hs he hl hv hsl hsh hsh hsh hsh hn
  · obtain ⟨rfl,rfl⟩ := hz
    exact iff_of_true (by simp [IntHolds]) ⟨by omega,fun h => absurd rfl h.2.2.1⟩
  · subst hs he
    exact iff_of_true rfl ⟨by omega,fun h => absurd rfl h.2.1⟩
  · subst hs
    exact iff_of_true (mul_lt_mul_of_pos_right hl hs1') ⟨by omega,fun h => absurd rfl h.2.1⟩
  · subst hs
    exact iff_of_true (mul_lt_mul_of_pos_right (by omega) hs1') ⟨by omega,fun h => absurd rfl h.2.1⟩
  · subst hv
    have hps : v1*s1 < v1*s2 ↔ 0 < v1 := by
      constructor <;> intro h <;> nlinarith
    rw [IntHolds,hps]
    exact ⟨fun h => ⟨by omega,fun h => absurd rfl h.2.2.1⟩,fun h => by omega⟩
  · subst hv
    have hps : v1*s2 < v1*s1 ↔ 0 < v1 := by
      have : (s2 : Int) < s1 := by omega
      constructor <;> intro h <;> nlinarith
    rw [IntHolds,hps]
    exact ⟨fun h => ⟨by omega,fun h => absurd rfl h.2.2.1⟩,fun h => by omega⟩
  iterate 4
    · refine iff_of_true ?_ ⟨by omega,fun h => by omega⟩
      rw [IntHolds]
      nlinarith
  · rw [hpr (by omega),and_iff_right (show ¬ (v1 = v2 ∧ v1 < 0 ∧ ¬ s1 = s2) from fun h => hv h.1)]
    refine imp_congr_left ⟨fun h => ?_,fun h => h.2.2.2.2.2⟩
    exact ⟨hsg,hs,hv,by omega,by omega,h⟩
  · have hp : v1*s2 < 0 := mul_neg_of_neg_of_pos hn hs2'
    have hp' : 0 ≤ v2*s1 := mul_nonneg (by omega) hs1'.le
    exact iff_of_true (hp.trans_le hp') ⟨by omega,fun h => absurd h.1 hsg⟩
  · have hp : v2*s1 < 0 := mul_neg_of_neg_of_pos (by omega) hs1'
    have hp' : 0 ≤ v1*s2 := mul_nonneg (by omega) hs2'.le
    exact iff_of_true (hp.trans_le hp') ⟨by omega,fun h => absurd h.1 hsg⟩

/-- The comparison of two rational times is exact unless equal negative values have different scales, or the
remainders are compared by products of which only one fits. -/
theorem compare_exact_iff (ha : a.IsRational) (hb : b.IsRational) : (a.compare b).Holds a.toRat b.toRat ↔
      ¬ EqualNegativeValues a b ∧ (ComparesRemainders a b → RemaindersFit a b) := by
  rw [compare_eq_compareRational ha hb,holds_iff ha hb,compareRational_iff ha hb]

end

/-- The valid time of a value at a scale. -/
def rational (value : Int64) (scale : UInt32) : MediaTime :=
  ⟨value,scale,{ TimeFlags.none with valid := true }⟩

/-- -1 is found greater than -1/2, and 4294967294/4294967295 less than 1/4294967294. -/
theorem compare_inexact :
    (rational (-1) 1).compare (rational (-1) 2) = .greaterThan ∧ (rational (-1) 1).toRat < (rational (-1) 2).toRat ∧
    (rational 4294967294 4294967295).compare (rational 1 4294967294) = .lessThan ∧
    (rational 1 4294967294).toRat < (rational 4294967294 4294967295).toRat := by
  refine ⟨by decide,?_,by decide,?_⟩
  · have hv : (-1 : Int64).toInt = -1 := by decide
    have hs : (1 : UInt32).toNat = 1 ∧ (2 : UInt32).toNat = 2 := by decide
    norm_num only [toRat, rational, hv, hs]
  · have hv : (1 : Int64).toInt = 1 ∧ (4294967294 : Int64).toInt = 4294967294 := by decide
    have hs : (4294967294 : UInt32).toNat = 4294967294 ∧ (4294967295 : UInt32).toNat = 4294967295 := by decide
    norm_num only [toRat, rational, hv, hs]

theorem compare_exact_third_half : ((rational 1 3).compare (rational 1 2)).Holds (rational 1 3).toRat (rational 1 2).toRat := by
  have ht : (rational 1 3).IsRational := ⟨rfl,rfl,rfl,rfl,rfl,by decide⟩
  have hh : (rational 1 2).IsRational := ⟨rfl,rfl,rfl,rfl,rfl,by decide⟩
  refine (compare_exact_iff ht hh).2 ⟨fun h => absurd h.2.1 (by decide),fun h => absurd rfl h.2.2.1⟩

end MediaTime
end WebKit.Media
