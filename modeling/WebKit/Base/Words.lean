import Mathlib.Tactic.Linarith
import Mathlib.Tactic.Ring

/-! Signed values of machine words under shifts and masks. -/
namespace WebKit.Base
open BitVec

section
variable {w s : Nat} (hs : s < w)
include hs

private theorem two_pow_half : (2 : Int)^w/2 = 2^(w-1) ∧ ((2 : Int)^w + 1)/2 = 2^(w-1) := by
  have : (2 : Int)^w = 2^(w-1)*2 := by rw [← pow_succ,Nat.sub_add_cancel (by omega)]
  omega

private theorem two_pow_split : (2 : Int)^(w-1) = 2^(w-1-s)*2^s := by
  rw [← pow_add,Nat.sub_add_cancel (by omega)]

theorem toInt_ofInt_of_le {x : Int} (hl : -2^(w-1) ≤ x) (hhg : x < 2^(w-1)) : (BitVec.ofInt w x).toInt = x := by
  obtain ⟨hh,hh'⟩ := two_pow_half hs
  rw [toInt_ofInt]
  exact Int.bmod_eq_of_le (by push_cast; omega) (by push_cast; omega)

variable {x : BitVec w}

omit hs in
private theorem toInt_shiftLeft_bmod : (x <<< s).toInt = (x.toInt*2^s).bmod (2^w) := by
  rw [toInt_shiftLeft,Nat.shiftLeft_eq,toInt_eq_toNat_bmod,Int.bmod_mul_bmod]
  push_cast
  rfl

theorem toInt_shiftLeft_of_le (hl : -2^(w-1-s) ≤ x.toInt) (hhg : x.toInt < 2^(w-1-s)) :
    (x <<< s).toInt = x.toInt*2^s := by
  obtain ⟨hh,hh'⟩ := two_pow_half hs
  have hsp := two_pow_split hs
  have hp : (0 : Int) < 2^s := by positivity
  rw [toInt_shiftLeft_bmod]
  refine Int.bmod_eq_of_le ?_ ?_
  · push_cast
    rw [hh,hsp,← neg_mul]
    exact mul_le_mul_of_nonneg_right hl hp.le
  · push_cast
    rw [hh',hsp]
    exact mul_lt_mul_of_pos_right hhg hp

theorem toInt_sshiftRight_range :
    -2^(w-1-s) ≤ (x.sshiftRight s).toInt ∧ (x.sshiftRight s).toInt < 2^(w-1-s) := by
  have hl := x.le_toInt
  have hh := @toInt_lt w x
  have hp : (0 : Int) < 2^s := by positivity
  rw [two_pow_split hs] at hl hh
  rw [toInt_sshiftRight,Int.shiftRight_eq_div_pow]
  rw [← neg_mul] at hl
  exact ⟨(Int.le_ediv_iff_mul_le hp).2 hl,(Int.ediv_lt_iff_lt_mul hp).2 hh⟩

/-- A word survives a left shift when no bit of its signed value is lost. -/
theorem sshiftRight_shiftLeft_iff :
    (x <<< s).sshiftRight s = x ↔ -2^(w-1-s) ≤ x.toInt ∧ x.toInt < 2^(w-1-s) := by
  refine ⟨fun h => h ▸ toInt_sshiftRight_range hs,fun ⟨hl,hh⟩ => ?_⟩
  apply eq_of_toInt_eq
  rw [toInt_sshiftRight,toInt_shiftLeft_of_le hs hl hh,Int.shiftRight_eq_div_pow]
  exact Int.mul_ediv_cancel _ (by positivity)

theorem toInt_shiftLeft_le : (x <<< s).toInt ≤ (2^(w-1-s)-1)*2^s := by
  have hp : (0 : Int) < 2^s := by positivity
  have hh := @toInt_lt w (x <<< s)
  have hdv : (2 : Int)^s ∣ (x <<< s).toInt := by
    have hdv' : (2 : Int)^s ∣ 2^w := pow_dvd_pow _ hs.le
    rw [toInt_shiftLeft_bmod,Int.bmod_def]
    have hm : (2 : Int)^s ∣ x.toInt*2^s%2^w := by
      rw [Int.emod_def]
      exact Int.dvd_sub (Int.dvd_mul_left _ _) (Dvd.dvd.mul_right hdv' _)
    split
    · exact hm
    · exact Int.dvd_sub hm hdv'
  obtain ⟨k,hk⟩ := hdv
  rw [hk,two_pow_split hs] at hh
  rw [hk,mul_comm]
  refine mul_le_mul_of_nonneg_right ?_ hp.le
  have : k < 2^(w-1-s) := lt_of_mul_lt_mul_right (by rwa [mul_comm] at hh) hp.le
  omega

/-- The number below those that come back is shifted to the greatest multiple. -/
theorem toInt_shiftLeft_below (h : x.toInt = -2^(w-1-s) - 1) : (x <<< s).toInt = (2^(w-1-s)-1)*2^s := by
  obtain ⟨hh,hh'⟩ := two_pow_half hs
  have hsp := two_pow_split hs
  have hp : (0 : Int) < 2^s := by positivity
  have hl : (2 : Int)^s ≤ 2^(w-1-s)*2^s := le_mul_of_one_le_left hp.le (one_le_pow₀ (by decide))
  have hdb : (2 : Int)^w = 2*(2^(w-1-s)*2^s) := by
    rw [← hsp,← pow_succ',Nat.sub_add_cancel (by omega)]
  have hw : x.toInt*2^s = (2^(w-1-s)-1)*2^s - (2^w : Nat) := by
    push_cast
    rw [h,hdb]
    ring
  rw [toInt_shiftLeft_bmod,hw,Int.sub_bmod_right]
  refine Int.bmod_eq_of_le ?_ ?_ <;> push_cast <;> rw [sub_mul,one_mul]
  · omega
  · omega

/-- The number above those that come back is shifted to the least number. -/
theorem toInt_shiftLeft_above (h : x.toInt = 2^(w-1-s)) : (x <<< s).toInt = -2^(w-1) := by
  obtain ⟨hh,hh'⟩ := two_pow_half hs
  have hp : (0 : Int) < 2^(w-1) := by positivity
  have hdb : (2 : Int)^w = 2*2^(w-1) := by rw [← pow_succ',Nat.sub_add_cancel (by omega)]
  have hw : x.toInt*2^s = -2^(w-1) + (2^w : Nat) := by
    push_cast
    rw [h,← two_pow_split hs,hdb]
    ring
  rw [toInt_shiftLeft_bmod,hw,Int.add_bmod_right]
  exact Int.bmod_eq_of_le (by push_cast; omega) (by push_cast; omega)

end

section
variable {w : Nat} {x mask : BitVec w}

theorem toInt_eq_toNat_of_nonneg (h : 0 ≤ x.toInt) : x.toInt = x.toNat := by
  refine toInt_eq_toNat_of_lt ?_
  by_contra hl
  have := toInt_neg_iff.2 (not_lt.1 hl)
  omega

theorem toInt_and_range (h : 0 ≤ mask.toInt) : 0 ≤ (x &&& mask).toInt ∧ (x &&& mask).toInt ≤ mask.toInt := by
  have hl : (x &&& mask).toNat ≤ mask.toNat := by
    exact Nat.and_le_right
  have hlt : ¬ 2^w ≤ 2*mask.toNat := fun h' => by
    have := toInt_neg_iff.2 h'
    omega
  rw [toInt_eq_toNat_of_lt (by omega),toInt_eq_toNat_of_nonneg h]
  omega

end
end WebKit.Base
