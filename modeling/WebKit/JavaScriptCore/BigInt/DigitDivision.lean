import WebKit.Base.QuotientEstimate
import WebKit.JavaScriptCore.BigInt.Digit

/-! Division of a two-digit dividend by a digit, with the processor's instruction or in
half-digit steps after normalizing the divisor. -/
namespace WebKit.JavaScriptCore.BigInt
open Nat
variable (p : Platform)

/-- The correction loop of a half-digit quotient; it ends at zero. -/
def halfQuotientLoop (vn1 vn0 un : Nat) : Nat → Nat → Nat
  | 0, _ => 0
  | q + 1, rhat =>
    if p.halfDigitBase ≤ q + 1 ∨ (rhat*p.halfDigitBase+un)%p.base < (q+1)*vn0%p.base then
      let rhat := (rhat+vn1)%p.base
      if p.halfDigitBase ≤ rhat then q else halfQuotientLoop vn1 vn0 un q rhat
    else q + 1

/-- Quotient and remainder of `high * base + low` by `divisor`. -/
def digitDiv (high low divisor : Nat) : Nat × Nat :=
  if p.hardwareDivide then
    ((high*p.base+low)/divisor, (high*p.base+low)%divisor)
  else
    let s := clz p divisor
    let divisor := (divisor <<< s)%p.base
    let vn1 := divisor/p.halfDigitBase
    let vn0 := divisor%p.halfDigitBase
    -- The mask is zero when s is zero, where the masked shift count would be wrong.
    let sZeroMask := if s = 0 then 0 else p.base - 1
    let un32 := ((high <<< s)%p.base) ||| ((low >>> ((p.digitBits-s)%p.digitBits)) &&& sZeroMask)
    let un10 := (low <<< s)%p.base
    let un1 := un10/p.halfDigitBase
    let un0 := un10%p.halfDigitBase
    let q1 := halfQuotientLoop p vn1 vn0 un1 (un32/vn1) ((un32+p.base-un32/vn1*vn1)%p.base)
    let un21 := (un32*p.halfDigitBase+un1+p.base*p.base-q1*divisor)%p.base
    let q0 := halfQuotientLoop p vn1 vn0 un0 (un21/vn1) ((un21+p.base-un21/vn1*vn1)%p.base)
    let remainder := ((un21*p.halfDigitBase+un0+p.base*p.base-q0*divisor)%p.base) >>> s
    ((q1*p.halfDigitBase+q0)%p.base, remainder)

section
variable {p}

theorem clz_spec {d : Nat} (h0 : 0 < d) (hd : d < p.base) :
    clz p d < p.digitBits ∧ d*2^clz p d < p.base ∧ p.base ≤ 2*(d*2^clz p d) := by
  have hs : d.size ≤ p.digitBits := size_le.2 hd
  have hp : 0 < d.size := size_pos.2 h0
  have hsp : p.base = 2^d.size*2^clz p d := by
    rw [← pow_add,clz,Nat.add_sub_cancel' hs]
    rfl
  have hl : 2^(d.size-1) ≤ d := by
    by_contra hn
    have := size_le.2 (Nat.lt_of_not_le hn)
    omega
  refine ⟨by unfold clz; omega,?_,?_⟩
  · rw [hsp]
    exact mul_lt_mul_of_pos_right (lt_size_self d) (Nat.two_pow_pos _)
  · have : 2^d.size = 2*2^(d.size-1) := by
      rw [← pow_succ']
      congr 1
      omega
    rw [hsp,this,mul_assoc]
    exact mul_le_mul_left 2 (mul_le_mul_right _ hl)

/-- No product or sum wraps while it is compared. -/
theorem halfQuotientLoop_eq {vn1 vn0 un : Nat} (h1 : vn1 < p.halfDigitBase)
    (h0 : vn0 < p.halfDigitBase) (hn : un < p.halfDigitBase) (q rhat : Nat)
    (hr : rhat < p.halfDigitBase) :
    halfQuotientLoop p vn1 vn0 un q rhat = Base.correctEstimate p.halfDigitBase vn1 vn0 un q rhat := by
  have hB := p.base_eq
  have hβ := p.halfDigitBase_ge
  induction q generalizing rhat with
  | zero => rfl
  | succ q ih =>
    have hrg : (rhat*p.halfDigitBase+un)%p.base = rhat*p.halfDigitBase + un := by
      apply mod_eq_of_lt
      have := mul_le_mul_right p.halfDigitBase (show rhat + 1 ≤ p.halfDigitBase from hr)
      rw [add_mul] at this
      omega
    have hs : (rhat+vn1)%p.base = rhat + vn1 := by
      apply mod_eq_of_lt
      have := mul_le_mul_right p.halfDigitBase (show 2 ≤ p.halfDigitBase by omega)
      omega
    have hc : (p.halfDigitBase ≤ q + 1 ∨ (rhat*p.halfDigitBase+un)%p.base < (q+1)*vn0%p.base) ↔
        (p.halfDigitBase ≤ q + 1 ∨ rhat*p.halfDigitBase + un < (q+1)*vn0) := by
      rw [hrg]
      refine or_congr_right' fun hq => ?_
      have : (q+1)*vn0 < p.base := by
        rw [hB]
        exact mul_lt_mul'' (Nat.lt_of_not_le hq) h0
      rw [mod_eq_of_lt this]
    rw [halfQuotientLoop,Base.correctEstimate]
    simp only [hc,hs]
    split
    · split
      · rfl
      · exact ih (rhat+vn1) (by omega)
    · rfl

/-- A half-digit step divides exactly, and its wrapped remainder is the true one. -/
theorem half_step {D u un : Nat} (hD : D < p.base) (hnr : p.base ≤ 2*D) (hu : u < D) (hn : un < p.halfDigitBase) :
    let vn1 := D/p.halfDigitBase
    let vn0 := D%p.halfDigitBase
    let q := halfQuotientLoop p vn1 vn0 un (u/vn1) ((u+p.base-u/vn1*vn1)%p.base)
    q = (u*p.halfDigitBase+un)/D ∧ (u*p.halfDigitBase+un+p.base*p.base-q*D)%p.base =
        (u*p.halfDigitBase+un)%D := by
  intro vn1 vn0 q
  have hβ := p.halfDigitBase_pos
  have hB := p.base_eq
  have hD' : vn1*p.halfDigitBase + vn0 = D := div_add_mod' D _
  have h1 : vn1 < p.halfDigitBase := by
    rw [div_lt_iff_lt_mul hβ,← hB]
    exact hD
  have h0 : vn0 < p.halfDigitBase := mod_lt _ hβ
  have hv1 : p.halfDigitBase ≤ 2*vn1 := by
    by_contra hc
    have he : 2 ∣ p.halfDigitBase := by
      exact dvd_pow_self 2 (by rcases p.width with h | h <;> omega)
    have h2 := mul_le_mul_right p.halfDigitBase (show 2*vn1 + 2 ≤ p.halfDigitBase by omega)
    rw [add_mul,mul_assoc,← hB] at h2
    omega
  have hr : (u+p.base-u/vn1*vn1)%p.base = u%vn1 := by
    have e := div_add_mod u vn1
    rw [mul_comm] at e
    rw [show u + p.base - u/vn1*vn1 = u%vn1 + p.base by omega,add_mod_right]
    apply mod_eq_of_lt
    omega
  have hv : 0 < vn1 := by omega
  have hq : q = (u*p.halfDigitBase+un)/D := by
    have hm := mod_lt u hv
    change halfQuotientLoop p vn1 vn0 un (u/vn1) _ = _
    rw [hr,halfQuotientLoop_eq h1 h0 hn _ _ (by omega),Base.correctEstimate_eq hv1 h0 hn (by rw [hD']; exact hu),hD']
  refine ⟨hq,?_⟩
  have e := div_add_mod (u*p.halfDigitBase+un) D
  have hl := mod_lt (u*p.halfDigitBase+un) (show 0 < D by omega)
  rw [hq,mul_comm _ D,show u*p.halfDigitBase + un + p.base*p.base -
    D*((u*p.halfDigitBase+un)/D) = (u*p.halfDigitBase+un)%D + p.base*p.base by omega,
    add_mul_mod_self_left]
  exact mod_eq_of_lt (by omega)

private theorem shifted_dividend {h l s : Nat} (hs : s < p.digitBits) (hl : l < p.base)
    (hh : h*2^s + 2^s ≤ p.base) :
    let sZeroMask := if s = 0 then 0 else p.base - 1
    let un32 := ((h <<< s)%p.base) ||| ((l >>> ((p.digitBits-s)%p.digitBits)) &&& sZeroMask)
    un32*p.base + (l <<< s)%p.base = (h*p.base+l)*2^s ∧ un32 < h*2^s + 2^s := by
  intro sZeroMask un32
  have hp := Nat.two_pow_pos s
  have hm : (h <<< s)%p.base = h <<< s := by
    exact mod_eq_of_lt (by omega)
  have hlo : (l >>> ((p.digitBits-s)%p.digitBits)) &&& sZeroMask = l/2^(p.digitBits-s) := by
    simp only [sZeroMask]
    split
    next h0 => simp [h0,div_eq_of_lt (show l < 2^p.digitBits from hl)]
    next h0 =>
      rw [mod_eq_of_lt (by omega),Platform.base,and_two_pow_sub_one_eq_mod,shiftRight_eq_div_pow]
      apply mod_eq_of_lt
      exact (div_le_self _ _).trans_lt hl
  have hb : p.base = 2^(p.digitBits-s)*2^s := by
    rw [← pow_add,Nat.sub_add_cancel hs.le]
    rfl
  have hlt : l/2^(p.digitBits-s) < 2^s := by
    rw [div_lt_iff_lt_mul (Nat.two_pow_pos _),mul_comm,← hb]
    exact hl
  have he : un32 = h*2^s + l/2^(p.digitBits-s) := by
    simp only [un32]
    rw [hlo,hm,← shiftLeft_add_eq_or_of_lt hlt,shiftLeft_eq]
  refine ⟨?_,by omega⟩
  have hdm := div_add_mod l (2^(p.digitBits-s))
  have hw : (l <<< s)%p.base = l%2^(p.digitBits-s)*2^s := by
    rw [shiftLeft_eq,hb,mul_mod_mul_right]
  rw [he,hw]
  conv_rhs => rw [← hdm]
  rw [hb]
  ring

theorem digitDiv_eq {hg l den : Nat} (hd : den < p.base) (hh : hg < den) (hl : l < p.base) :
    digitDiv p hg l den = ((hg*p.base+l)/den, (hg*p.base+l)%den) := by
  unfold digitDiv
  split
  · rfl
  · have hp : 0 < den := by omega
    obtain ⟨hs,hlt,hn⟩ := clz_spec hp hd
    have hβ := p.halfDigitBase_pos
    generalize clz p den = s at *
    have h2 := Nat.two_pow_pos s
    have hD : (den <<< s)%p.base = den*2^s := by
      rw [shiftLeft_eq]
      exact mod_eq_of_lt hlt
    have hsh : hg*2^s + 2^s ≤ den*2^s := by
      rw [← succ_mul]
      exact mul_le_mul_right _ hh
    obtain ⟨hN,hu⟩ := shifted_dividend hs hl (hsh.trans hlt.le)
    have hu10 : (l <<< s)%p.base < p.base := mod_lt _ p.base_pos
    dsimp only at hN hu ⊢
    generalize ((hg <<< s)%p.base) ||| ((l >>> ((p.digitBits-s)%p.digitBits)) &&&
      if s = 0 then 0 else p.base - 1) = un32 at *
    generalize (l <<< s)%p.base = un10 at *
    rw [hD]
    have hu1 : un10/p.halfDigitBase < p.halfDigitBase := by
      rw [div_lt_iff_lt_mul hβ,← p.base_eq]
      exact hu10
    obtain ⟨hq1,hr1⟩ := half_step hlt hn (show un32 < den*2^s by omega) hu1
    rw [hr1]
    have hu21 := mod_lt (un32*p.halfDigitBase+un10/p.halfDigitBase) (show 0 < den*2^s by omega)
    have hsp := div_add_mod (un32*p.halfDigitBase+un10/p.halfDigitBase) (den*2^s)
    rw [hq1]
    generalize (un32*p.halfDigitBase+un10/p.halfDigitBase)%(den*2^s) = un21 at *
    generalize (un32*p.halfDigitBase+un10/p.halfDigitBase)/(den*2^s) = q1 at *
    obtain ⟨hq0,hr0⟩ := half_step hlt hn hu21 (mod_lt un10 hβ)
    rw [hr0,hq0]
    -- Both halves together divide the shifted dividend, so the shift cancels.
    have hdv : (hg*p.base+l)*2^s =
        den*2^s*(q1*p.halfDigitBase) + (un21*p.halfDigitBase+un10%p.halfDigitBase) := by
      have h10 := div_add_mod un10 p.halfDigitBase
      rw [← hN,p.base_eq]
      calc un32*(p.halfDigitBase*p.halfDigitBase) + un10
          = (un32*p.halfDigitBase+un10/p.halfDigitBase)*p.halfDigitBase + un10%p.halfDigitBase := by
            conv_lhs => rw [← h10]
            ring
        _ = _ := by rw [← hsp]; ring
    have hq : (hg*p.base+l)/den =
        q1*p.halfDigitBase + (un21*p.halfDigitBase+un10%p.halfDigitBase)/(den*2^s) := by
      rw [← Nat.mul_div_mul_right _ den h2,hdv,mul_add_div (by omega)]
    have hr : (hg*p.base+l)%den*2^s =
        (un21*p.halfDigitBase+un10%p.halfDigitBase)%(den*2^s) := by
      rw [← mul_mod_mul_right,hdv,mul_add_mod]
    have hf : (hg*p.base+l)/den < p.base := by
      rw [div_lt_iff_lt_mul hp]
      have := mul_le_mul_right p.base (show hg + 1 ≤ den from hh)
      rw [add_mul,mul_comm den] at this
      omega
    rw [← hq,← hr,mod_eq_of_lt hf,shiftRight_eq_div_pow,Nat.mul_div_cancel _ h2]

end
end WebKit.JavaScriptCore.BigInt
