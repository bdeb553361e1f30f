import WebKit.Base.Numerals
import WebKit.JavaScriptCore.BigInt.Digit

/-! Shifting a digit list by less than a digit, towards either end. -/
namespace WebKit.JavaScriptCore.BigInt
open List Nat

section
variable (p : Platform) (shift : Nat)

/-- The shifted digits and the bits shifted out at the top. -/
def leftShiftLoop : List Nat → Nat → List Nat × Nat
  | [], carry => ([], carry)
  | d::ds, carry =>
    let rest := leftShiftLoop ds (d >>> (p.digitBits-shift))
    (((d <<< shift)%p.base ||| carry) :: rest.1, rest.2)

/-- The shifted digits, given the rest of the digit below and the digits above. -/
def rightShiftLoop : Nat → List Nat → List Nat
  | carry, [] => [carry]
  | carry, d::ds => ((d <<< (p.digitBits-shift))%p.base ||| carry) :: rightShiftLoop (d >>> shift) ds

end

variable {p : Platform} {shift : Nat}

theorem shifted_or {d s carry : Nat} (hs : s ≤ p.digitBits) (hc : carry < 2^s) :
    (d <<< s)%p.base ||| carry = d%2^(p.digitBits-s)*2^s + carry := by
  rw [shiftLeft_eq,p.base_split hs,mul_comm (2^s),mul_mod_mul_right,← shiftLeft_eq,
    ← shiftLeft_add_eq_or_of_lt hc]

theorem shifted_or_lt {d s c : Nat} (hs : s ≤ p.digitBits) (hc : c < 2^s) :
    (d <<< s)%p.base ||| c < p.base :=
  Nat.or_lt_two_pow (Nat.mod_lt _ p.base_pos) (hc.trans_le (Nat.pow_le_pow_right (by omega) hs))

theorem digit_shiftRight_lt {d s : Nat} (hs : s ≤ p.digitBits) (hd : d < p.base) : d >>> s < 2^(p.digitBits-s) := by
  rw [Nat.shiftRight_eq_div_pow,Nat.div_lt_iff_lt_mul (Nat.two_pow_pos _),Nat.mul_comm,← p.base_split hs]
  exact hd

section
variable (hs : shift ≤ p.digitBits)
include hs

/-- Shifting left multiplies; what does not fit is the carry. -/
theorem leftShiftLoop_spec (ds : List Nat) (carry : Nat)
    (hd : ∀ d ∈ ds, d < p.base) (hc : carry < 2^shift) :
    ofDigits p.base (leftShiftLoop p shift ds carry).1 + p.base^ds.length*(leftShiftLoop p shift ds carry).2 =
        ofDigits p.base ds*2^shift + carry ∧
      (leftShiftLoop p shift ds carry).1.length = ds.length ∧
      (∀ d ∈ (leftShiftLoop p shift ds carry).1, d < p.base) ∧ (leftShiftLoop p shift ds carry).2 < 2^shift := by
  induction ds generalizing carry with
  | nil => simp [leftShiftLoop,hc]
  | cons d ds ih =>
    obtain ⟨hdd,hr⟩ := forall_mem_cons.1 hd
    have ho : d >>> (p.digitBits-shift) < 2^shift := by
      have := digit_shiftRight_lt (sub_le p.digitBits shift) hdd
      rwa [Nat.sub_sub_self hs] at this
    rw [leftShiftLoop]
    obtain ⟨hv,hl,hlt,hcr⟩ := ih _ hr ho
    refine ⟨?_,by simp [hl],forall_mem_cons.2 ⟨shifted_or_lt hs hc,hlt⟩,hcr⟩
    have hst : ((d <<< shift)%p.base ||| carry) + p.base*(d >>> (p.digitBits-shift)) = d*2^shift + carry := by
      rw [shifted_or hs hc,shiftRight_eq_div_pow,p.base_split hs]
      nth_rewrite 3 [← mod_add_div d (2^(p.digitBits-shift))]
      ring
    rw [length_cons,Base.carry_chain hst hv,ofDigits_cons]
    ring

theorem rightShiftLoop_spec (c : Nat) (ds : List Nat)
    (hd : ∀ d ∈ ds, d < p.base) (hc : c < 2^(p.digitBits-shift)) :
    ofDigits p.base (rightShiftLoop p shift c ds) = c + 2^(p.digitBits-shift)*ofDigits p.base ds ∧
      (rightShiftLoop p shift c ds).length = ds.length + 1 ∧
      ∀ d ∈ rightShiftLoop p shift c ds, d < p.base := by
  induction ds generalizing c with
  | nil =>
    have : c < p.base := hc.trans_le (Nat.pow_le_pow_right (by omega) (Nat.sub_le _ _))
    simpa [rightShiftLoop] using this
  | cons d ds ih =>
    obtain ⟨hdd,hr⟩ := forall_mem_cons.1 hd
    obtain ⟨hv,hl,hlt⟩ := ih _ hr (digit_shiftRight_lt hs hdd)
    rw [rightShiftLoop]
    refine ⟨?_,by simp [hl],forall_mem_cons.2 ⟨shifted_or_lt (sub_le _ _) hc,hlt⟩⟩
    rw [Nat.ofDigits_cons,hv,shifted_or (Nat.sub_le _ _) hc,Nat.sub_sub_self hs,Nat.shiftRight_eq_div_pow,
      ofDigits_cons]
    rw [p.base_split hs]
    nth_rewrite 3 [← mod_add_div d (2^shift)]
    ring

theorem rightShiftLoop_value {d : Nat} {ds : List Nat} (hd : ∀ e ∈ d::ds, e < p.base) :
    Nat.ofDigits p.base (rightShiftLoop p shift (d >>> shift) ds) = Nat.ofDigits p.base (d::ds)/2^shift := by
  obtain ⟨hdd,hr⟩ := forall_mem_cons.1 hd
  rw [(rightShiftLoop_spec hs _ ds hr (digit_shiftRight_lt hs hdd)).1,ofDigits_cons]
  rw [p.base_split hs,Nat.mul_assoc,Nat.add_mul_div_left _ _ (Nat.two_pow_pos _),Nat.shiftRight_eq_div_pow]

end

end WebKit.JavaScriptCore.BigInt
