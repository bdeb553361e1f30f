import Mathlib.Data.List.DropRight
import Mathlib.Data.List.GetD
import Mathlib.Data.Nat.Digits.Lemmas

/-! Digit lists in an arbitrary base: chains of digit steps, and how values split at a position. -/
namespace WebKit.Base
open List

variable {b : Nat} {tail : Nat} {digits : List Nat} {rest : List Nat}

/-- A digit step that passes a carry up, before the chain of the higher digits. -/
theorem carry_chain {s c t n o : Nat} (hs : s + b*c = t) (hr : Nat.ofDigits b rest + b^n*o = tail + c) :
    Nat.ofDigits b (s::rest) + b^(n+1)*o = t + b*tail := by
  have h := congrArg (b * ·) hr
  simp only [Nat.mul_add,← Nat.mul_assoc,← pow_succ'] at h
  rw [Nat.ofDigits_cons,← hs]
  omega

theorem carry_chain_exact {s c t : Nat} (hs : s + b*c = t)
    (hr : Nat.ofDigits b rest = tail + c) : Nat.ofDigits b (s::rest) = t + b*tail := by
  rw [Nat.ofDigits_cons,hr,← hs,Nat.mul_add]
  omega

/-- The same for a borrow. -/
theorem borrow_chain {s c t x n out l : Nat} (hs : s + t = x + b*c)
    (hr : Nat.ofDigits b rest + l + c = tail + b^n*out) :
    Nat.ofDigits b (s::rest) + (t+b*l) = x + b*tail + b^(n+1)*out := by
  have h := congrArg (b * ·) hr
  simp only [Nat.mul_add,← Nat.mul_assoc,← pow_succ'] at h
  rw [Nat.ofDigits_cons]
  omega

/-- A number splits at any position inside its digits. -/
theorem ofDigits_take_drop (digits : List Nat) {k : Nat} (hk : k ≤ digits.length) :
    Nat.ofDigits b (digits.take k) + b^k*Nat.ofDigits b (digits.drop k) = Nat.ofDigits b digits := by
  conv_rhs => rw [← take_append_drop k digits]
  rw [Nat.ofDigits_append,length_take,Nat.min_eq_left hk]

/-- If the total fits, so does what is left for the higher digits. -/
theorem carry_lt {s c t n : Nat} (hs : s + b*c = t) (h : t + b*tail < b^(n+1)) : tail + c < b^n := by
  have : b*(tail+c) < b*b^n := by
    rw [Nat.mul_add,← pow_succ']
    omega
  exact Nat.lt_of_mul_lt_mul_left this

/-- The bits of a number are the bits of its digits. -/
theorem testBit_ofDigits {w : Nat} (hw : 0 < w) (h : ∀ d ∈ digits, d < 2^w) (k : Nat) :
    (Nat.ofDigits (2^w) digits).testBit k = (digits.getD (k/w) 0).testBit (k%w) := by
  induction digits generalizing k with
  | nil => simp
  | cons d digits ih =>
    obtain ⟨hd,hr⟩ := forall_mem_cons.1 h
    rw [Nat.ofDigits_cons,Nat.add_comm,Nat.testBit_two_pow_mul_add _ hd]
    split_ifs with hk
    · rw [Nat.div_eq_of_lt hk,Nat.mod_eq_of_lt hk,getD_cons_zero]
    · obtain ⟨m,rfl⟩ := Nat.exists_eq_add_of_le' (Nat.le_of_not_lt hk)
      rw [Nat.add_sub_cancel,ih hr,Nat.add_div_right _ hw,Nat.add_mod_right,getD_cons_succ]

theorem ofDigits_rdropWhile_zero (digits : List Nat) :
    Nat.ofDigits b (digits.rdropWhile (· == 0)) = Nat.ofDigits b digits := by
  induction digits using reverseRecOn with
  | nil => rfl
  | append_singleton ds d ih =>
    rcases Nat.eq_zero_or_pos d with h | h
    · rw [rdropWhile_concat_pos _ _ _ (by simp [h]),ih]
      simp [h,Nat.ofDigits_append]
    · rw [rdropWhile_concat_neg _ _ _ (by simp; omega)]

/-- Digits without their leading zeros are the canonical ones. -/
theorem digits_ofDigits_eq_rdropWhile (hb : 1 < b) (h : ∀ d ∈ digits, d < b) :
    Nat.digits b (Nat.ofDigits b digits) = digits.rdropWhile (· == 0) := by
  have hp : digits.rdropWhile (· == 0) <+: digits := rdropWhile_prefix _ _
  rw [← ofDigits_rdropWhile_zero]
  apply Nat.digits_ofDigits b hb
  · exact fun d hd => h d (hp.subset hd)
  · intro hn he
    have := rdropWhile_last_not (fun d : Nat => d == 0) digits hn
    simp [he] at this

theorem foldl_eq_ofDigits (digits : List Nat) (v : Nat) :
    digits.foldl (fun v d => v*b + d) v = Nat.ofDigits b digits.reverse + b^digits.length*v := by
  induction digits generalizing v with
  | nil => simp
  | cons d digits ih =>
    rw [foldl_cons,ih,reverse_cons,Nat.ofDigits_append,Nat.ofDigits_singleton,
      length_reverse,length_cons]
    ring

/-- Shifting down and masking reads one digit. -/
theorem ofDigits_div_pow_mod (hb : 0 < b) (h : ∀ d ∈ digits, d < b) (k : Nat) :
    Nat.ofDigits b digits/b^k%b = digits.getD k 0 := by
  induction digits generalizing k with
  | nil => simp
  | cons d digits ih =>
    obtain ⟨hd,hr⟩ := forall_mem_cons.1 h
    rw [Nat.ofDigits_cons]
    cases k with
    | zero => rw [pow_zero,Nat.div_one,Nat.add_mul_mod_self_left,Nat.mod_eq_of_lt hd,getD_cons_zero]
    | succ k =>
      rw [pow_succ',← Nat.div_div_eq_div_mul,Nat.add_mul_div_left _ _ hb,Nat.div_eq_of_lt hd,Nat.zero_add,
        ih hr,getD_cons_succ]

end WebKit.Base
