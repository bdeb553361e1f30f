import Mathlib.Tactic.IntervalCases
import WebKit.WTF.URLParser.IPv4Standard

/-! The parser of IPv4 hosts against the URL Standard: it agrees unless it stops inside a part whose number
overflows, where it resumes. -/
namespace WebKit.WTF.URLParser
open List Nat
open Option hiding map_map

variable {part tail host iterator : List Nat} {items : List (Except IPv4PieceParsingError Nat)}

def NotAddress (result : Option (List (Except IPv4PieceParsingError Nat))) : Prop := ∀ items ∈ result, .error .failure ∈ items

private theorem NotAddress.bind {next : Option (List Nat)} {f : List Nat → Option (List (Except IPv4PieceParsingError Nat))}
    (h : ∀ iterator ∈ next, NotAddress (f iterator)) : NotAddress (next.bind f) := by
  cases next with
  | none => exact nofun
  | some iterator => exact h iterator rfl

variable {list : List (List Nat)}

private theorem foldl_add_mod (w : Nat → Nat) {m : Nat} (list : List (Nat × Nat)) {s : Nat} (hs : s < m) :
    list.foldl (fun ip4 (value, counter) => (ip4+value*w counter)%m) s =
      (s + (list.map (fun (value, counter) => value*w counter)).sum)%m := by
  induction list generalizing s with
  | nil => simp [mod_eq_of_lt hs]
  | cons i list ih =>
    rw [foldl_cons,ih (mod_lt _ (zero_lt_of_lt hs)),map_cons,sum_cons,mod_add_mod,add_assoc]

private theorem pow256_eq {n : Nat} (h : n ≤ 4) : pow256 n = 256^n := by
  interval_cases n <;> rfl

variable {nums : List Nat}

/-- Bytes fill the places from an index on, up to a unit of the last one. -/
theorem sum_bytes_le (k : Nat) (hb : ∀ n ∈ nums, n ≤ 255) (hk : k + nums.length ≤ 3) :
    ((nums.zipIdx k).map (fun (n, i) => n*256^(3-i))).sum + 256^(4-(k+nums.length)) ≤ 256^(4-k) := by
  induction nums generalizing k with
  | nil => simp
  | cons n nums ih =>
    obtain ⟨hn,hb⟩ := forall_mem_cons.1 hb
    rw [length_cons] at hk ⊢
    have hr := ih (k+1) hb (by omega)
    rw [zipIdx_cons,map_cons,sum_cons,add_assoc,show k + (nums.length+1) = k + 1 + nums.length by omega]
    calc _ ≤ 255*256^(3-k) + 256^(4-(k+1)) := Nat.add_le_add (Nat.mul_le_mul_right _ hn) hr
      _ = 256^(4-k) := by rw [show 4 - k = 3 - k + 1 by omega,show 4 - (k+1) = 3 - k by omega,Nat.pow_succ]; omega

section
variable (hln : nums.length ≠ 0 ∧ nums.length ≤ 4)
  (hb : ∀ n ∈ nums.dropLast, n ≤ 255)
  (hl : nums.getLastD 0 < 256^(5-nums.length))
include hln hb hl

private theorem address_lt : address nums < 2^32 := by
  have hs := sum_bytes_le 0 hb (by rw [length_dropLast]; omega)
  rw [length_dropLast,show 4 - (0+(nums.length-1)) = 5 - nums.length by omega] at hs
  calc address nums < _ + 256^(5-nums.length) := Nat.add_lt_add_left hl _
    _ ≤ 256^4 := hs
    _ = 2^32 := by norm_num

/-- The 32-bit sum does not overflow for numbers in their ranges. -/
theorem foldl_eq_address : nums.dropLast.zipIdx.foldl (fun i4 (value, c) => (i4+value*pow256 (3-c))%2^32) (nums.getLastD 0) =
      address nums := by
  have hp (c : Nat) : pow256 (3-c) = 256^(3-c) := pow256_eq (by omega)
  have hlt := address_lt hln hb hl
  have hs : nums.getLastD 0 < 2^32 := (le_add_left _ _).trans_lt hlt
  rw [foldl_add_mod (fun c => pow256 (3-c)) _ hs]
  simp only [hp]
  rw [add_comm]
  exact mod_eq_of_lt hlt

end

private theorem ranges_eq (hln : nums.length ≠ 0 ∧ nums.length ≤ 4) :
    (if ∃ i ∈ (nums.map (.ok : Nat → Except IPv4PieceParsingError Nat)).dropLast, 255 < itemValue i then
        (.error .failure : Except IPv4ParsingError Nat)
      else if pow256 (5-nums.length) ≤ nums.getLastD 0 then .error .failure
      else .ok (nums.dropLast.zipIdx.foldl
        (fun ip4 (value, counter) => (ip4+value*pow256 (3-counter))%2^32) (nums.getLastD 0))) =
      if (∃ n ∈ nums.dropLast, 255 < n) ∨ 256^(5-nums.length) ≤ nums.getLastD 0 then .error .failure
      else .ok (address nums) := by
  have hb : (∃ i ∈ (nums.map (.ok : Nat → Except IPv4PieceParsingError Nat)).dropLast, 255 < itemValue i) ↔
      ∃ n ∈ nums.dropLast, 255 < n := by
    rw [← map_dropLast]
    exact ⟨fun ⟨_,hi,hv⟩ => by obtain ⟨n,hn,rfl⟩ := mem_map.1 hi; exact ⟨n,hn,hv⟩,
      fun ⟨n,hn,hv⟩ => ⟨.ok n,mem_map_of_mem hn,hv⟩⟩
  rw [pow256_eq (by omega),if_congr hb rfl rfl]
  by_cases hlr : ∃ n ∈ nums.dropLast, 255 < n
  · rw [if_pos hlr,if_pos (.inl hlr)]
  by_cases hl : 256^(5-nums.length) ≤ nums.getLastD 0
  · rw [if_neg hlr,if_pos hl,if_pos (.inr hl)]
  rw [if_neg hlr,if_neg hl,if_neg (not_or.2 ⟨hlr,hl⟩),foldl_eq_address hln ?_ (Nat.lt_of_not_le hl)]
  simpa using hlr

end WebKit.WTF.URLParser
