import WebKit.JavaScriptCore.BigInt.Storage

/-! Radix tables of BigInt text conversion: digit characters, bits per character, and the
numerals they spell. Text is a list of code units. -/
namespace WebKit.JavaScriptCore.BigInt
open List Nat

def zeroChar : Nat := '0'.toNat
def plusChar : Nat := '+'.toNat
def minusChar : Nat := '-'.toNat

def radixDigits : List Nat :=
  ['0', '1', '2', '3', '4', '5', '6', '7', '8', '9', 'a', 'b', 'c', 'd', 'e', 'f', 'g', 'h', 'i', 'j', 'k', 'l',
    'm', 'n', 'o', 'p', 'q', 'r', 's', 't', 'u', 'v', 'w', 'x', 'y', 'z'].map Char.toNat

def radixDigit (d : Nat) : Nat := radixDigits.getD d 0

/-- Bits per character times 32, rounded up. -/
def maxBitsPerCharTable : List Nat :=
  [0, 0, 32, 51, 64, 75, 83, 90, 96, 102, 107, 111, 115, 119, 122, 126, 128, 131, 134, 136, 139, 141, 143, 145, 147,
    149, 151, 153, 154, 156, 158, 159, 160,
    162, 163, 165, 166]

def maxBitsPerChar (radix : Nat) : Nat := maxBitsPerCharTable.getD radix 0
def bitsPerCharTableShift : Nat := 5
def bitsPerCharTableMultiplier : Nat := 2^bitsPerCharTableShift

/-- The digit a character stands for; the limits are unsigned, so those of the letters wrap below radix 10. -/
def parseDigit (radix c : Nat) : Option Nat :=
  let limit0 := '0'.toNat + if radix < 10 then radix else 10
  let limita := ('a'.toNat+(radix+2^32-10))%2^32
  let limitA := ('A'.toNat+(radix+2^32-10))%2^32
  if '0'.toNat ≤ c ∧ c < limit0 then some (c - '0'.toNat)
  else if 'a'.toNat ≤ c ∧ c < limita then some (c - 'a'.toNat + 10)
  else if 'A'.toNat ≤ c ∧ c < limitA then some (c - 'A'.toNat + 10)
  else none

/-- The digit value of an ASCII alphanumeric, letters of either case. -/
def digitValue (c : Nat) : Option Nat :=
  if '0'.toNat ≤ c ∧ c ≤ '9'.toNat then some (c - '0'.toNat)
  else if 'a'.toNat ≤ c ∧ c ≤ 'z'.toNat then some (c - 'a'.toNat + 10)
  else if 'A'.toNat ≤ c ∧ c ≤ 'Z'.toNat then some (c - 'A'.toNat + 10)
  else none

def IsDigit (radix c : Nat) : Prop := ∃ d ∈ digitValue c, d < radix

instance (radix c : Nat) : Decidable (IsDigit radix c) :=
  decidable_of_iff ((digitValue c).any (· < radix) = true) (by simp [IsDigit,Option.any_eq_true])

/-- The number that digit characters denote, most significant first. -/
def numeralValue (radix : Nat) (text : List Nat) : Nat :=
  (text.map fun c => (digitValue c).getD 0).foldl (fun v d => v*radix + d) 0

/-- The canonical digits: lower case, no leading zero. -/
def magnitudeNumeral (radix n : Nat) : List Nat :=
  if n = 0 then [zeroChar] else (digits radix n).reverse.map radixDigit

/-- The canonical numeral of an integer. -/
def numeral (radix : Nat) (v : Int) : List Nat :=
  (if v < 0 then [minusChar] else []) ++ magnitudeNumeral radix v.natAbs

variable {radix : Nat} {c : Nat} {d : Nat}

section
variable (h2 : 2 ≤ radix) (h36 : radix ≤ 36)
include h2 h36

theorem parseDigit_eq_some_iff : parseDigit radix c = some d ↔ digitValue c = some d ∧ d < radix := by
  have hw (base : Nat) (hb : 10 ≤ base) (hb' : base ≤ 100) :
      (base+(radix+2^32-10))%2^32 = base + radix - 10 := by omega
  rw [parseDigit,digitValue]
  simp only [show '0'.toNat = 48 from rfl,show '9'.toNat = 57 from rfl,show 'a'.toNat = 97 from rfl,
    show 'z'.toNat = 122 from rfl,show 'A'.toNat = 65 from rfl,show 'Z'.toNat = 90 from rfl]
  constructor
  · intro h
    split_ifs at h ⊢ <;> cases h <;> first | omega | exact ⟨rfl,by omega⟩
  · rintro ⟨h,hd⟩
    split_ifs at h ⊢ <;> cases h <;> first | omega | rfl

theorem parseDigit_of_isDigit (h : IsDigit radix c) : parseDigit radix c = some ((digitValue c).getD 0) := by
  obtain ⟨d,hd,hl⟩ := h
  rw [parseDigit_eq_some_iff h2 h36,hd]
  exact ⟨rfl,hl⟩

theorem parseDigit_of_not_isDigit (h : ¬ IsDigit radix c) : parseDigit radix c = none := by
  rw [Option.eq_none_iff_forall_ne_some]
  intro d hd
  rw [parseDigit_eq_some_iff h2 h36] at hd
  exact h ⟨d,hd⟩

end

theorem digitValue_radixDigit (h : d < 36) : digitValue (radixDigit d) = some d := by
  revert d
  decide

theorem IsDigit.value_lt (h : IsDigit radix c) : (digitValue c).getD 0 < radix := by
  obtain ⟨d,hd,hl⟩ := h
  rw [hd]
  exact hl

private theorem isDigit_radixDigit (h36 : radix ≤ 36) (h : d < radix) : IsDigit radix (radixDigit d) :=
  ⟨d,digitValue_radixDigit (by omega),h⟩

theorem radixDigit_eq_zeroChar_iff (h : d < 36) : radixDigit d = zeroChar ↔ d = 0 := by
  revert d
  decide

theorem numeralValue_eq (radix : Nat) (text : List Nat) :
    numeralValue radix text = ofDigits radix (text.map fun c => (digitValue c).getD 0).reverse := by
  rw [numeralValue,Base.foldl_eq_ofDigits,mul_zero,add_zero]

theorem numeralValue_dropWhile (radix : Nat) (text : List Nat) :
    numeralValue radix (text.dropWhile (· == zeroChar)) = numeralValue radix text := by
  induction text with
  | nil => rfl
  | cons c text ih =>
    rw [dropWhile_cons]
    split
    next hc =>
      obtain rfl := eq_of_beq hc
      rw [ih,numeralValue,numeralValue,map_cons,foldl_cons,zero_mul]
      rfl
    · rfl

private theorem numeralValue_map_radixDigit {ds : List Nat} (h : ∀ d ∈ ds, d < 36) :
    numeralValue radix (ds.map radixDigit) = ofDigits radix ds.reverse := by
  rw [numeralValue_eq,map_map]
  congr 2
  conv_rhs => rw [← map_id ds]
  refine map_congr_left fun d hd => ?_
  rw [Function.comp_apply,digitValue_radixDigit (h d hd)]
  rfl

section
variable (h2 : 2 ≤ radix) (h36 : radix ≤ 36)
include h2 h36

theorem digits_lt_of_radix (n : Nat) : ∀ d ∈ (digits radix n).reverse, d < 36 := by
  intro d hd
  have := digits_lt_base (b := radix) (by omega) (mem_reverse.1 hd)
  omega

theorem magnitudeNumeral_isDigit (n : Nat) : ∀ c ∈ magnitudeNumeral radix n, IsDigit radix c := by
  unfold magnitudeNumeral
  split
  · simp only [mem_singleton,forall_eq]
    exact ⟨0,rfl,by omega⟩
  · simp only [forall_mem_map,mem_reverse]
    exact fun d hd => isDigit_radixDigit h36 (digits_lt_base (by omega) hd)

theorem numeralValue_magnitudeNumeral (n : Nat) : numeralValue radix (magnitudeNumeral radix n) = n := by
  unfold magnitudeNumeral
  split
  next h => simp [h,numeralValue,zeroChar,digitValue]
  · rw [numeralValue_map_radixDigit (digits_lt_of_radix h2 h36 n),reverse_reverse,ofDigits_digits]

/-- A character of the radix carries at most the tabulated number of bits. -/
theorem radix_pow_le : radix^bitsPerCharTableMultiplier ≤ 2^maxBitsPerChar radix := by
  have h : ∀ r ≤ 36, 2 ≤ r → r^32 ≤ 2^maxBitsPerChar r := by decide
  exact h radix h36 h2

theorem maxBitsPerChar_pos : 0 < maxBitsPerChar radix := by
  have h : ∀ r ≤ 36, 2 ≤ r → 0 < maxBitsPerChar r := by decide
  exact h radix h36 h2

theorem radix_pow_le_two_pow {n bits : Nat}
    (h : maxBitsPerChar radix*n ≤ bitsPerCharTableMultiplier*bits) : radix^n ≤ 2^bits := by
  have hp : (radix^n)^bitsPerCharTableMultiplier ≤ (2^bits)^bitsPerCharTableMultiplier := by
    rw [← pow_mul,← pow_mul,mul_comm n,mul_comm bits,pow_mul]
    calc (radix^bitsPerCharTableMultiplier)^n ≤ (2^maxBitsPerChar radix)^n :=
          Nat.pow_le_pow_left (radix_pow_le h2 h36) n
      _ = 2^(maxBitsPerChar radix*n) := (pow_mul _ _ _).symm
      _ ≤ 2^(bitsPerCharTableMultiplier*bits) := Nat.pow_le_pow_right (by omega) h
  exact (Nat.pow_le_pow_iff_left (by decide)).1 hp

end

end WebKit.JavaScriptCore.BigInt
