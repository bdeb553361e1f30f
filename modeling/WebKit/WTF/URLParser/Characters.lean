import Mathlib.Data.Nat.Bitwise

/-! The characters that the host parsers look at. -/
namespace WebKit.WTF.URLParser
open Option

def isTabOrNewline (character : Nat) : Bool :=
  character ≤ 0xD && 0x9 ≤ character && character ≠ 0xB && character ≠ 0xC

def isASCIIDigit (character : Nat) : Bool := 0x30 ≤ character && character ≤ 0x39

def toASCIILowerUnchecked (character : Nat) : Nat := character ||| 0x20

def isASCIIHexDigit (character : Nat) : Bool :=
  isASCIIDigit character || (0x61 ≤ toASCIILowerUnchecked character && toASCIILowerUnchecked character ≤ 0x66)

def toASCIIHexValue (character : Nat) : Nat :=
  if character < 0x41 then character - 0x30 else (character-0x41+10) &&& 0xF

/-- `toASCIIHexValue` of two characters -/
def toASCIIHexByte (firstCharacter secondCharacter : UInt8) : UInt8 :=
  .ofNat (toASCIIHexValue firstCharacter.toNat <<< 4 ||| toASCIIHexValue secondCharacter.toNat)

def lowerNibbleToASCIIHexDigit (value : UInt8) : UInt8 :=
  let nibble := value &&& 0xF
  nibble + if nibble < 10 then 0x30 else 0x41-10

def upperNibbleToASCIIHexDigit (value : UInt8) : UInt8 :=
  let nibble := value >>> 4
  nibble + if nibble < 10 then 0x30 else 0x41-10

theorem toASCIIHexByte_digits (b : UInt8) : isASCIIHexDigit (upperNibbleToASCIIHexDigit b).toNat ∧
    isASCIIHexDigit (lowerNibbleToASCIIHexDigit b).toNat ∧
    toASCIIHexByte (upperNibbleToASCIIHexDigit b) (lowerNibbleToASCIIHexDigit b) = b := by
  have h : ∀ n : Fin 256, isASCIIHexDigit (upperNibbleToASCIIHexDigit (.ofFin n)).toNat ∧
      isASCIIHexDigit (lowerNibbleToASCIIHexDigit (.ofFin n)).toNat ∧
      toASCIIHexByte (upperNibbleToASCIIHexDigit (.ofFin n)) (lowerNibbleToASCIIHexDigit (.ofFin n)) = .ofFin n := by
    decide +kernel
  exact h b.toFin

theorem hexDigits_bounds (b : UInt8) : ∀ d ∈ [upperNibbleToASCIIHexDigit b, lowerNibbleToASCIIHexDigit b],
    0x30 ≤ d ∧ d ≤ 0x46 ∧ d ≠ 0x3D := by
  have h : ∀ n : Fin 256, [upperNibbleToASCIIHexDigit (.ofFin n), lowerNibbleToASCIIHexDigit (.ofFin n)].all
    fun d => 0x30 ≤ d ∧ d ≤ 0x46 ∧ d ≠ 0x3D := by decide +kernel
  exact fun d hd => of_decide_eq_true (List.all_eq_true.1 (h b.toFin) d hd)

def dot : Nat := 0x2E

/-- The digit that a character stands for in a base up to sixteen. -/
def digitOf (base character : Nat) : Option Nat :=
  (if 0x30 ≤ character ∧ character ≤ 0x39 then some (character-0x30)
    else if 0x41 ≤ character ∧ character ≤ 0x46 then some (character-0x37)
    else if 0x61 ≤ character ∧ character ≤ 0x66 then some (character-0x57)
    else none).filter (· < base)

variable {c : Nat}

theorem digitOf_ten : digitOf 10 c = if isASCIIDigit c then some (c-0x30) else none := by
  simp only [digitOf,isASCIIDigit,Bool.and_eq_true,decide_eq_true_iff]
  split_ifs <;> simp [Option.filter] <;> omega

theorem digitOf_sixteen : digitOf 16 c = if isASCIIHexDigit c then some (toASCIIHexValue c) else none := by
  have hs : ∀ c < 0x67, digitOf 16 c = if isASCIIHexDigit c then some (toASCIIHexValue c) else none := by decide
  by_cases hc : c < 0x67
  · exact hs c hc
  · have hl : c ≤ toASCIILowerUnchecked c := Nat.left_le_or
    have hh : ¬ isASCIIHexDigit c := by
      simp only [isASCIIHexDigit,isASCIIDigit,Bool.or_eq_true,Bool.and_eq_true,decide_eq_true_iff]
      omega
    rw [if_neg hh,digitOf,if_neg (by omega),if_neg (by omega),if_neg (by omega)]
    rfl

theorem digitOf_lt {base d : Nat} (h : digitOf base c = some d) : d < base := by
  simpa using (filter_eq_some_iff.1 h).2

/-- The characters after a number: none, or a dot and more. -/
def Ends (tail : List Nat) : Prop := ∀ c ∈ tail.head?, c = dot

theorem ends_nil : Ends [] := nofun

theorem ends_dot (r : List Nat) : Ends (dot::r) := fun _ he => (some.inj he).symm

/-- Digits in a base, after a value. -/
def digits (base value : Nat) (part : List Nat) : Option Nat :=
  part.foldlM (fun value c => (digitOf base c).map (value*base + ·)) value

section Digits
variable {base value : Nat} {part : List Nat}

@[simp] theorem digits_nil : digits base value [] = some value := rfl

@[simp] theorem digits_cons {c : Nat} :
    digits base value (c::part) = (digitOf base c).bind (fun d => digits base (value*base+d) part) := by
  rw [digits,List.foldlM_cons]
  cases digitOf base c <;> rfl

theorem le_digits (hb : 0 < base) {v : Nat} (h : digits base value part = some v) : value ≤ v := by
  induction part generalizing value with
  | nil => exact Nat.le_of_eq (some.inj h)
  | cons c r ih =>
    rw [digits_cons] at h
    obtain ⟨d,-,h⟩ := bind_eq_some_iff.1 h
    calc value ≤ value*base := Nat.le_mul_of_pos_right value hb
      _ ≤ value*base + d := Nat.le_add_right _ d
      _ ≤ v := ih h

end Digits
end WebKit.WTF.URLParser
