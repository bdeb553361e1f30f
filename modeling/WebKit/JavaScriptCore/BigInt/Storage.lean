import WebKit.Base.Numerals
import WebKit.JavaScriptCore.BigInt.Digit

/-! The BigInt cell: its digit storage, trimming, comparison and the integer it denotes. -/
namespace WebKit.JavaScriptCore.BigInt
open List Nat

/-- A BigInt cell: sign and digits, least significant first. -/
structure JSBigInt where
  sign : Bool
  digits : List Nat
  deriving DecidableEq, Repr

inductive Exception where
  | outOfMemory
  | rangeError (message : String)
  | syntaxError (message : String)
  deriving DecidableEq, Repr

inductive ComparisonResult where
  | equal | undefined | greaterThan | lessThan
  deriving DecidableEq, Repr

/-- What fresh digit storage holds, for each length. -/
structure Storage (p : Platform) where
  content : Nat → List Nat
  content_length : ∀ n, (content n).length = n
  content_lt : ∀ n, ∀ d ∈ content n, d < p.base

/-- Fresh storage that holds a one in every digit. -/
def onesStorage (p : Platform) : Storage p where
  content n := replicate n 1
  content_length n := length_replicate
  content_lt n d hd := by
    have := p.base_ge
    rw [eq_of_mem_replicate hd]
    omega

namespace JSBigInt

def length (x : JSBigInt) : Nat := x.digits.length
def isZero (x : JSBigInt) : Bool := x.length == 0
def digit (x : JSBigInt) (n : Nat) : Nat := x.digits.getD n 0
def setSign (x : JSBigInt) (sign : Bool) : JSBigInt := { x with sign := sign }

/-- Calls of setDigit from index 0 on; the remaining digits are left alone. -/
def setDigits (x : JSBigInt) (written : List Nat) : JSBigInt :=
  { x with digits := written ++ x.digits.drop written.length }

def createZero : JSBigInt := ⟨false,[]⟩

section
variable {p : Platform} (heap : Storage p)

def createWithLengthUnchecked (length : Nat) : JSBigInt := ⟨false,heap.content length⟩

def tryCreateWithLength (length : Nat) : Except Exception JSBigInt :=
  if p.maxLength < length then .error .outOfMemory else .ok (createWithLengthUnchecked heap length)

def copy (x : JSBigInt) : JSBigInt :=
  ((createWithLengthUnchecked heap x.length).setDigits x.digits).setSign x.sign

def unaryMinus (x : JSBigInt) : JSBigInt :=
  if x.isZero then x else (copy heap x).setSign (!x.sign)

/-- Drop leading zero digits; zero is unsigned. -/
def rightTrim (x : JSBigInt) : JSBigInt :=
  if x.isZero then x else
    let trimmed := x.digits.rdropWhile (· == 0)
    if trimmed = [] then createZero
    else if trimmed.length = x.length then x
    else ((createWithLengthUnchecked heap trimmed.length).setDigits trimmed).setSign x.sign

end

/-- Compare equally many digits from the most significant one down. -/
def compareFromTop : List Nat → List Nat → ComparisonResult
  | x::xs, y::ys =>
    if x = y then compareFromTop xs ys else if y < x then .greaterThan else .lessThan
  | _, _ => .equal

def absoluteCompare (x y : JSBigInt) : ComparisonResult :=
  if x.length < y.length then .lessThan
  else if y.length < x.length then .greaterThan
  else compareFromTop x.digits.reverse y.digits.reverse

def magnitude (p : Platform) (x : JSBigInt) : Nat := ofDigits p.base x.digits

def signedValue (sign : Bool) (n : Nat) : Int := if sign then -(n : Int) else n

/-- The integer a cell denotes. -/
def toInt (p : Platform) (x : JSBigInt) : Int := signedValue x.sign (x.magnitude p)

/-- No leading zero digit, zero is unsigned, and the length limit is respected. -/
structure Normalized (p : Platform) (x : JSBigInt) : Prop where
  digit_lt : ∀ d ∈ x.digits, d < p.base
  last_ne_zero : ∀ h : x.digits ≠ [], x.digits.getLast h ≠ 0
  zero_unsigned : x.digits = [] → x.sign = false
  length_le : x.digits.length ≤ p.maxLength

/-- A cell is the normalized representation of an integer. -/
structure Represents (p : Platform) (x : JSBigInt) (v : Int) : Prop where
  normalized : x.Normalized p
  value : x.toInt p = v

/-- The value's normalized representation, or an out of memory exception that the length limit justifies. -/
def Yields (p : Platform) (v : Int) (overLimit : Prop) : Except Exception JSBigInt → Prop
  | .ok r => Represents p r v
  | .error e => e = .outOfMemory ∧ overLimit

instance (p : Platform) (x : JSBigInt) : Decidable (x.Normalized p) :=
  decidable_of_iff ((∀ d ∈ x.digits, d < p.base) ∧ (∀ h : x.digits ≠ [], x.digits.getLast h ≠ 0) ∧
      (x.digits = [] → x.sign = false) ∧ x.digits.length ≤ p.maxLength)
    ⟨fun ⟨a,b,c,d⟩ => ⟨a,b,c,d⟩,fun h => ⟨h.1,h.2,h.3,h.4⟩⟩

end JSBigInt

/-- A normalized cell: what BigInt operations receive and return. -/
abbrev NormalizedBigInt (p : Platform) : Type := {x : JSBigInt // x.Normalized p}

namespace JSBigInt
variable {p : Platform} {x : JSBigInt}

theorem magnitude_lt (h : ∀ d ∈ x.digits, d < p.base) : x.magnitude p < p.base^x.length :=
  ofDigits_lt_base_pow_length (by have := p.base_ge; omega) h

theorem Normalized.magnitude_ge (h : x.Normalized p) (hn : x.digits ≠ []) :
    p.base^(x.length-1) ≤ x.magnitude p := by
  have hl := h.last_ne_zero hn
  unfold magnitude length
  conv_rhs => rw [← dropLast_append_getLast hn]
  rw [ofDigits_append,length_dropLast,ofDigits_singleton]
  exact Nat.le_add_left_of_le (Nat.le_mul_of_pos_right _ (Nat.pos_of_ne_zero hl))

theorem isZero_iff (x : JSBigInt) : x.isZero ↔ x.digits = [] := by
  simp [isZero,length]

theorem magnitude_eq_zero_iff (h : x.Normalized p) : x.magnitude p = 0 ↔ x.digits = [] := by
  constructor
  · intro he
    by_contra hn
    have := h.magnitude_ge hn
    have := pow_pos (n := x.length - 1) p.base_pos
    omega
  · intro he
    simp [magnitude,he]

@[simp] theorem createWithLength_length (heap : Storage p) (n : Nat) :
    (createWithLengthUnchecked heap n).length = n := heap.content_length n

variable {out : List Nat}

theorem setDigits_full (h : out.length = x.length) : x.setDigits out = ⟨x.sign,out⟩ := by
  simp [setDigits,drop_of_length_le h.ge]

theorem setDigits_fresh (heap : Storage p) {n : Nat} (h : out.length = n) :
    (createWithLengthUnchecked heap n).setDigits out = ⟨false,out⟩ :=
  setDigits_full (h.trans (createWithLength_length heap n).symm)

private theorem unaryMinus_eq (heap : Storage p) (x : JSBigInt) :
    unaryMinus heap x = if x.isZero then x else ⟨!x.sign,x.digits⟩ := by
  unfold unaryMinus copy length
  rw [setDigits_fresh heap rfl]
  rfl

@[simp] theorem signedValue_zero (sign : Bool) : signedValue sign 0 = 0 := by cases sign <;> rfl

theorem signedValue_add (sign : Bool) (m n : Nat) :
    signedValue sign (m+n) = signedValue sign m + signedValue sign n := by
  cases sign <;> simp [signedValue]
  omega

theorem signedValue_sub (sign : Bool) {m n : Nat} (h : n ≤ m) :
    signedValue sign (m-n) = signedValue sign m - signedValue sign n := by
  cases sign <;> simp [signedValue] <;> omega

theorem signedValue_mul (s t : Bool) (m n : Nat) :
    signedValue (s != t) (m*n) = signedValue s m*signedValue t n := by
  cases s <;> cases t <;> simp [signedValue]

theorem signedValue_not (sign : Bool) (n : Nat) : signedValue (!sign) n = -signedValue sign n := by
  cases sign <;> simp [signedValue]

theorem Normalized.represents (h : x.Normalized p) : Represents p x (x.toInt p) := ⟨h,rfl⟩

theorem createZero_represents : Represents p createZero 0 :=
  ⟨⟨by simp [createZero],by simp [createZero],fun _ => rfl,by simp [createZero]⟩,rfl⟩

section
variable (heap : Storage p)
include heap

private theorem unaryMinus_represents (h : x.Normalized p) : Represents p (unaryMinus heap x) (-x.toInt p) := by
  rw [unaryMinus_eq]
  split
  next hz =>
    rw [isZero_iff] at hz
    refine ⟨h,?_⟩
    simp [toInt,magnitude,hz,signedValue]
  next hz =>
    rw [isZero_iff] at hz
    refine ⟨⟨h.digit_lt,h.last_ne_zero,fun he => absurd he hz,h.length_le⟩,?_⟩
    cases hs : x.sign <;> simp [toInt,magnitude,hs,signedValue]

/-- Taking a cell over unchanged or negated. -/
theorem withSign_represents (h : x.Normalized p) (sign : Bool) :
    Represents p (if sign = x.sign then x else unaryMinus heap x) (signedValue sign (x.magnitude p)) := by
  split
  next hs => exact hs ▸ h.represents
  next hs =>
    have : sign = !x.sign := by revert hs; cases sign <;> cases x.sign <;> simp
    rw [this,signedValue_not]
    exact unaryMinus_represents heap h

/-- Trimming keeps the value and normalizes. -/
theorem rightTrim_spec (hlt : ∀ d ∈ x.digits, d < p.base)
    (hzr : x.digits = [] → x.sign = false) (hln : x.length ≤ p.maxLength) :
    Represents p (rightTrim heap x) (x.toInt p) := by
  have hp : x.digits.rdropWhile (· == 0) <+: x.digits := rdropWhile_prefix _ _
  have hv := Base.ofDigits_rdropWhile_zero (b := p.base) x.digits
  have hls : ∀ h, (x.digits.rdropWhile (· == 0)).getLast h ≠ 0 := by
    intro h he
    have := rdropWhile_last_not (fun d : Nat => d == 0) x.digits h
    simp [he] at this
  unfold rightTrim
  split
  next hz =>
    rw [isZero_iff] at hz
    exact ⟨⟨hlt,fun h => absurd hz h,hzr,hln⟩,rfl⟩
  next hz =>
    dsimp only
    generalize x.digits.rdropWhile (· == 0) = t at *
    split
    next ht =>
      subst ht
      refine ⟨⟨by simp [createZero],by simp [createZero],fun _ => rfl,by simp [createZero]⟩,?_⟩
      simp [toInt,signedValue,magnitude,createZero,← hv]
    next ht =>
      split
      next hl =>
        have he : t = x.digits := hp.eq_of_length hl
        subst he
        exact ⟨⟨hlt,hls,fun h => absurd h ht,hln⟩,rfl⟩
      · rw [setDigits_fresh heap rfl]
        refine ⟨⟨fun d hd => hlt d (hp.subset hd),hls,fun h => absurd h ht,
          hp.length_le.trans hln⟩,?_⟩
        simp [toInt,magnitude,setSign,hv]

theorem trimmed_represents (sign : Bool) {n v : Nat}
    (hx : x.length = n) (hl : out.length = n) (hlt : ∀ d ∈ out, d < p.base) (hp : 0 < n)
    (hm : n ≤ p.maxLength) (hv : ofDigits p.base out = v) :
    Represents p (rightTrim heap ((x.setDigits out).setSign sign)) (signedValue sign v) := by
  rw [setDigits_full (hl.trans hx.symm),← hv]
  refine rightTrim_spec heap (x := ⟨sign,out⟩) hlt ?_ (hl.trans_le hm)
  intro hn
  change out = [] at hn
  simp [hn] at hl
  omega

end

theorem Represents.unique {y : JSBigInt} {v : Int} (hx : Represents p x v) (hy : Represents p y v) : x = y := by
  have digits_eq {z : JSBigInt} (hz : z.Normalized p) : z.digits = Nat.digits p.base (z.magnitude p) :=
    (digits_ofDigits p.base (by have := p.base_ge; omega) _ hz.digit_lt hz.last_ne_zero).symm
  have hv := hx.value.trans hy.value.symm
  have hm : x.magnitude p = y.magnitude p := by
    revert hv
    rw [toInt,toInt]
    cases x.sign <;> cases y.sign <;> simp [signedValue] <;> omega
  have hd : x.digits = y.digits := by rw [digits_eq hx.normalized,digits_eq hy.normalized,hm]
  have hs : x.sign = y.sign := by
    by_cases hn : x.digits = []
    · rw [hx.normalized.zero_unsigned hn,hy.normalized.zero_unsigned (hd ▸ hn)]
    · have hp : x.magnitude p ≠ 0 := fun he => hn ((magnitude_eq_zero_iff hx.normalized).1 he)
      revert hv
      rw [toInt,toInt,← hm]
      cases x.sign <;> cases y.sign <;> simp [signedValue] <;> omega
  cases x
  cases y
  exact JSBigInt.mk.injEq .. ▸ ⟨hs,hd⟩

private theorem compareFromTop_append_value (xs ys : List Nat) (hl : xs.length = ys.length)
    (hx : ∀ d ∈ xs, d < p.base) (hy : ∀ d ∈ ys, d < p.base) :
    compareFromTop xs.reverse ys.reverse =
      if ofDigits p.base xs < ofDigits p.base ys then .lessThan
      else if ofDigits p.base ys < ofDigits p.base xs then .greaterThan else .equal := by
  induction xs using reverseRecOn generalizing ys with
  | nil =>
    obtain rfl := length_eq_zero_iff.1 hl.symm
    simp [compareFromTop]
  | append_singleton xs x ih =>
    obtain ⟨ys,y,rfl⟩ : ∃ zs z, ys = zs ++ [z] := by
      rcases eq_nil_or_concat ys with h | ⟨zs,z,h⟩
      · simp [h] at hl
      · exact ⟨zs,z,by simpa using h⟩
    have hln : xs.length = ys.length := by simpa using hl
    have hB : 1 < p.base := by have := p.base_ge; omega
    have hx' : ∀ d ∈ xs, d < p.base := fun d hd => hx d (by simp [hd])
    have hy' : ∀ d ∈ ys, d < p.base := fun d hd => hy d (by simp [hd])
    have bx := ofDigits_lt_base_pow_length hB hx'
    have bY := ofDigits_lt_base_pow_length hB hy'
    simp only [reverse_append,reverse_cons,reverse_nil,nil_append,
      singleton_append,compareFromTop,ofDigits_append,ofDigits_singleton,hln]
    rw [hln] at bx
    generalize p.base^ys.length = W at *
    rcases lt_trichotomy x y with h | h | h
    · have := mul_le_mul_left W (show x + 1 ≤ y from h)
      rw [mul_add] at this
      rw [if_neg (by omega),if_neg (by omega),if_pos (by omega)]
    · subst h
      rw [if_pos rfl,ih ys hln hx' hy']
      simp
    · have := mul_le_mul_left W (show y + 1 ≤ x from h)
      rw [mul_add] at this
      rw [if_neg (by omega),if_pos (by omega),if_neg (by omega),if_pos (by omega)]

theorem absoluteCompare_eq {y : JSBigInt} (hx : x.Normalized p) (hy : y.Normalized p) :
    absoluteCompare x y =
      if x.magnitude p < y.magnitude p then .lessThan
      else if y.magnitude p < x.magnitude p then .greaterThan else .equal := by
  have s {a b : JSBigInt} (ha : a.Normalized p) (hb : b.Normalized p)
      (h : a.length < b.length) : a.magnitude p < b.magnitude p := by
    have hn : b.digits ≠ [] := by
      intro he
      simp [length,he] at h
    calc a.magnitude p < p.base^a.length := magnitude_lt ha.digit_lt
      _ ≤ p.base^(b.length-1) := Nat.pow_le_pow_right p.base_pos (by omega)
      _ ≤ _ := hb.magnitude_ge hn
  unfold absoluteCompare
  split
  next h =>
    rw [if_pos (s hx hy h)]
  · split
    next h =>
      have := s hy hx h
      rw [if_neg (by omega),if_pos this]
    · exact compareFromTop_append_value _ _ (by unfold length at *; omega) hx.digit_lt hy.digit_lt

def equals (x y : JSBigInt) : Bool := x.sign == y.sign && x.length == y.length && x.digits == y.digits

def compare (x y : JSBigInt) : ComparisonResult :=
  if x.sign ≠ y.sign then if x.sign then .lessThan else .greaterThan
  else
    match absoluteCompare x y with
    | .greaterThan => if x.sign then .lessThan else .greaterThan
    | .lessThan => if x.sign then .greaterThan else .lessThan
    | _ => .equal

theorem Normalized.toInt_neg_iff (h : x.Normalized p) : x.toInt p < 0 ↔ x.sign := by
  rw [toInt]
  cases hs : x.sign with
  | false => simp [signedValue]
  | true =>
    have hz : x.magnitude p ≠ 0 := by
      intro he
      simp [h.zero_unsigned ((magnitude_eq_zero_iff h).1 he)] at hs
    rw [signedValue,if_pos rfl]
    exact iff_of_true (by omega) rfl

/-- The comparisons of two cells are those of the integers. -/
theorem compare_exact (x y : NormalizedBigInt p) :
    (x.1.equals y.1 ↔ x.1.toInt p = y.1.toInt p) ∧
      x.1.compare y.1 = if x.1.toInt p < y.1.toInt p then .lessThan
        else if y.1.toInt p < x.1.toInt p then .greaterThan else .equal := by
  obtain ⟨x,hx⟩ := x
  obtain ⟨y,hy⟩ := y
  refine ⟨⟨fun h => ?_,fun h => ?_⟩,?_⟩
  · simp only [equals,Bool.and_eq_true,beq_iff_eq] at h
    rw [toInt,toInt,magnitude,magnitude,h.1.1,h.2]
  · simp [hx.represents.unique ⟨hy,h.symm⟩,equals]
  · have hn := hx.toInt_neg_iff
    have hn' := hy.toInt_neg_iff
    dsimp only
    rw [compare,absoluteCompare_eq hx hy]
    -- Equal signs leave the absolute values, in the order or against it.
    cases hs : x.sign <;> cases hs' : y.sign <;> simp_all [toInt,signedValue] <;> split_ifs <;> first | rfl | omega

end JSBigInt
end WebKit.JavaScriptCore.BigInt
