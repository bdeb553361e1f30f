import WebKit.JavaScriptCore.BigInt.Multiply
import WebKit.JavaScriptCore.BigInt.Radix

/-! Parsing BigInt text: the accumulator sized from the table of bits per character, the digit
loop, and the overload that detects sign and radix. -/
namespace WebKit.JavaScriptCore.BigInt
open List Nat

inductive ErrorParseMode where
  | throwExceptions | ignoreExceptions
  deriving DecidableEq, Repr

inductive ParseIntMode where
  | disallowEmptyString | allowEmptyString
  deriving DecidableEq, Repr

inductive ParseIntSign where
  | unsigned | signed
  deriving DecidableEq, Repr

def isASCIIAlphaCaselessEqual (c expectedASCIILowercaseLetter : Nat) : Bool :=
  c ||| 0x20 == expectedASCIILowercaseLetter

/-- The radix that the letter after a leading zero selects. -/
def prefixRadix (c : Nat) : Option Nat :=
  if isASCIIAlphaCaselessEqual c 'b'.toNat then some 2
  else if isASCIIAlphaCaselessEqual c 'x'.toNat then some 16
  else if isASCIIAlphaCaselessEqual c 'o'.toNat then some 8
  else none

section
-- Which code units from 256 on have the general category of a space separator.
variable (spaceSeparator : Nat → Bool)

def isWhiteSpace (c : Nat) : Bool :=
  if c < 256 then c == 0x20 || c == 0x9 || c == 0xB || c == 0xC || c == 0xA0
  else spaceSeparator c || c == 0xFEFF

def isLineTerminator (c : Nat) : Bool := c == 0xD || c == 0xA || c - c%2 == 0x2028

def isStrWhiteSpace (c : Nat) : Bool := isWhiteSpace spaceSeparator c || isLineTerminator c

variable {spaceSeparator}

theorem isStrWhiteSpace_ascii {c : Nat} (h : 33 ≤ c) (h' : c < 128) : isStrWhiteSpace spaceSeparator c = false := by
  simp only [isStrWhiteSpace,isWhiteSpace,if_pos (show c < 256 by omega),isLineTerminator,Bool.or_eq_false_iff,
    beq_eq_false_iff_ne]
  omega

theorem isStrWhiteSpace_of_isDigit {radix c : Nat} (h : IsDigit radix c) : isStrWhiteSpace spaceSeparator c = false := by
  obtain ⟨d,hd,-⟩ := h
  have hr : 48 ≤ c ∧ c ≤ 122 := by
    simp only [digitValue,show '0'.toNat = 48 from rfl,show '9'.toNat = 57 from rfl,show 'a'.toNat = 97 from rfl,
      show 'z'.toNat = 122 from rfl,show 'A'.toNat = 65 from rfl,show 'Z'.toNat = 90 from rfl] at hd
    split_ifs at hd <;> first | omega | cases hd
  exact isStrWhiteSpace_ascii (by omega) (by omega)

end

namespace JSBigInt

/-- The outcome of parsing: the result pointer, null without an exception, or an exception. -/
abbrev ParseOutcome : Type := Except Exception (Option JSBigInt)

def parseFailure : ErrorParseMode → ParseOutcome
  | .throwExceptions => .error (.syntaxError "Failed to parse String to BigInt")
  | .ignoreExceptions => .ok none

section
variable {p : Platform} (heap : Storage p)

/-- A cell for the given number of characters; the largest size_t is that of a digit. -/
def allocateFor (radix charcount : Nat) : Except Exception JSBigInt :=
  let bitsPerChar := maxBitsPerChar radix
  let roundup := bitsPerCharTableMultiplier - 1
  if charcount ≤ (p.base-1-roundup)/bitsPerChar then
    let bitsMin := (bitsPerChar*charcount+roundup)/2^bitsPerCharTableShift
    if bitsMin ≤ Platform.maxInt then
      let length := (bitsMin+p.digitBits-1)/p.digitBits
      if length ≤ p.maxLength then .ok (createWithLengthUnchecked heap length) else .error .outOfMemory
    else .error .outOfMemory
  else .error .outOfMemory

def inplaceMultiplyAdd (p : Platform) (x : JSBigInt) (factor summand : Nat) : JSBigInt :=
  @internalMultiplyAdd p x factor summand x.length x

/-- The accumulator, and the characters from the first one that is no digit on. -/
def parseLoop (p : Platform) (radix : Nat) : List Nat → JSBigInt → JSBigInt × List Nat
  | [], result => (result, [])
  | c::text, result =>
    match parseDigit radix c with
    | some digit => parseLoop p radix text (inplaceMultiplyAdd p result radix digit)
    | none => (result, c::text)

/-- Accumulate the digits of a nonempty text, to its end. -/
def parseDigits (radix : Nat) (text : List Nat) (errorParseMode : ErrorParseMode) (sign : ParseIntSign) :
    ParseOutcome := do
  let result ← allocateFor heap radix text.length
  let result := result.setDigits (replicate result.length 0)
  let (result, rest) := parseLoop p radix text result
  let result := result.setSign (sign == .signed)
  if rest = [] then return some (rightTrim heap result)
  parseFailure errorParseMode

variable (spaceSeparator : Nat → Bool)

/-- Without leading zeros and trailing spaces. -/
def significant (text : List Nat) : List Nat :=
  (text.dropWhile (· == zeroChar)).rdropWhile (isStrWhiteSpace spaceSeparator)

/-- Parse the digits of one radix from an index on. -/
def parseIntFrom (data : List Nat) (startIndex radix : Nat) (errorParseMode : ErrorParseMode) (sign : ParseIntSign)
    (parseMode : ParseIntMode) : ParseOutcome :=
  if parseMode ≠ .allowEmptyString ∧ startIndex = data.length then parseFailure errorParseMode
  else
    let text := significant spaceSeparator (data.drop startIndex)
    if text = [] then .ok (some createZero) else parseDigits heap radix text errorParseMode sign

def parseIntRadix (data : List Nat) (radix : Nat) (errorParseMode : ErrorParseMode) (sign : ParseIntSign) :
    ParseOutcome :=
  parseIntFrom heap spaceSeparator data 0 radix errorParseMode sign .disallowEmptyString

/-- Parse a decimal number with an optional sign from an index on. -/
def parseIntSigned (data : List Nat) (start : Nat) (errorParseMode : ErrorParseMode) : ParseOutcome := do
  let sign : ParseIntSign := if data[start]? = some minusChar then .signed else .unsigned
  let start := if data[start]? = some plusChar ∨ data[start]? = some minusChar then start + 1 else start
  let result ← parseIntFrom heap spaceSeparator data start 10 errorParseMode sign .allowEmptyString
  return result.map fun result => if result.isZero then result else result.setSign (sign == .signed)

def parseInt (data : List Nat) (errorParseMode : ErrorParseMode) : ParseOutcome :=
  let start := (data.takeWhile (isStrWhiteSpace spaceSeparator)).length
  if start + 1 < data.length ∧ data[start]? = some zeroChar then
    match prefixRadix (data.getD (start+1) 0) with
    | some radix =>
      parseIntFrom heap spaceSeparator data (start+2) radix errorParseMode .unsigned .disallowEmptyString
    | none => parseIntSigned heap spaceSeparator data start errorParseMode
  else parseIntSigned heap spaceSeparator data start errorParseMode

end

/-- The size estimate of a numeral of that length fits in the largest cell. -/
def EstimateFits (p : Platform) (radix charcount : Nat) : Prop :=
  maxBitsPerChar radix*charcount ≤ bitsPerCharTableMultiplier*(p.maxLength*p.digitBits)

instance (p : Platform) (radix charcount : Nat) : Decidable (EstimateFits p radix charcount) := decLe _ _

section
variable {p : Platform} {heap : Storage p}

theorem ceil_div_le_iff {a d m : Nat} (hd : 0 < d) : (a+d-1)/d ≤ m ↔ a ≤ m*d := by
  rw [← Nat.lt_add_one_iff,Nat.div_lt_iff_lt_mul hd,Nat.add_mul]
  omega

variable {radix : Nat}

theorem allocateFor_eq (hr : 0 < maxBitsPerChar radix) (c : Nat) : allocateFor heap radix c =
      if EstimateFits p radix c then
        .ok (createWithLengthUnchecked heap
          (((maxBitsPerChar radix*c+31)/32+p.digitBits-1)/p.digitBits))
      else .error .outOfMemory := by
  have hc : p.maxLength*p.digitBits ≤ 1024*1024 := div_mul_le_self _ _
  have hb : 2^32 ≤ p.base := by
    unfold Platform.base Platform.digitBits
    rcases p.width with h | h <;> simp [h]
  have hl (b : Nat) : (b+p.digitBits-1)/p.digitBits ≤ p.maxLength ↔
      b ≤ p.maxLength*p.digitBits := ceil_div_le_iff p.digitBits_pos
  have hf : EstimateFits p radix c ↔
      maxBitsPerChar radix*c ≤ 32*(p.maxLength*p.digitBits) := Iff.rfl
  unfold allocateFor
  simp only [bitsPerCharTableMultiplier,bitsPerCharTableShift,Platform.maxInt,hl,hf,
    le_div_iff_mul_le hr,mul_comm c]
  split_ifs <;> first | omega | rfl

private theorem inplaceMultiplyAdd_spec {x : JSBigInt} (hx : ∀ d ∈ x.digits, d < p.base) {f s : Nat}
    (hf : f < p.base) (hs : s < p.base)
    (hft : x.magnitude p*f + s < p.base^x.length) :
    let y := inplaceMultiplyAdd p x f s
    y.magnitude p = x.magnitude p*f + s ∧ y.length = x.length ∧ ∀ d ∈ y.digits, d < p.base := by
  intro y
  have hy : y = x.setDigits (multiplyAddLoop p f x.digits s 0).1 := by
    simp only [y,inplaceMultiplyAdd,internalMultiplyAdd,lt_irrefl,if_false]
    rw [length,take_length]
  obtain ⟨hv,hl,hd⟩ := multiplyAddLoop_spec hf x.digits s 0 hx hs p.base_pos
  rw [hy,setDigits_full hl]
  refine ⟨?_,hl,hd⟩
  generalize multiplyAddLoop p f x.digits s 0 = pr at *
  have ht : pr.2.1 + pr.2.2 = 0 := by
    by_contra hn
    have := mul_le_mul_left (p.base^x.digits.length) (one_le_iff_ne_zero.2 hn)
    simp only [magnitude,length] at hft
    omega
  rw [ht] at hv
  exact hv

private theorem numeralValue_cons (radix c : Nat) (text : List Nat) :
    numeralValue radix (c::text) = (digitValue c).getD 0*radix^text.length + numeralValue radix text := by
  rw [numeralValue_eq,numeralValue_eq,map_cons,reverse_cons,ofDigits_append,
    ofDigits_singleton,length_reverse,length_map]
  ring

private theorem parseLoop_digits (h2 : 2 ≤ radix) (h36 : radix ≤ 36) (text : List Nat) (x : JSBigInt)
    (ht : ∀ c ∈ text, IsDigit radix c) (hx : ∀ d ∈ x.digits, d < p.base)
    (hr : (x.magnitude p+1)*radix^text.length ≤ p.base^x.length) :
    ∃ y, parseLoop p radix text x = (y, []) ∧
      y.magnitude p = x.magnitude p*radix^text.length + numeralValue radix text ∧
      y.length = x.length ∧ ∀ d ∈ y.digits, d < p.base := by
  induction text generalizing x with
  | nil => exact ⟨x,rfl,by simp [numeralValue],rfl,hx⟩
  | cons c text ih =>
    obtain ⟨hc,hrs⟩ := forall_mem_cons.1 ht
    have hd := hc.value_lt
    have hB := p.base_ge
    rw [parseLoop,parseDigit_of_isDigit h2 h36 hc,numeralValue_cons]
    generalize (digitValue c).getD 0 = d at *
    have hn : (x.magnitude p*radix+d+1)*radix^text.length ≤ p.base^x.length := by
      refine le_trans ?_ hr
      rw [length_cons,pow_succ',← mul_assoc]
      gcongr
      rw [add_mul]
      omega
    have hp : 0 < radix^text.length := Nat.pow_pos (by omega)
    obtain ⟨hv,hl,hlt⟩ := inplaceMultiplyAdd_spec hx (by omega) (by omega)
      (Nat.lt_of_succ_le ((Nat.le_mul_of_pos_right _ hp).trans hn))
    obtain ⟨y,hy,hyv,hyl,hyd⟩ := ih (inplaceMultiplyAdd p x radix d) hrs hlt (by rw [hv,hl]; exact hn)
    refine ⟨y,hy,?_,hyl.trans hl,hyd⟩
    rw [hyv,hv,length_cons]
    ring

private theorem parseLoop_rest (h2 : 2 ≤ radix) (h36 : radix ≤ 36) (text : List Nat) (x : JSBigInt)
    (ht : (parseLoop p radix text x).2 = []) : ∀ c ∈ text, IsDigit radix c := by
  induction text generalizing x with
  | nil => simp
  | cons c text ih =>
    rw [parseLoop] at ht
    by_cases hc : IsDigit radix c
    · rw [parseDigit_of_isDigit h2 h36 hc] at ht
      exact forall_mem_cons.2 ⟨hc,ih _ ht⟩
    · rw [parseDigit_of_not_isDigit h2 h36 hc] at ht
      cases ht

variable {spaceSeparator : Nat → Bool} {text : List Nat}

theorem parseDigits_accepts (h2 : 2 ≤ radix) (h36 : radix ≤ 36) (hne : text ≠ [])
    (ht : ∀ c ∈ text, IsDigit radix c) (hf : EstimateFits p radix text.length) (m : ErrorParseMode)
    (sign : ParseIntSign) :
    ∃ r, parseDigits heap radix text m sign = .ok (some r) ∧
      Represents p r (signedValue (sign == .signed) (numeralValue radix text)) := by
  have hb := maxBitsPerChar_pos h2 h36
  have hl := length_pos_iff.2 hne
  rw [parseDigits,allocateFor_eq hb,if_pos hf]
  generalize hn : ((maxBitsPerChar radix*text.length+31)/32+p.digitBits-1)/p.digitBits = n
  have hr : (maxBitsPerChar radix*text.length+31)/32 ≤ n*p.digitBits :=
    (ceil_div_le_iff p.digitBits_pos).1 hn.le
  have hm : n ≤ p.maxLength := by
    rw [← hn,ceil_div_le_iff p.digitBits_pos]
    change _ ≤ 32*_ at hf
    omega
  have hpw : radix^text.length ≤ p.base^n := by
    rw [Platform.base,← pow_mul]
    apply radix_pow_le_two_pow h2 h36
    rw [mul_comm p.digitBits]
    change _ ≤ 32*_
    omega
  have hp : 0 < n := by
    by_contra hzr
    have := mul_pos hb hl
    rw [Nat.eq_zero_of_not_pos hzr,Nat.zero_mul] at hr
    omega
  have hz : (createWithLengthUnchecked heap n).setDigits
      (replicate (createWithLengthUnchecked heap n).length 0) = ⟨false,replicate n 0⟩ := by
    rw [createWithLength_length]
    exact setDigits_fresh heap (length_replicate ..)
  have hv : magnitude p ⟨false,replicate n 0⟩ = 0 := ofDigits_replicate_zero ..
  obtain ⟨y,hy,hyv,hyl,hyd⟩ := parseLoop_digits h2 h36 text ⟨false,replicate n 0⟩ ht
    (fun d hd => by rw [eq_of_mem_replicate hd]; exact p.base_pos)
    (by simpa [hv,length] using hpw)
  have hyl : y.length = n := hyl.trans (length_replicate ..)
  simp only [hv,zero_mul,zero_add] at hyv
  refine ⟨rightTrim heap (y.setSign (sign == .signed)),?_,?_⟩
  · simp only [bind,Except.bind,hz,hy,if_true,pure,Except.pure]
  · have htr := @rightTrim_spec p (y.setSign (sign == .signed)) heap hyd ?_ (hyl.trans_le hm)
    · rwa [toInt,show (y.setSign (sign == .signed)).magnitude p = y.magnitude p from rfl,hyv] at htr
    · intro hnl
      rw [length,show y.digits = [] from hnl] at hyl
      exact absurd hyl hp.ne

theorem parseFailure_ne_some (m : ErrorParseMode) (r : JSBigInt) : parseFailure m ≠ .ok (some r) := by
  cases m <;> simp [parseFailure]

private theorem parseDigits_accepted (h2 : 2 ≤ radix) (h36 : radix ≤ 36)
    {m : ErrorParseMode} {sign : ParseIntSign} {r : JSBigInt}
    (h : parseDigits heap radix text m sign = .ok (some r)) :
    (∀ c ∈ text, IsDigit radix c) ∧ EstimateFits p radix text.length := by
  rw [parseDigits,allocateFor_eq (maxBitsPerChar_pos h2 h36)] at h
  split_ifs at h with hf
  · refine ⟨?_,hf⟩
    simp only [bind,Except.bind] at h
    split at h
    next hr => exact parseLoop_rest h2 h36 text _ hr
    · exact absurd h (parseFailure_ne_some m r)
  · cases h

variable {parseMode : ParseIntMode}

section
variable (h2 : 2 ≤ radix) (h36 : radix ≤ 36)
include h2 h36

theorem parseIntFrom_accepts {d : List Nat} {s : Nat}
    (m : ErrorParseMode) (sign : ParseIntSign)
    (he : parseMode = .allowEmptyString ∨ s ≠ d.length)
    (hdg : ∀ c ∈ significant spaceSeparator (d.drop s), IsDigit radix c)
    (hf : EstimateFits p radix (significant spaceSeparator (d.drop s)).length) :
    ∃ r, parseIntFrom heap spaceSeparator d s radix m sign parseMode = .ok (some r) ∧
      Represents p r (signedValue (sign == .signed)
        (numeralValue radix (significant spaceSeparator (d.drop s)))) := by
  rw [parseIntFrom,if_neg (by tauto)]
  dsimp only
  split_ifs with hn
  · rw [hn]
    exact ⟨createZero,rfl,by simpa [numeralValue] using createZero_represents⟩
  · exact parseDigits_accepts h2 h36 hn hdg hf m sign

theorem parseIntFrom_accepted {d : List Nat} {s : Nat}
    {m : ErrorParseMode} {sign : ParseIntSign} {r : JSBigInt}
    (h : parseIntFrom heap spaceSeparator d s radix m sign parseMode = .ok (some r)) :
    (parseMode = .allowEmptyString ∨ s ≠ d.length) ∧
      (∀ c ∈ significant spaceSeparator (d.drop s), IsDigit radix c) ∧
      EstimateFits p radix (significant spaceSeparator (d.drop s)).length := by
  rw [parseIntFrom] at h
  dsimp only at h
  split_ifs at h with hg hn
  · exact absurd h (parseFailure_ne_some m r)
  · rw [hn]
    exact ⟨by tauto,by simp,zero_le _⟩
  · exact ⟨by tauto,parseDigits_accepted h2 h36 h⟩

theorem parseDigits_of_not_fits
    (h : ¬ EstimateFits p radix text.length) (m : ErrorParseMode) (sign : ParseIntSign) :
    parseDigits heap radix text m sign = .error .outOfMemory := by
  rw [parseDigits,allocateFor_eq (maxBitsPerChar_pos h2 h36),if_neg h]
  rfl

end

end
end JSBigInt
end WebKit.JavaScriptCore.BigInt
