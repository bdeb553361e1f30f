import WebKit.Base.Lists
import WebKit.JavaScriptCore.BigInt.ParseInt

/-! Strings to BigInts: the grammar of numeric strings, and how far the overload that detects sign and radix accepts it. -/
namespace WebKit.JavaScriptCore.BigInt
open List

/-- The letters that select a radix after a leading zero. -/
def radixLetters : List (Nat × Nat) :=
  [('b'.toNat, 2), ('B'.toNat, 2), ('o'.toNat, 8), ('O'.toNat, 8), ('x'.toNat, 16), ('X'.toNat, 16)]

/-- What may stand before the digits, with its radix and sign. -/
inductive Mark : List Nat → Nat → Bool → Prop
  | none : Mark [] 10 false
  | plus : Mark [plusChar] 10 false
  | minus : Mark [minusChar] 10 true
  | radix {letter radix : Nat} (h : (letter, radix) ∈ radixLetters) : Mark [zeroChar, letter] radix false

/-- The grammar of numeric strings: a mark and digits, which only the empty text may lack. -/
def Spells (text : List Nat) (radix : Nat) (sign : Bool) (digits : List Nat) : Prop :=
  ∃ mark, Mark mark radix sign ∧ text = mark ++ digits ∧ (∀ c ∈ digits, IsDigit radix c) ∧ (digits = [] → mark = [])

/-- The integer a numeric string denotes. -/
def Denotes (text : List Nat) (v : Int) : Prop :=
  ∃ radix sign digits, Spells text radix sign digits ∧ v = JSBigInt.signedValue sign (numeralValue radix digits)

section
variable (spaceSeparator : Nat → Bool)

/-- A string without its leading and trailing white space. -/
def strip (data : List Nat) : List Nat :=
  (data.dropWhile (isStrWhiteSpace spaceSeparator)).rdropWhile (isStrWhiteSpace spaceSeparator)

def EndsInWhiteSpace (data : List Nat) : Prop := ∃ c ∈ data.getLast?, isStrWhiteSpace spaceSeparator c = true

end

section
variable {spaceSeparator : Nat → Bool}

private theorem lt_of_caselessEqual {c l : Nat} (hl : l < 128)
    (h : isASCIIAlphaCaselessEqual c l) : c < 128 := by
  have hle : c ≤ c ||| 0x20 := Nat.left_le_or
  rw [isASCIIAlphaCaselessEqual,beq_iff_eq] at h
  omega

variable {radix : Nat}

theorem prefixRadix_eq_some_iff {c : Nat} : prefixRadix c = some radix ↔ (c, radix) ∈ radixLetters := by
  constructor
  · intro h
    have hs : ∀ c < 128, ∀ r ∈ prefixRadix c, (c, r) ∈ radixLetters := by decide
    refine hs c ?_ radix h
    rw [prefixRadix] at h
    split_ifs at h with hb hx ho
    · exact lt_of_caselessEqual (by decide) hb
    · exact lt_of_caselessEqual (by decide) hx
    · exact lt_of_caselessEqual (by decide) ho
  · have hl : ∀ e ∈ radixLetters, prefixRadix e.1 = some e.2 := by decide
    exact hl (c, radix)

variable {mark : List Nat} {sign : Bool}

theorem Mark.radix_range (h : Mark mark radix sign) : 2 ≤ radix ∧ radix ≤ 36 := by
  cases h with
  | none | plus | minus => exact ⟨by decide,by decide⟩
  | radix h =>
    have hl : ∀ e ∈ radixLetters, 2 ≤ e.2 ∧ e.2 ≤ 36 := by decide
    exact hl _ h

private theorem not_isDigit_letter {letter : Nat} (h : (letter, radix) ∈ radixLetters) : ¬ IsDigit 10 letter := by
  have hl : ∀ e ∈ radixLetters, ¬ IsDigit 10 e.1 := by decide
  exact hl _ h

theorem Mark.not_isStrWhiteSpace (h : Mark mark radix sign) : ∀ c ∈ mark, isStrWhiteSpace spaceSeparator c = false := by
  have ha : ∀ c ∈ mark, 33 ≤ c ∧ c < 128 := by
    cases h with
    | none | plus | minus => decide
    | radix h =>
      have hl : ∀ e ∈ radixLetters, 33 ≤ e.1 ∧ e.1 < 128 := by decide
      simp only [forall_mem_cons,not_mem_nil,false_implies,implies_true,and_true]
      exact ⟨by decide,hl _ h⟩
  exact fun c hc => isStrWhiteSpace_ascii (ha c hc).1 (ha c hc).2

/-- The digit loop reads the digits of the stripped text after their leading zeros. -/
theorem significant_eq (tail : List Nat) : JSBigInt.significant spaceSeparator tail =
    (tail.rdropWhile (isStrWhiteSpace spaceSeparator)).dropWhile (· == zeroChar) := by
  apply Base.rdropWhile_dropWhile
  intro c hc
  rw [eq_of_beq hc]
  exact isStrWhiteSpace_ascii (by decide) (by decide)

private theorem forall_isDigit_dropWhile (h2 : 2 ≤ radix) {ds : List Nat} :
    (∀ c ∈ ds.dropWhile (· == zeroChar), IsDigit radix c) ↔ ∀ c ∈ ds, IsDigit radix c := by
  refine ⟨fun h c hc => ?_,fun h c hc => h c (dropWhile_suffix _ |>.subset hc)⟩
  rw [← @takeWhile_append_dropWhile _ (· == zeroChar) ds,mem_append] at hc
  rcases hc with hc | hc
  · have hz : (c == zeroChar) := @mem_takeWhile_imp _ (· == zeroChar) _ _ hc
    rw [eq_of_beq hz]
    exact ⟨0,rfl,by omega⟩
  · exact h c hc

private theorem not_isDigit_sign : ¬ IsDigit 10 plusChar ∧ ¬ IsDigit 10 minusChar := by decide

/-- The first two characters select the only mark. -/
theorem Mark.unique {digits mark' digits' : List Nat} {radix' : Nat} {sign' : Bool}
    (hm : Mark mark radix sign) (hm' : Mark mark' radix' sign') (ht : mark ++ digits = mark' ++ digits')
    (hdg : ∀ c ∈ digits', IsDigit radix' c)
    (hf : mark = [] → ∀ c ∈ digits.head?, c ≠ plusChar ∧ c ≠ minusChar)
    (hs : mark = [] → ∀ l m r, digits = zeroChar :: l :: m → (l, r) ∉ radixLetters) :
    mark' = mark ∧ radix' = radix ∧ sign' = sign := by
  cases hm with
  | none =>
    obtain rfl : digits = mark' ++ digits' := ht
    cases hm' with
    | none => exact ⟨rfl,rfl,rfl⟩
    | plus => exact absurd rfl (hf rfl plusChar rfl).1
    | minus => exact absurd rfl (hf rfl minusChar rfl).2
    | radix h => exact absurd h (hs rfl _ digits' _ rfl)
  | plus =>
    cases hm' with
    | none =>
      obtain rfl : digits' = plusChar::digits := ht.symm
      exact absurd (hdg plusChar mem_cons_self) not_isDigit_sign.1
    | plus => exact ⟨rfl,rfl,rfl⟩
    | minus | radix => cases ht
  | minus =>
    cases hm' with
    | none =>
      obtain rfl : digits' = minusChar::digits := ht.symm
      exact absurd (hdg minusChar mem_cons_self) not_isDigit_sign.2
    | minus => exact ⟨rfl,rfl,rfl⟩
    | plus | radix => cases ht
  | @radix l _ h =>
    cases hm' with
    | none =>
      obtain rfl : digits' = zeroChar::l::digits := ht.symm
      exact absurd (hdg l (by simp)) (not_isDigit_letter h)
    | plus | minus => cases ht
    | @radix l' _ h' =>
      obtain ⟨rfl,-⟩ : l = l' ∧ digits = digits' := by simpa using ht
      rw [← prefixRadix_eq_some_iff] at h h'
      exact ⟨rfl,Option.some.inj (h'.symm.trans h),rfl⟩

namespace JSBigInt
variable {p : Platform} {heap : Storage p}

/-- When the parser accepts the characters after a mark. -/
structure Accepts (p : Platform) (spaceSeparator : Nat → Bool) (mark tail : List Nat) (radix : Nat) : Prop where
  nonempty : mark.length = 2 → tail ≠ []
  digits : ∀ c ∈ tail.rdropWhile (isStrWhiteSpace spaceSeparator), IsDigit radix c
  fits : EstimateFits p radix
    ((tail.rdropWhile (isStrWhiteSpace spaceSeparator)).dropWhile (· == zeroChar)).length

/-- Success exactly on accepted characters, with the value they denote. -/
def Settles (p : Platform) (spaceSeparator : Nat → Bool) (mark tail : List Nat) (radix : Nat) (sign : Bool)
    (outcome : ParseOutcome) : Prop :=
  (∀ r, outcome = .ok (some r) → Accepts p spaceSeparator mark tail radix) ∧
    (Accepts p spaceSeparator mark tail radix → ∃ r, outcome = .ok (some r) ∧
      Represents p r (signedValue sign (numeralValue radix (tail.rdropWhile (isStrWhiteSpace spaceSeparator)))))

variable {radix : Nat} {sign : Bool}

theorem parseIntFrom_settles {l mark tail : List Nat} (hm : Mark mark radix sign)
    (m : ErrorParseMode) (sign' : ParseIntSign) :
    Settles p spaceSeparator mark tail radix (sign' == .signed)
      (parseIntFrom heap spaceSeparator (l ++ (mark ++ tail)) (l.length+mark.length) radix m sign'
        (if mark.length = 2 then .disallowEmptyString else .allowEmptyString)) := by
  obtain ⟨h2,h36⟩ := hm.radix_range
  have hdr : (l ++ (mark ++ tail)).drop (l.length+mark.length) = tail := by
    rw [← append_assoc,← length_append,drop_left]
  have hen : (if mark.length = 2 then ParseIntMode.disallowEmptyString else .allowEmptyString) = .allowEmptyString ∨
      l.length + mark.length ≠ (l ++ (mark ++ tail)).length ↔ (mark.length = 2 → tail ≠ []) := by
    split_ifs with h
    · simp [h,← Nat.add_assoc]
    · simp [h]
  constructor
  · intro r hr
    obtain ⟨he,hdg,hf⟩ := parseIntFrom_accepted h2 h36 hr
    rw [hdr,significant_eq] at hdg hf
    exact ⟨hen.1 he,(forall_isDigit_dropWhile h2).1 hdg,hf⟩
  · intro h
    obtain ⟨r,hr,hv⟩ := @parseIntFrom_accepts p heap _ spaceSeparator _ h2 h36 _ _ m sign'
      (hen.2 h.nonempty)
      (by rw [hdr,significant_eq]; exact (forall_isDigit_dropWhile h2).2 h.digits)
      (by rw [hdr,significant_eq]; exact h.fits)
    rw [hdr,significant_eq,numeralValue_dropWhile] at hv
    exact ⟨r,hr,hv⟩

private theorem setSign_represents {r : JSBigInt} {n : Nat} (h : Represents p r (signedValue sign n)) :
    Represents p (if r.isZero then r else r.setSign sign) (signedValue sign n) := by
  split_ifs with hz
  · exact h
  · suffices hs : r.sign = sign by
      rw [show r.setSign sign = r by rw [← hs]; rfl]
      exact h
    have hp : r.magnitude p ≠ 0 := by
      rw [Ne,magnitude_eq_zero_iff h.normalized,← isZero_iff]
      exact hz
    have hv := h.value
    revert hv
    rw [toInt]
    cases r.sign <;> cases sign <;> simp [signedValue] <;> omega

theorem Settles.setSign {mark tail : List Nat} {o : ParseOutcome}
    (h : Settles p spaceSeparator mark tail radix sign o) :
    Settles p spaceSeparator mark tail radix sign
      (o >>= fun rs => pure (rs.map fun rs => if rs.isZero then rs else rs.setSign sign)) := by
  constructor
  · intro r hr
    match o, hr with
    | .ok (some r'), _ => exact h.1 r' rfl
  · intro ha
    obtain ⟨r,rfl,hv⟩ := h.2 ha
    exact ⟨_,rfl,setSign_represents hv⟩

/-- Which mark the optional sign is, and that the digits after it are settled. -/
theorem parseIntSigned_settles (l r : List Nat) (m : ErrorParseMode) :
    ∃ mark sign tail, Mark mark 10 sign ∧ r = mark ++ tail ∧
      (mark = [] → ∀ c ∈ tail.head?, c ≠ plusChar ∧ c ≠ minusChar) ∧
      Settles p spaceSeparator mark tail 10 sign
        (parseIntSigned heap spaceSeparator (l ++ r) l.length m) := by
  have hh : (l ++ r)[l.length]? = r.head? := by
    rw [getElem?_append_right le_rfl,Nat.sub_self,head?_eq_getElem?]
  rw [parseIntSigned,hh]
  by_cases hp : r.head? = some plusChar
  · obtain ⟨tail,rfl⟩ := head?_eq_some_iff.1 hp
    refine ⟨[plusChar],false,tail,.plus,rfl,by simp,?_⟩
    exact (parseIntFrom_settles .plus m .unsigned).setSign
  by_cases hm : r.head? = some minusChar
  · obtain ⟨tail,rfl⟩ := head?_eq_some_iff.1 hm
    refine ⟨[minusChar],true,tail,.minus,rfl,by simp,?_⟩
    exact (parseIntFrom_settles .minus m .signed).setSign
  · refine ⟨[],false,r,.none,rfl,?_,?_⟩
    · rintro - c hc
      exact ⟨fun he => hp (he ▸ hc),fun he => hm (he ▸ hc)⟩
    · rw [if_neg hm,if_neg (by tauto)]
      exact (parseIntFrom_settles .none m .unsigned).setSign

/-- The mark that the parser recognises after white space, and what follows. -/
structure Reads (spaceSeparator : Nat → Bool) (data mark tail : List Nat) (radix : Nat) (sign : Bool) : Prop where
  isMark : Mark mark radix sign
  located : data.dropWhile (isStrWhiteSpace spaceSeparator) = mark ++ tail
  first : mark = [] → ∀ c ∈ tail.head?, c ≠ plusChar ∧ c ≠ minusChar
  second : mark = [] → ∀ letter more r, tail = zeroChar :: letter :: more → (letter, r) ∉ radixLetters

private theorem parseInt_settles (data : List Nat) (m : ErrorParseMode) :
    ∃ mark radix sign tail, Reads spaceSeparator data mark tail radix sign ∧
      Settles p spaceSeparator mark tail radix sign (parseInt heap spaceSeparator data m) := by
  have hdt := @takeWhile_append_dropWhile _ (isStrWhiteSpace spaceSeparator) data
  rw [parseInt]
  generalize data.takeWhile (isStrWhiteSpace spaceSeparator) = l at *
  generalize hrs : data.dropWhile (isStrWhiteSpace spaceSeparator) = rs at *
  subst hdt
  have hh : (l ++ rs)[l.length]? = rs.head? := by
    rw [getElem?_append_right le_rfl,Nat.sub_self,head?_eq_getElem?]
  -- Without a radix mark the sign is looked for, and no radix letter follows a leading zero.
  have hs (hn : ∀ letter more r, rs = zeroChar :: letter :: more → (letter, r) ∉ radixLetters) :
      ∃ mark radix sign tail, Reads spaceSeparator (l ++ rs) mark tail radix sign ∧
        Settles p spaceSeparator mark tail radix sign
          (parseIntSigned heap spaceSeparator (l ++ rs) l.length m) := by
    obtain ⟨mark,sign,tail,hm,ht,hf,hst⟩ := @parseIntSigned_settles spaceSeparator p heap l rs m
    refine ⟨mark,10,sign,tail,⟨hm,hrs.trans ht,hf,?_⟩,hst⟩
    rintro rfl
    rw [nil_append] at ht
    exact ht ▸ hn
  split_ifs with hzr
  · obtain ⟨hln,hz⟩ := hzr
    obtain ⟨letter,tail,rfl⟩ : ∃ letter tail, rs = zeroChar::letter::tail := by
      obtain ⟨more,rfl⟩ := head?_eq_some_iff.1 (hh ▸ hz)
      cases more with
      | nil => simp at hln
      | cons letter tail => exact ⟨letter,tail,rfl⟩
    have hl : (l ++ zeroChar::letter::tail).getD (l.length+1) 0 = letter := by
      simp [getD_eq_getElem?_getD]
    rw [hl]
    cases hr : prefixRadix letter with
    | some radix =>
      have hm := Mark.radix (prefixRadix_eq_some_iff.1 hr)
      exact ⟨_,radix,false,tail,⟨hm,hrs,by simp,by simp⟩,parseIntFrom_settles hm m .unsigned⟩
    | none =>
      apply hs
      intro letter' more r he hmm
      obtain ⟨rfl,-⟩ : letter = letter' ∧ tail = more := by simpa using he
      rw [← prefixRadix_eq_some_iff,hr] at hmm
      cases hmm
  · apply hs
    rintro letter more r rfl
    exact absurd ⟨by simp,hh⟩ hzr

/-- Conversion succeeds exactly on the grammar, with the denoted integer. -/
def ConvertsExactly {p : Platform} (heap : Storage p) (spaceSeparator : Nat → Bool) (data : List Nat)
    (mode : ErrorParseMode) : Prop :=
  (∀ r, parseInt heap spaceSeparator data mode = .ok (some r) →
      ∃ v, Denotes (strip spaceSeparator data) v ∧ Represents p r v) ∧
    ∀ v, Denotes (strip spaceSeparator data) v →
      ∃ r, parseInt heap spaceSeparator data mode = .ok (some r) ∧ Represents p r v

/-- No mark without digits that the parser lets pass, and no numeral whose estimated size exceeds the largest cell. -/
structure Convertible (p : Platform) (spaceSeparator : Nat → Bool) (data : List Nat) : Prop where
  sign_followed : strip spaceSeparator data ≠ [plusChar] ∧ strip spaceSeparator data ≠ [minusChar]
  radix_followed : ∀ letter radix, (letter, radix) ∈ radixLetters →
    strip spaceSeparator data = [zeroChar, letter] → ¬ EndsInWhiteSpace spaceSeparator data
  fits : ∀ radix sign digits, Spells (strip spaceSeparator data) radix sign digits →
    EstimateFits p radix (digits.dropWhile (· == zeroChar)).length

section
variable {data mark tail : List Nat} {radix : Nat} {sign : Bool}

section
variable (h : Reads spaceSeparator data mark tail radix sign)
include h

theorem Reads.strip_eq : strip spaceSeparator data = mark ++ tail.rdropWhile (isStrWhiteSpace spaceSeparator) := by
  rw [strip,h.located,Base.rdropWhile_append_of_kept h.isMark.not_isStrWhiteSpace]

/-- The recognised mark is the only one the grammar allows. -/
theorem Reads.unique {mark' ds' : List Nat} {radix' : Nat}
    {sign' : Bool} (hm' : Mark mark' radix' sign') (ht : strip spaceSeparator data = mark' ++ ds')
    (hdg : ∀ c ∈ ds', IsDigit radix' c) :
    mark' = mark ∧ radix' = radix ∧ sign' = sign ∧ ds' = tail.rdropWhile (isStrWhiteSpace spaceSeparator) := by
  rw [h.strip_eq] at ht
  obtain ⟨m,htl⟩ := rdropWhile_prefix (isStrWhiteSpace spaceSeparator) tail
  obtain ⟨rfl,rfl,rfl⟩ := h.isMark.unique hm' ht hdg
    (fun hn c hc => h.first hn c (by rw [← htl,head?_append,hc]; rfl))
    (fun hn l rs r hr => h.second hn l (rs ++ m) r (by rw [← htl,hr]; rfl))
  exact ⟨rfl,rfl,rfl,(append_cancel_left ht).symm⟩

theorem Reads.spells_iff {radix' : Nat} {sign' : Bool}
    {ds' : List Nat} :
    Spells (strip spaceSeparator data) radix' sign' ds' ↔
      (radix' = radix ∧ sign' = sign ∧ ds' = tail.rdropWhile (isStrWhiteSpace spaceSeparator)) ∧
      (∀ c ∈ ds', IsDigit radix' c) ∧ (ds' = [] → mark = []) := by
  constructor
  · rintro ⟨mark',hm',ht,hdg,hn⟩
    obtain ⟨rfl,rfl,rfl,rfl⟩ := h.unique hm' ht hdg
    exact ⟨⟨rfl,rfl,rfl⟩,hdg,hn⟩
  · rintro ⟨⟨rfl,rfl,rfl⟩,hdg,hn⟩
    exact ⟨mark,h.isMark,h.strip_eq,hdg,hn⟩

theorem Reads.endsInWhiteSpace_iff (hn : mark ≠ [])
    (ht : tail.rdropWhile (isStrWhiteSpace spaceSeparator) = []) :
    EndsInWhiteSpace spaceSeparator data ↔ tail ≠ [] := by
  rw [EndsInWhiteSpace,← @takeWhile_append_dropWhile _ (isStrWhiteSpace spaceSeparator) data,h.located]
  constructor
  · rintro ⟨c,hc,hw⟩ rfl
    obtain ⟨last,hl⟩ : ∃ last, mark.getLast? = some last := ⟨_,getLast?_eq_some_getLast hn⟩
    rw [append_nil,getLast?_append,hl] at hc
    obtain rfl : last = c := Option.some.inj hc
    rw [h.isMark.not_isStrWhiteSpace last (mem_of_getLast? hl)] at hw
    cases hw
  · intro ht'
    obtain ⟨last,hl⟩ : ∃ last, tail.getLast? = some last := ⟨_,getLast?_eq_some_getLast ht'⟩
    refine ⟨last,by simp [hl],?_⟩
    exact rdropWhile_eq_nil_iff.1 ht last (mem_of_getLast? hl)

/-- A mark without digits passes unless it is a radix mark at the very end. -/
theorem Reads.convertible_iff : Convertible p spaceSeparator data ↔
      (tail.rdropWhile (isStrWhiteSpace spaceSeparator) = [] → mark ≠ [] → mark.length = 2 ∧ tail = []) ∧
      (Spells (strip spaceSeparator data) radix sign (tail.rdropWhile (isStrWhiteSpace spaceSeparator)) →
        EstimateFits p radix
          ((tail.rdropWhile (isStrWhiteSpace spaceSeparator)).dropWhile (· == zeroChar)).length) := by
  constructor
  · intro hc
    refine ⟨fun hn hne => ?_,hc.fits radix sign _⟩
    have hen := h.endsInWhiteSpace_iff hne hn
    have hst := h.strip_eq
    rw [hn,append_nil] at hst
    have hsg := hc.sign_followed
    rw [hst] at hsg
    cases h.isMark with
    | none => exact absurd rfl hne
    | plus => exact absurd rfl hsg.1
    | minus => exact absurd rfl hsg.2
    | radix hl =>
      refine ⟨rfl,?_⟩
      by_contra ht
      exact hc.radix_followed _ _ hl hst (hen.2 ht)
  · rintro ⟨hb,hf⟩
    have hm {mark' : List Nat} {radix' : Nat} {sign' : Bool} (hmr' : Mark mark' radix' sign')
        (hne : mark' ≠ []) (hst : strip spaceSeparator data = mark') :
        mark'.length = 2 ∧ ¬ EndsInWhiteSpace spaceSeparator data := by
      obtain ⟨rfl,-,-,hn⟩ := h.unique hmr' (hst.trans (append_nil _).symm) (by simp)
      obtain ⟨hln,ht⟩ := hb hn.symm hne
      exact ⟨hln,fun hen => (h.endsInWhiteSpace_iff hne hn.symm).1 hen ht⟩
    refine ⟨⟨fun he => ?_,fun he => ?_⟩,fun l radix hl he => ?_,?_⟩
    · exact absurd (hm .plus (by simp) he).1 (by simp)
    · exact absurd (hm .minus (by simp) he).1 (by simp)
    · exact (hm (.radix hl) (by simp) he).2
    · intro radix' sign' ds' hs
      obtain ⟨⟨rfl,rfl,rfl⟩,-⟩ := h.spells_iff.1 hs
      exact hf hs

end

end

/-- String conversion is exact on every convertible string and on no other. -/
theorem parseInt_convertsExactly_iff (heap : Storage p) (spaceSeparator : Nat → Bool) (data : List Nat)
    (mode : ErrorParseMode) :
    ConvertsExactly heap spaceSeparator data mode ↔ Convertible p spaceSeparator data := by
  obtain ⟨mark,radix,sign,tail,h,hac,ha⟩ := @parseInt_settles spaceSeparator p heap data mode
  rw [h.convertible_iff,h.spells_iff]
  constructor
  · rintro ⟨hsn,hc⟩
    constructor
    · intro hn hne
      by_contra hb
      have hacc : Accepts p spaceSeparator mark tail radix :=
        ⟨fun hl ht => hb ⟨hl,ht⟩,by simp [hn],by simp [hn,EstimateFits]⟩
      obtain ⟨r,hr,-⟩ := ha hacc
      obtain ⟨v,⟨radix',sign',digits',hs,-⟩,-⟩ := hsn r hr
      obtain ⟨⟨-,-,rfl⟩,-,hm⟩ := h.spells_iff.1 hs
      exact hne (hm hn)
    · intro hs
      obtain ⟨r,hr,-⟩ := hc _ ⟨_,_,_,h.spells_iff.2 hs,rfl⟩
      exact (hac r hr).fits
  · rintro ⟨hb,hf⟩
    constructor
    · intro r hr
      have hacc := hac r hr
      obtain ⟨r',hr',hv⟩ := ha hacc
      obtain rfl : r = r' := by simpa using hr.symm.trans hr'
      refine ⟨_,⟨radix,sign,_,h.spells_iff.2 ⟨⟨rfl,rfl,rfl⟩,hacc.digits,fun hn => ?_⟩,rfl⟩,hv⟩
      by_contra hne
      obtain ⟨hl,ht⟩ := hb hn hne
      exact hacc.nonempty hl ht
    · rintro v ⟨radix',sign',digits',hs,rfl⟩
      obtain ⟨⟨rfl,rfl,rfl⟩,hdg,hn⟩ := h.spells_iff.1 hs
      apply ha
      refine ⟨fun hl ht => ?_,hdg,hf ⟨⟨rfl,rfl,rfl⟩,hdg,hn⟩⟩
      rw [hn (by rw [ht]; rfl)] at hl
      cases hl

/-- A mark without digits, which the grammar rejects. -/
theorem not_denotes_mark {mark : List Nat} (hm : Mark mark radix sign)
    (hne : mark ≠ []) (v : Int) : ¬ Denotes mark v := by
  rintro ⟨radix',sign',ds,⟨mark',hm',ht,hdg,hn⟩,-⟩
  obtain ⟨rfl,-,-⟩ := hm.unique hm' ((append_nil mark).trans ht) hdg (by simp) (by simp)
  exact hne (hn (append_cancel_left ((append_nil mark').trans ht)).symm)

/-- A lone minus sign and a radix mark followed by a space are converted to zero. -/
theorem parseInt_accepts_bare_marks :
    parseInt (onesStorage platform64) (fun _ => false) [minusChar] .throwExceptions = .ok (some createZero) ∧
      (∀ v, ¬ Denotes (strip (fun _ => false) [minusChar]) v) ∧
      parseInt (onesStorage platform64) (fun _ => false) [zeroChar, 'x'.toNat, ' '.toNat] .throwExceptions =
        .ok (some createZero) ∧
      ∀ v, ¬ Denotes (strip (fun _ => false) [zeroChar, 'x'.toNat, ' '.toNat]) v := by
  refine ⟨by decide,fun v => ?_,by decide,fun v => ?_⟩
  · exact not_denotes_mark .minus (by simp) v
  · exact not_denotes_mark (@Mark.radix 'x'.toNat 16 (by decide)) (by simp) v

end JSBigInt
end
end WebKit.JavaScriptCore.BigInt
