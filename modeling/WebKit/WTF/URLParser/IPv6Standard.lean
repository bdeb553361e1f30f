import WebKit.WTF.URLParser.IPv6Ignored

/-! The IPv6 addresses of the URL Standard, and what the loops over the digits of a piece accept. -/
namespace WebKit.WTF.URLParser
open List Option Nat

/-- One to four hexadecimal digits. -/
structure Piece (text : List Nat) (value : Nat) : Prop where
  pos : 0 < text.length
  le : text.length ≤ 4
  eq : digits 16 0 text = some value

/-- A decimal byte without leading zeros. -/
structure DecimalByte (text : List Nat) (value : Nat) : Prop where
  pos : 0 < text.length
  eq : digits 10 0 text = some value
  le : value ≤ 255
  leadingZero : text.head? = some 0x30 → text.length = 1

/-- Four decimal bytes between dots: the two pieces that they stand for. -/
inductive Quad : List Nat → Nat → Nat → Prop where
  | mk {t u v w : List Nat} {a b c d : Nat} (ha : DecimalByte t a) (hb : DecimalByte u b) (hc : DecimalByte v c)
    (hd : DecimalByte w d) : Quad (t ++ dot :: (u ++ dot :: (v ++ dot::w))) (a*256+b) (c*256+d)

/-- Pieces between colons, at least one; the flag says whether the last two are four decimal bytes. -/
inductive Listed : Bool → List Nat → List Nat → Prop where
  | piece {text : List Nat} {value : Nat} (h : Piece text value) : Listed false text [value]
  | quad {text : List Nat} {high low : Nat} (h : Quad text high low) : Listed true text [high, low]
  | cons {quad : Bool} {text rest : List Nat} {value : Nat} {values : List Nat} (h : Piece text value)
    (hrest : Listed quad rest values) : Listed quad (text ++ colon::rest) (value::values)

theorem Listed.length_pos {q : Bool} {text vs : List Nat} (h : Listed q text vs) : 0 < vs.length := by
  cases h <;> exact succ_pos _

def ListedOrEmpty (quad : Bool) (text values : List Nat) : Prop := Listed quad text values ∨ (text = [] ∧ values = [])

inductive Denotes : List Nat → List Nat → Prop where
  | full {quad : Bool} {text address : List Nat} (h : Listed quad text address) (hlength : address.length = 8) : Denotes text address
  | compressed {quad : Bool} {left right before after : List Nat} (hleft : ListedOrEmpty false left before)
    (hright : ListedOrEmpty quad right after) (hlength : before.length + after.length ≤ 7) :
    Denotes (left ++ colon::colon::right) (before ++ List.replicate (8-before.length-after.length) 0 ++ after)

section Decimal
variable {p v : Nat} {z : Bool} {text tail c : List Nat} {d : Nat}

theorem digit_of_ten {x : Nat} (h : digitOf 10 d = some x) : isASCIIDigit d ∧ x = d - 0x30 := by
  rw [digitOf_ten] at h
  split_ifs at h with hdg
  exact ⟨hdg,(some.inj h).symm⟩

theorem ne_dot_of_digit {base x : Nat} (h : digitOf base d = some x) : d ≠ dot := by
  rintro rfl
  cases h

theorem digit_pos (hdg : isASCIIDigit d) (hp : p = 0 → d ≠ 0x30) : 0 < p*10 + (d-0x30) := by
  simp only [isASCIIDigit,Bool.and_eq_true,decide_eq_true_iff] at hdg
  omega

theorem zero_flag (hp : p = 0 → d ≠ 0x30) : (z || (decide (p = 0) && decide (d = 0x30))) = z := by
  by_cases hz : p = 0
  · simp [hp hz]
  · simp [hz]

/-- Without a leading zero the loop reads digits up to a dot or the end. -/
theorem pieceInsideIPv6Loop_digits (hp : p = 0 → text.head? ≠ some 0x30) (hdi : digits 10 p text = some v) (hv : v ≤ 255)
    (ht : Ends tail) (hs : text = [] → tail = []) : pieceInsideIPv6Loop plain p z (text ++ tail) = some (v, z, tail) := by
  induction text generalizing p with
  | nil => rw [hs rfl,← some.inj hdi,nil_append,pieceInsideIPv6Loop]
  | cons d rest ih =>
    have hd : p = 0 → d ≠ 0x30 := fun hz he => hp hz (congrArg some he)
    rw [digits_cons] at hdi
    obtain ⟨x,hx,hdi⟩ := bind_eq_some_iff.1 hdi
    have hl := le_digits (by decide) hdi
    obtain ⟨hdg,rfl⟩ := digit_of_ten hx
    have hps := digit_pos hdg hd
    rw [cons_append,pieceInsideIPv6Loop,if_neg (not_not.2 hdg),if_neg (fun h => hd h.1 h.2.1),if_neg (by omega),
      advance_plain,zero_flag hd]
    cases rest with
    | nil =>
      rw [nil_append,← some.inj hdi]
      split_ifs with hdt
      · rfl
      · have hnl : tail = [] := by
          cases tail with
          | nil => rfl
          | cons e a => exact absurd (congrArg some (ht e rfl)) hdt
        rw [hnl,pieceInsideIPv6Loop]
    | cons e rest =>
      have hn : ((e::rest) ++ tail).head? ≠ some dot := by
        rw [digits_cons] at hdi
        obtain ⟨y,hy,-⟩ := bind_eq_some_iff.1 hdi
        exact fun he => ne_dot_of_digit hy (some.inj he)
      rw [if_neg hn]
      exact ih (fun hz => absurd hz (ne_of_gt hps)) hdi (fun h => absurd h (cons_ne_nil _ _))

theorem digits_of_pieceInsideIPv6Loop (hp : p = 0 → c.head? ≠ some 0x30) (hle : p ≤ 255) {z' : Bool}
    (h : pieceInsideIPv6Loop plain p z c = some (v, z', tail)) :
    z' = z ∧ ∃ text, c = text ++ tail ∧ digits 10 p text = some v ∧ v ≤ 255 ∧ Ends tail ∧ (c ≠ [] → text ≠ []) := by
  fun_induction pieceInsideIPv6Loop plain p z c with
  | case1 p z =>
    cases h
    exact ⟨rfl,[],rfl,rfl,hle,ends_nil,fun hc => absurd rfl hc⟩
  | case2 p z d rest hdg => cases h
  | case3 p z d rest hdg hz => cases h
  | case4 p z d rest hdg hz hl => cases h
  | case5 p z d rest hdg hz hl hdt =>
    have hd : p = 0 → d ≠ 0x30 := fun hzr heq => hp hzr (congrArg some heq)
    rw [advance_plain] at h hdt
    cases h
    refine ⟨zero_flag hd,[d],rfl,?_,by omega,fun e he => ?_,fun _ => cons_ne_nil _ _⟩
    · rw [digits_cons,digitOf_ten,if_pos (not_not.1 hdg)]
      rfl
    · rw [hdt] at he
      exact (some.inj he).symm
  | case6 p z d rest hdg hz hl hdt ih =>
    have hd : p = 0 → d ≠ 0x30 := fun hzr heq => hp hzr (congrArg some heq)
    have hps := digit_pos (not_not.1 hdg) hd
    obtain ⟨rfl,text,ht,hdi,hv,htl,-⟩ := ih (fun hzr => absurd hzr (ne_of_gt hps)) (by omega) h
    rw [advance_plain] at ht
    refine ⟨zero_flag hd,d::text,by rw [ht,cons_append],?_,hv,htl,fun _ => cons_ne_nil _ _⟩
    rw [digits_cons,digitOf_ten,if_pos (not_not.1 hdg)]
    exact hdi

theorem pieceInsideIPv6Loop_zero :
    pieceInsideIPv6Loop plain 0 false (0x30 :: c) =
      if c.head? = some dot then some (0, true, c) else pieceInsideIPv6Loop plain 0 true c := by
  rw [pieceInsideIPv6Loop,if_neg (by decide),if_neg (by decide),if_neg (by decide),advance_plain]
  rfl

/-- A zero is accepted only as the single digit. -/
theorem ends_of_zero (h : parseIPv4PieceInsideIPv6 plain (0x30 :: c) = some (v, tail)) : v = 0 ∧ tail = c ∧ Ends c := by
  rw [parseIPv4PieceInsideIPv6,if_neg (cons_ne_nil _ _),pieceInsideIPv6Loop_zero] at h
  split_ifs at h with hdt
  · cases h
    exact ⟨rfl,rfl,fun e he => (some.inj (he.symm.trans hdt))⟩
  · cases c with
    | nil =>
      rw [pieceInsideIPv6Loop] at h
      cases h
      exact ⟨rfl,rfl,ends_nil⟩
    | cons e a =>
      obtain ⟨⟨w,z',t⟩,hl,hf⟩ := bind_eq_some_iff.1 h
      by_cases he : e = 0x30
      · subst he
        rw [pieceInsideIPv6Loop,if_neg (by decide),if_pos (by decide)] at hl
        cases hl
      · have hh : (0 : Nat) = 0 → (e::a).head? ≠ some 0x30 := fun _ heq => he (some.inj heq)
        obtain ⟨rfl,text,ht,hdi,-,-,hn⟩ := digits_of_pieceInsideIPv6Loop hh (by decide) hl
        -- the value is not zero, since its first digit is not
        have hp : 0 < w := by
          obtain ⟨d,rest,rfl⟩ := exists_cons_of_ne_nil (hn (cons_ne_nil _ _))
          obtain ⟨rfl,-⟩ := List.cons.inj ht
          rw [digits_cons] at hdi
          obtain ⟨x,hx,hdi⟩ := bind_eq_some_iff.1 hdi
          obtain ⟨hdg,rfl⟩ := digit_of_ten hx
          exact (digit_pos hdg (fun _ => he)).trans_le (le_digits (by decide) hdi)
        dsimp only at hf
        rw [if_pos ⟨ne_of_gt hp,rfl⟩] at hf
        cases hf

/-- Decimal bytes before a dot or the end are accepted. -/
theorem parseIPv4PieceInsideIPv6_iff :
    parseIPv4PieceInsideIPv6 plain c = some (v, tail) ↔ ∃ text, c = text ++ tail ∧ DecimalByte text v ∧ Ends tail := by
  constructor
  · intro h
    cases c with
    | nil => cases h
    | cons d rest =>
      by_cases hd : d = 0x30
      · subst hd
        obtain ⟨rfl,rfl,ht⟩ := ends_of_zero h
        exact ⟨[0x30],rfl,⟨by decide,rfl,by decide,fun _ => rfl⟩,ht⟩
      · have hh : (0 : Nat) = 0 → (d::rest).head? ≠ some 0x30 := fun _ he => hd (some.inj he)
        obtain ⟨⟨w,z',t⟩,hl,hf⟩ := bind_eq_some_iff.1 h
        obtain ⟨rfl,text,htx,hdg,hle,ht,hn⟩ := digits_of_pieceInsideIPv6Loop hh (by decide) hl
        dsimp only at hf
        rw [if_neg (by simp)] at hf
        cases hf
        refine ⟨text,htx,⟨length_pos_iff.2 (hn (cons_ne_nil _ _)),hdg,hle,fun hz => ?_⟩,ht⟩
        obtain ⟨a,rfl⟩ := head?_eq_some_iff.1 hz
        exact absurd (List.cons.inj htx).1 hd
  · rintro ⟨text,rfl,hby,ht⟩
    obtain ⟨d,rest,rfl⟩ := exists_cons_of_ne_nil (length_pos_iff.1 hby.pos)
    rw [parseIPv4PieceInsideIPv6,if_neg (by simp)]
    by_cases hd : d = 0x30
    · subst hd
      obtain rfl : rest = [] := length_eq_zero_iff.1 (succ.inj (hby.leadingZero rfl))
      obtain rfl : v = 0 := (some.inj hby.eq).symm
      rw [cons_append,nil_append,pieceInsideIPv6Loop_zero]
      cases tail with
      | nil =>
        rw [if_neg (by simp),pieceInsideIPv6Loop]
        rfl
      | cons e a =>
        rw [if_pos (show (e::a).head? = some dot from congrArg some (ht e rfl))]
        rfl
    · have hh : (0 : Nat) = 0 → (d::rest).head? ≠ some 0x30 := fun _ he => hd (some.inj he)
      rw [pieceInsideIPv6Loop_digits hh hby.eq hby.le ht (fun h => absurd h (cons_ne_nil _ _))]
      exact if_neg (by simp)

variable {address : Nat}

private theorem addressInsideIPv6Loop_zero_iff {r : Nat} : addressInsideIPv6Loop plain 0 address c = some r ↔
      ∃ v, DecimalByte c v ∧ r = ((address <<< 8) + v)%2^32 := by
  rw [addressInsideIPv6Loop]
  constructor
  · intro h
    obtain ⟨⟨v,tail⟩,hp,hf⟩ := bind_eq_some_iff.1 h
    obtain ⟨text,rfl,hby,-⟩ := parseIPv4PieceInsideIPv6_iff.1 hp
    dsimp only at hf
    split_ifs at hf with hn
    subst hn
    rw [append_nil]
    exact ⟨v,hby,(some.inj hf).symm⟩
  · rintro ⟨v,hby,rfl⟩
    rw [parseIPv4PieceInsideIPv6_iff.2 ⟨c,(append_nil c).symm,hby,ends_nil⟩]
    rfl

private theorem addressInsideIPv6Loop_succ_iff {rs result : Nat} :
    addressInsideIPv6Loop plain (rs+1) address c = some result ↔
      ∃ text v rest, c = text ++ dot :: rest ∧ DecimalByte text v ∧
        addressInsideIPv6Loop plain rs (((address <<< 8) + v)%2^32) rest = some result := by
  rw [addressInsideIPv6Loop]
  constructor
  · intro h
    obtain ⟨⟨v,tail⟩,hp,hf⟩ := bind_eq_some_iff.1 h
    obtain ⟨text,rfl,hby,-⟩ := parseIPv4PieceInsideIPv6_iff.1 hp
    dsimp only at hf
    split_ifs at hf with hdt
    obtain ⟨rest,rfl⟩ := head?_eq_some_iff.1 hdt
    rw [advance_plain] at hf
    exact ⟨text,v,rest,rfl,hby,hf⟩
  · rintro ⟨text,v,rest,rfl,hby,h⟩
    rw [parseIPv4PieceInsideIPv6_iff.2 ⟨text,rfl,hby,ends_dot rest⟩]
    dsimp only [bind_eq_bind,bind_some]
    rw [if_pos (show (dot::rest).head? = some dot from rfl),advance_plain]
    exact h

/-- Just four decimal bytes are accepted. -/
theorem parseIPv4AddressInsideIPv6_iff :
    parseIPv4AddressInsideIPv6 plain c = some address ↔ ∃ hg low, Quad c hg low ∧ address = hg*65536 + low := by
  constructor
  · intro h
    obtain ⟨t,a,_,rfl,ha,h⟩ := addressInsideIPv6Loop_succ_iff.1 h
    obtain ⟨u,b,_,rfl,hb,h⟩ := addressInsideIPv6Loop_succ_iff.1 h
    obtain ⟨v,c,_,rfl,hc,h⟩ := addressInsideIPv6Loop_succ_iff.1 h
    obtain ⟨d,hd,rfl⟩ := addressInsideIPv6Loop_zero_iff.1 h
    refine ⟨_,_,.mk ha hb hc hd,?_⟩
    have := ha.le
    have := hb.le
    have := hc.le
    have := hd.le
    omega
  · rintro ⟨hg,low,⟨ha,hb,hc,hd⟩,rfl⟩
    refine addressInsideIPv6Loop_succ_iff.2 ⟨_,_,_,rfl,ha,addressInsideIPv6Loop_succ_iff.2 ⟨_,_,_,rfl,hb,
      addressInsideIPv6Loop_succ_iff.2 ⟨_,_,_,rfl,hc,addressInsideIPv6Loop_zero_iff.2 ⟨_,hd,?_⟩⟩⟩⟩
    have := ha.le
    have := hb.le
    have := hc.le
    have := hd.le
    omega

theorem Quad.lt {hg l : Nat} (h : Quad c hg l) : hg < 2^16 ∧ l < 2^16 := by
  cases h with
  | mk ha hb hc hd =>
    have := ha.le
    have := hb.le
    have := hc.le
    have := hd.le
    omega

end Decimal

section Hex
variable {text rest : List Nat} {v : Nat}

private theorem digit_of_sixteen {d x : Nat} (h : digitOf 16 d = some x) : isASCIIHexDigit d ∧ x = toASCIIHexValue d := by
  rw [digitOf_sixteen] at h
  split_ifs at h with hdg
  exact ⟨hdg,(some.inj h).symm⟩

theorem append_hex {length vl x : Nat} (hx : x < 16) (hv : (vl+1)*16^(length+1) ≤ 2^16) :
    (vl*0x10+x)%2^16 = vl*16 + x ∧ (vl*16+x+1)*16^length ≤ 2^16 := by
  have hl : (vl*16+x+1)*16^length ≤ 2^16 := by
    calc (vl*16+x+1)*16^length ≤ ((vl+1)*16)*16^length := mul_le_mul_right _ (by omega)
      _ = (vl+1)*16^(length+1) := by rw [mul_assoc,pow_succ']
      _ ≤ 2^16 := hv
  have ho : 1 ≤ 16^length := one_le_pow _ _ (by decide)
  have hlt : vl*16 + x + 1 ≤ 2^16 := (Nat.le_mul_of_pos_right _ ho).trans hl
  exact ⟨mod_eq_of_lt (by omega),hl⟩

theorem hexDigitsLoop_digits {l vl : Nat} (hv : (vl+1)*16^l ≤ 2^16)
    (ht : digits 16 vl text = some v) (h : text.length ≤ l)
    (hr : text.length = l ∨ ∀ e ∈ rest.head?, digitOf 16 e = none) :
    hexDigitsLoop plain l vl (text ++ rest) = (v, rest) := by
  induction text generalizing l vl with
  | nil =>
    obtain rfl := some.inj ht
    cases l with
    | zero => rw [hexDigitsLoop,nil_append]
    | succ l =>
      cases rest with
      | nil => rw [append_nil,hexDigitsLoop]
      | cons e rest =>
        have hn := hr.resolve_left (succ_ne_zero l).symm e rfl
        rw [digitOf_sixteen] at hn
        rw [nil_append,hexDigitsLoop,if_neg (fun hh => by rw [if_pos hh] at hn; cases hn)]
  | cons d text ih =>
    rw [digits_cons] at ht
    obtain ⟨x,hx,ht⟩ := bind_eq_some_iff.1 ht
    have hl := digitOf_lt hx
    obtain ⟨hh,rfl⟩ := digit_of_sixteen hx
    cases l with
    | zero => cases h
    | succ l =>
      obtain ⟨hm,hnx⟩ := append_hex hl hv
      rw [cons_append,hexDigitsLoop,if_pos hh,advance_plain,hm]
      exact ih hnx ht (le_of_succ_le_succ h) (hr.imp_left succ.inj)

theorem digits_of_hexDigitsLoop {l vl : Nat} (hv : (vl+1)*16^l ≤ 2^16) (c : List Nat) :
    ∃ text, c = text ++ (hexDigitsLoop plain l vl c).2 ∧ text.length ≤ l ∧
      digits 16 vl text = some (hexDigitsLoop plain l vl c).1 := by
  fun_induction hexDigitsLoop plain l vl c with
  | case1 vl c => exact ⟨[],rfl,le_refl 0,rfl⟩
  | case2 l vl => exact ⟨[],rfl,zero_le _,rfl⟩
  | case3 l vl d rest hh ih =>
    have hx : digitOf 16 d = some (toASCIIHexValue d) := by rw [digitOf_sixteen,if_pos hh]
    obtain ⟨hm,hn⟩ := append_hex (digitOf_lt hx) hv
    rw [hm] at ih ⊢
    obtain ⟨text,ht,h,hdg⟩ := ih hn
    rw [advance_plain] at ht hdg ⊢
    refine ⟨d::text,by rw [cons_append,← ht],succ_le_succ h,?_⟩
    rw [digits_cons,hx]
    exact hdg
  | case4 l vl d rest hh => exact ⟨[],rfl,zero_le _,rfl⟩

end Hex
end WebKit.WTF.URLParser
