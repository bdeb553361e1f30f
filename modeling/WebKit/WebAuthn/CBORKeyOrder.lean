import Mathlib.Data.List.Forall2
import WebKit.WebAuthn.CBORRoundTrip

/-! The order of the keys of a map in its encoding: numbers are in the canonical order, and strings as far as the order of
their 16-bit units is that of their UTF-8. -/
namespace WebKit.WebAuthn

open Base WTF List UInt64 Nat

def majorType (bytes : List UInt8) : Nat := (bytes.headD 0).toNat/32

/-- The canonical order of encoded keys: by major type, by length and byte by byte. -/
def WireLess (a b : List UInt8) : Prop :=
  majorType a < majorType b ∨ majorType a = majorType b ∧ (a.length < b.length ∨ a.length = b.length ∧ a < b)

/-- The order of texts by the length of their UTF-8, and byte by byte. -/
def Utf8Less (text text' : List Char) : Prop :=
  (utf8 text).length < (utf8 text').length ∨ (utf8 text).length = (utf8 text').length ∧ utf8 text < utf8 text'

/-- If both keys are strings, their UTF-8 is in order. -/
def InUtf8Order (a b : CBORValue) : Prop :=
  ∀ text text', a = .string (utf16 text) → b = .string (utf16 text') → Utf8Less text text'

/-- If both keys are strings, their 16-bit units are in order. -/
def InUnitOrder (a b : CBORValue) : Prop := ∀ s t, a = .string s → b = .string t → CTAPLess a b = true

def KeyCode : CBORValue → List UInt8 → Prop
  | .integer n, bytes => bytes = if 0 ≤ n then startItem .unsigned n.toUInt64 else startItem .negative (-(n+1)).toUInt64
  | .string s, bytes => ∃ text, s = utf16 text ∧ (utf8 text).length < 18446744073709551616 ∧
    bytes = startItem .string (.ofNat (utf8 text).length) ++ utf8 text
  | _, _ => False

section
variable {a b : List UInt8}

private theorem wireLess_irrefl (a : List UInt8) : ¬ WireLess a a := by
  rintro (h | ⟨-,h | ⟨-,h⟩⟩)
  · exact lt_irrefl _ h
  · exact lt_irrefl _ h
  · exact List.lt_irrefl _ h

theorem wireLess_asymm (h : WireLess a b) : ¬ WireLess b a := by
  intro h'
  obtain h | ⟨_,h | ⟨_,hl⟩⟩ := h <;> obtain h' | ⟨_,h' | ⟨_,hl'⟩⟩ := h' <;> try omega
  exact List.lt_asymm hl hl'

end

private theorem append_lt_append_iff {α : Type} [LT α] (hi : ∀ a : α, ¬ a < a) (l : List α) {s t : List α} :
    l ++ s < l ++ t ↔ s < t := by
  induction l with
  | nil => rfl
  | cons a l ih =>
    rw [cons_append,cons_append,cons_lt_cons_iff,ih]
    exact ⟨fun h => (h.resolve_left (hi a)).2,fun h => .inr ⟨rfl,h⟩⟩

theorem utf8_eq_of_utf16_eq {text text' : List Char} (h : utf16 text = utf16 text') : utf8 text = utf8 text' := by
  have hc := convertUTF16ToUTF8_utf16 true text le_rfl
  rw [h,convertUTF16ToUTF8_utf16 true text' le_rfl] at hc
  exact (Prod.mk.inj (Prod.mk.inj hc).2).2.symm

section
variable {key a b : CBORValue} {bytes bytes' : List UInt8}

theorem KeyCode.unique (h : KeyCode key bytes) (h' : KeyCode key bytes') : bytes = bytes' := by
  cases key with
  | integer n => exact h.trans h'.symm
  | string s =>
    obtain ⟨text,rfl,-,rfl⟩ := h
    obtain ⟨text',ht,-,rfl⟩ := h'
    rw [utf8_eq_of_utf16_eq ht]
  | _ => exact h.elim

theorem KeyCode.majorType_eq (h : KeyCode key bytes) : (majorType bytes : Int) = key.type.toInt := by
  cases key with
  | integer n =>
    obtain rfl : bytes = if 0 ≤ n then _ else _ := h
    change _ = ValueType.toInt (if 0 ≤ n then _ else _)
    have hh : ∀ {type : ValueType} {size : UInt64}, type ≠ .none → (majorType (startItem type size) : Int) = type.toInt := by
      intro type size ht
      have h := head_startItem ht size []
      rwa [append_nil] at h
    split_ifs with hn
    · exact hh (by decide)
    · exact hh (by decide)
  | string s =>
    obtain ⟨text,-,-,rfl⟩ := h
    exact head_startItem (by decide) _ _
  | _ => exact h.elim

theorem wireLess_integer {m n : Int64} (hs : 0 ≤ m ↔ 0 ≤ n) (hl : CTAPLess (.integer m) (.integer n))
    (ha : KeyCode (.integer m) bytes) (hb : KeyCode (.integer n) bytes') : WireLess bytes bytes' := by
  have hmj := ha.majorType_eq
  have hmj' := hb.majorType_eq
  have ht : (CBORValue.integer m).type = (CBORValue.integer n).type := if_congr hs rfl rfl
  refine .inr ⟨by rw [ht] at hmj; omega,?_⟩
  rw [ctapLess_integer hs] at hl
  obtain rfl : bytes = if 0 ≤ m then _ else _ := ha
  obtain rfl : bytes' = if 0 ≤ n then _ else _ := hb
  by_cases hm : 0 ≤ m
  · have hn := hs.1 hm
    rw [if_pos hm] at hl ⊢
    rw [if_pos hn]
    apply startItem_lt (by decide)
    have h := Int64.lt_iff_toInt_lt.1 hl
    rw [← toNat_toUInt64 hm,← toNat_toUInt64 hn] at h
    exact Int.ofNat_lt.1 h
  · have hn := mt hs.2 hm
    rw [if_neg hm] at hl ⊢
    rw [if_neg hn]
    apply startItem_lt (by decide)
    have h := Int64.lt_iff_toInt_lt.1 hl
    have hng : ∀ k : Int64, -(k+1) = -k - 1 := fun k => by grind
    have hm' := toNat_toUInt64 ((nonneg_neg_sub_one m).2 hm)
    have hn' := toNat_toUInt64 ((nonneg_neg_sub_one n).2 hn)
    rw [toInt_neg_sub_one] at hm' hn'
    rw [hng,hng]
    omega

/-- Texts are written in the canonical order just if their UTF-8 is in order. -/
theorem wireLess_string {text text' : List Char} (hl : (utf8 text).length < 18446744073709551616)
    (hl' : (utf8 text').length < 18446744073709551616) :
    WireLess (startItem .string (.ofNat (utf8 text).length) ++ utf8 text)
      (startItem .string (.ofNat (utf8 text').length) ++ utf8 text') ↔ Utf8Less text text' := by
  have hm := head_startItem (show ValueType.string ≠ .none by decide) (.ofNat (utf8 text).length) (utf8 text)
  have hm' := head_startItem (show ValueType.string ≠ .none by decide) (.ofNat (utf8 text').length) (utf8 text')
  have hs : ∀ {n : Nat}, n < 18446744073709551616 → (ofNat n).toNat = n := fun h => toNat_ofNat_of_lt' h
  have hmn : ∀ {m n : Nat}, m < n → n < 18446744073709551616 →
      getNumUintBytes (.ofNat m) ≤ getNumUintBytes (.ofNat n) := by
    intro m n hlt hn
    apply getNumUintBytes_mono
    rw [hs hn,hs (hlt.trans hn)]
    exact hlt.le
  rw [WireLess,Utf8Less,length_append,length_append,length_startItem,length_startItem]
  rw [majorType,majorType]
  obtain hlt | he | hg := lt_trichotomy (utf8 text).length (utf8 text').length
  · have := hmn hlt hl'
    exact ⟨fun _ => .inl hlt,fun _ => .inr ⟨by omega,.inl (by omega)⟩⟩
  · rw [he,append_lt_append_iff UInt8.lt_irrefl]
    rw [he] at hm
    constructor
    · rintro (h | ⟨-,h | ⟨-,h⟩⟩)
      · omega
      · omega
      · exact .inr ⟨rfl,h⟩
    · rintro (h | ⟨-,h⟩)
      · omega
      · exact .inr ⟨by omega,.inr ⟨rfl,h⟩⟩
  · have := hmn hg hl
    constructor
    · rintro (h | ⟨-,h | ⟨h,-⟩⟩) <;> omega
    · rintro (h | ⟨h,-⟩) <;> omega

/-- Keys in a map's order are written in the canonical order just if strings are in order as UTF-8. -/
theorem wireLess_iff_of_ctapLess (hl : CTAPLess a b) (ha : KeyCode a bytes) (hb : KeyCode b bytes') :
    WireLess bytes bytes' ↔ InUtf8Order a b := by
  by_cases ht : a.type = b.type
  · obtain ⟨m,n,rfl,rfl,hs⟩ | ⟨s,t,rfl,rfl⟩ := ctapLess_cases ht hl
    · exact ⟨fun _ => nofun,fun _ => wireLess_integer hs hl ha hb⟩
    · obtain ⟨text,rfl,hln,rfl⟩ := ha
      obtain ⟨text',rfl,hln',rfl⟩ := hb
      rw [wireLess_string hln hln']
      constructor
      · intro h text₁ text₁' h₁ h₁'
        rw [Utf8Less,← utf8_eq_of_utf16_eq (CBORValue.string.inj h₁),← utf8_eq_of_utf16_eq (CBORValue.string.inj h₁')]
        exact h
      · intro h
        exact h text text' rfl rfl
  · rw [ctapLess_of_type_ne ht,← ha.majorType_eq,← hb.majorType_eq] at hl
    refine ⟨fun _ text text' ha hb => absurd ?_ ht,fun _ => .inl (Int.ofNat_lt.1 hl)⟩
    rw [ha,hb]
    rfl

/-- Two keys are the same or in order. -/
theorem ctapLess_total (ha : KeyCode a bytes) (hb : KeyCode b bytes') :
    a = b ∨ CTAPLess a b ∨ CTAPLess b a := by
  by_cases hty : a.type = b.type
  · cases a with
    | integer m =>
      cases b with
      | integer n =>
        have hs : 0 ≤ m ↔ 0 ≤ n := by
          change (if 0 ≤ m then ValueType.unsigned else .negative) = if 0 ≤ n then ValueType.unsigned else .negative at hty
          split_ifs at hty with hm hn hn
          · exact ⟨fun _ => hn,fun _ => hm⟩
          · exact ⟨fun h => absurd h hm,fun h => absurd h hn⟩
        rw [ctapLess_integer hs,ctapLess_integer hs.symm,CBORValue.integer.injEq]
        have ht := Std.lt_trichotomy m n
        by_cases hm : 0 ≤ m
        · rw [if_pos hm,if_pos (hs.1 hm)]
          tauto
        · rw [if_neg hm,if_neg (mt hs.2 hm)]
          tauto
      | string t =>
        change (if 0 ≤ m then ValueType.unsigned else .negative) = ValueType.string at hty
        split_ifs at hty
      | _ => exact hb.elim
    | string s =>
      cases b with
      | integer n =>
        change ValueType.string = (if 0 ≤ n then ValueType.unsigned else .negative) at hty
        split_ifs at hty
      | string t =>
        rw [ctapLess_string,ctapLess_string,CBORValue.string.injEq]
        have hl := lt_trichotomy s.length t.length
        have ht := Std.lt_trichotomy s t
        tauto
      | _ => exact hb.elim
    | _ => exact ha.elim
  · have hne : a.type.toInt ≠ b.type.toInt := by
      have hi : ∀ t t' : ValueType, t.toInt = t'.toInt → t = t' := by
        intro t t' h
        cases t <;> cases t' <;> first | rfl | exact absurd h (by decide)
      exact fun h => hty (hi _ _ h)
    rw [ctapLess_of_type_ne hty,ctapLess_of_type_ne (Ne.symm hty)]
    omega

/-- Keys in the canonical order are in a map's order just if strings are in order by their units. -/
theorem ctapLess_iff_of_wireLess (hl : WireLess bytes bytes') (ha : KeyCode a bytes) (hb : KeyCode b bytes') :
    CTAPLess a b ↔ InUnitOrder a b := by
  refine ⟨fun h _ _ _ _ => h,fun h => ?_⟩
  obtain rfl | hab | hba := ctapLess_total ha hb
  · rw [ha.unique hb] at hl
    exact absurd hl (wireLess_irrefl _)
  · exact hab
  · by_cases ht : b.type = a.type
    · obtain ⟨m,n,rfl,rfl,hs⟩ | ⟨s,t,rfl,rfl⟩ := ctapLess_cases ht hba
      · exact absurd (wireLess_integer hs hba hb ha) (wireLess_asymm hl)
      · exact h t s rfl rfl
    · have hw := (wireLess_iff_of_ctapLess hba hb ha).2 fun text text' hb ha => absurd (by rw [hb,ha]; rfl) ht
      exact absurd hw (wireLess_asymm hl)

end

section
variable {c : Char} {text text' : List Char}

theorem encode_ascii (h : c.toNat < 0x80) :
    String.utf8EncodeChar c = [.ofNat c.toNat] ∧ utf16EncodeChar c = [.ofNat c.toNat] := by
  rw [utf8EncodeChar_eq,utf16EncodeChar,if_pos (by omega),if_pos (by omega)]
  exact ⟨rfl,rfl⟩

section
variable (h : ∀ c ∈ text, c.toNat < 0x80)
include h

private theorem length_ascii : (utf8 text).length = text.length ∧ (utf16 text).length = text.length := by
  induction text with
  | nil => exact ⟨rfl,rfl⟩
  | cons c text ih =>
    obtain ⟨hc,h⟩ := forall_mem_cons.1 h
    obtain ⟨hb,hu⟩ := encode_ascii hc
    rw [utf8_cons,utf16_cons,hb,hu]
    exact ⟨congrArg (· + 1) (ih h).1,congrArg (· + 1) (ih h).2⟩

private theorem lt_ascii (h' : ∀ c ∈ text', c.toNat < 0x80) : utf8 text < utf8 text' ↔ utf16 text < utf16 text' := by
  induction text generalizing text' with
  | nil =>
    cases text' with
    | nil => exact ⟨nofun,nofun⟩
    | cons c' text' =>
      obtain ⟨hb,hu⟩ := encode_ascii (forall_mem_cons.1 h').1
      rw [utf8_cons,utf16_cons,hb,hu]
      exact ⟨fun _ => nil_lt_cons _ _,fun _ => nil_lt_cons _ _⟩
  | cons c text ih =>
    obtain ⟨hc,h⟩ := forall_mem_cons.1 h
    obtain ⟨hb,hu⟩ := encode_ascii hc
    cases text' with
    | nil =>
      rw [utf8_cons,utf16_cons,hb,hu]
      exact ⟨nofun,nofun⟩
    | cons c' text' =>
      obtain ⟨hc',h'⟩ := forall_mem_cons.1 h'
      obtain ⟨hb',hu'⟩ := encode_ascii hc'
      have hby : ∀ {n : Nat}, n < 0x80 → (UInt8.ofNat n).toNat = n := fun h => UInt8.toNat_ofNat_of_lt' (h.trans (by decide))
      have hun : ∀ {n : Nat}, n < 0x80 → (UInt16.ofNat n).toNat = n := fun h => UInt16.toNat_ofNat_of_lt' (h.trans (by decide))
      rw [utf8_cons,utf16_cons,utf8_cons,utf16_cons,hb,hu,hb',hu',singleton_append,
        singleton_append,singleton_append,singleton_append,cons_lt_cons_iff,cons_lt_cons_iff,ih h h',
        UInt8.lt_iff_toNat_lt,UInt16.lt_iff_toNat_lt,← UInt8.toNat_inj,← UInt16.toNat_inj,hby hc,hby hc',hun hc,
        hun hc']

/-- The two orders agree on texts of ASCII characters. -/
theorem utf8Less_ascii (h' : ∀ c ∈ text', c.toNat < 0x80) :
    Utf8Less text text' ↔ CTAPLess (.string (utf16 text)) (.string (utf16 text')) := by
  rw [Utf8Less,ctapLess_string,(length_ascii h).1,(length_ascii h).2,(length_ascii h').1,(length_ascii h').2,
    lt_ascii h h']

end

theorem utf8Less_ascii_id : Utf8Less ['i','d'] ['k','t','y'] ↔
    CTAPLess (.string (utf16 ['i','d'])) (.string (utf16 ['k','t','y'])) :=
  utf8Less_ascii (by simp) (by simp)

end

def IntegerOrText (key : CBORValue) : Prop := (∃ n, key = .integer n) ∨ ∃ text, key = .string (utf16 text)

section
variable {levels : Nat} {key : CBORValue} {bytes : List UInt8}

private theorem keyCode_of_item (hk : IntegerOrText key) (h : Item Strict levels key bytes) : KeyCode key bytes := by
  cases levels with
  | zero => exact h.elim
  | succ levels =>
    obtain ⟨n,rfl⟩ | ⟨text,rfl⟩ := hk
    · exact h
    · obtain ⟨text',p,ht,hp,hf,rfl⟩ := h
      obtain rfl := sequence_strict_iff.1 hp
      exact ⟨text',ht,hf.1.trans_lt (by decide),rfl⟩

private theorem keyCode_of_written (hk : IntegerOrText key) (h : Written levels key bytes) : KeyCode key bytes := by
  cases levels with
  | zero =>
    rw [Written,encodeCBOR] at h
    cases h
  | succ levels =>
    obtain ⟨n,rfl⟩ | ⟨text,rfl⟩ := hk
    · rw [Written,encodeCBOR] at h
      change bytes = if 0 ≤ n then _ else _
      split_ifs at h ⊢ with hn
      · exact (Except.ok.inj h).symm
      · exact (Except.ok.inj h).symm
    · rw [Written,encodeCBOR] at h
      by_cases hs : (utf16 text).length ≤ MaxLength/3
      · rw [tryGetUtf8_utf16 hs] at h
        exact ⟨text,rfl,(fits_utf8 hs).1.trans_lt (by decide),(Except.ok.inj h).symm⟩
      · rw [tryGetUtf8_eq_none.2 (not_le.1 hs)] at h
        cases h

end

section
variable {α β : Type} {F : α → β → Prop} {R : β → β → Prop} {S : α → α → Prop} {as : List α} {bs : List β}

private theorem forall_mem_iff {P : β → Prop} {Q : α → Prop} (h : List.Forall₂ F as bs)
    (hi : ∀ a ∈ as, ∀ b, F a b → (P b ↔ Q a)) : (∀ b ∈ bs, P b) ↔ ∀ a ∈ as, Q a := by
  induction h with
  | nil => exact ⟨fun _ => nofun,fun _ => nofun⟩
  | cons ha _ ih =>
    obtain ⟨hf,hi⟩ := forall_mem_cons.1 hi
    rw [forall_mem_cons,forall_mem_cons,hf _ ha,ih hi]

private theorem pairwise_iff (h : List.Forall₂ F as bs)
    (hp : as.Pairwise fun a a' => ∀ b b', F a b → F a' b' → (R b b' ↔ S a a')) :
    bs.Pairwise R ↔ as.Pairwise S := by
  induction h with
  | nil => exact ⟨fun _ => .nil,fun _ => .nil⟩
  | cons ha h ih =>
    obtain ⟨hf,hp⟩ := pairwise_cons.1 hp
    rw [pairwise_cons,pairwise_cons,ih hp,forall_mem_iff h fun a' ha' b' => hf a' ha' _ b' ha]

end

/-- The bytes of the entries, from those of the keys and of the values. -/
def joinEntries (keys values : List (List UInt8)) : List UInt8 := (zipWith (· ++ ·) keys values).flatten

section
variable {item : CBORValue → List UInt8 → Prop} {map : List (CBORValue × CBORValue)} {keys values : List (List UInt8)}

private theorem exists_of_sequence {p : List UInt8} (h : Sequence (Entry item) map p) :
    ∃ keys values, List.Forall₂ (fun e bytes => item e.1 bytes) map keys ∧
      List.Forall₂ (fun e bytes => item e.2 bytes) map values ∧ p = joinEntries keys values := by
  induction h with
  | nil => exact ⟨[],[],.nil,.nil,rfl⟩
  | cons he _ ih =>
    obtain ⟨ks,vs,hky,hvl,rfl⟩ := he
    obtain ⟨keys,values,hk,hv,rfl⟩ := ih
    exact ⟨ks::keys,vs::values,.cons hky hk,.cons hvl hv,rfl⟩

private theorem sequence_of_forall₂ (hk : List.Forall₂ (fun e bytes => item e.1 bytes) map keys)
    (hv : List.Forall₂ (fun e bytes => item e.2 bytes) map values) :
    Sequence (Entry item) map (joinEntries keys values) := by
  induction hk generalizing values with
  | nil =>
    cases hv
    exact .nil
  | @cons e ks _ keys hky _ ih =>
    cases hv with
    | @cons _ vs _ values hvl hv =>
      have he : Entry item e (ks ++ vs) := ⟨ks,vs,hky,hvl,rfl⟩
      exact Sequence.cons he (ih hv)

end

private theorem exists_startItem {cd : Char → List UInt8 → Prop} {levels : Nat} {v : CBORValue} {bytes : List UInt8}
    (h : Item cd levels v bytes) : v.type ≠ .none ∧ ∃ size rest, bytes = startItem v.type size ++ rest := by
  cases levels with
  | zero => exact h.elim
  | succ levels =>
    cases v with
    | none => exact h.elim
    | integer n =>
      obtain rfl : bytes = if 0 ≤ n then _ else _ := h
      change (if 0 ≤ n then ValueType.unsigned else .negative) ≠ _ ∧ ∃ size rest, _ = startItem (if 0 ≤ n then _ else _) size ++ rest
      split_ifs
      · exact ⟨by decide,_,[],(append_nil _).symm⟩
      · exact ⟨by decide,_,[],(append_nil _).symm⟩
    | byteString vl => exact ⟨nofun,_,_,h.2⟩
    | string vl =>
      obtain ⟨_,_,-,-,-,rfl⟩ := h
      exact ⟨nofun,_,_,rfl⟩
    | array vl =>
      obtain ⟨-,_,-,rfl⟩ := h
      exact ⟨nofun,_,_,rfl⟩
    | map vl =>
      obtain ⟨-,-,-,_,-,rfl⟩ := h
      exact ⟨nofun,_,_,rfl⟩
    | simpleValue vl =>
      obtain rfl : bytes = _ := h
      exact ⟨nofun,_,[],(append_nil _).symm⟩

/-- The entries read from a map are those that stand there. -/
theorem map_of_item {levels : Nat} (hl : levels ≤ kCBORMaxDepth) {map : List (CBORValue × CBORValue)}
    {p : List UInt8} {v : CBORValue} (hln : map.length < 18446744073709551616)
    (hp : Sequence (Entry (Item Accepted levels)) map p)
    (h : Item Accepted (levels+1) v (startItem .map (.ofNat map.length) ++ p)) : v = .map map := by
  obtain ⟨hn,size,r,hb⟩ := exists_startItem h
  obtain ⟨ht,-⟩ := startItem_inj (by decide) hn hb
  cases v with
  | map es =>
    obtain ⟨hln',-,-,p',hp',hb⟩ := h
    obtain ⟨-,hs,rfl⟩ := startItem_inj (by decide) (by decide) hb
    have hc : map.length = es.length := by
      have h := congrArg toNat hs
      rwa [toNat_ofNat_of_lt' hln,toNat_ofNat_of_lt' hln'] at h
    -- Decoding the entries has one result.
    have hdc : ∀ bound, Parses (readKeyAndValue (decodeCBOR levels)) (Entry (Item Accepted levels)) bound :=
      readKeyAndValue_parses (decodeCBOR_parses (by omega))
    have hm := ((hdc _).elements map.length p map [] le_rfl).2 ⟨p,⟨rfl,hp⟩,(append_nil _).symm⟩
    have he := ((hdc _).elements map.length p es [] le_rfl).2
      ⟨p,⟨hc.symm,hp'⟩,(append_nil _).symm⟩
    rw [(Prod.mk.inj (Except.ok.inj (hm.symm.trans he))).1]
  | integer n =>
    change ValueType.map = (if 0 ≤ n then ValueType.unsigned else .negative) at ht
    split_ifs at ht
  | _ => cases ht

/-- In the bytes that are written for a map, the keys are in the canonical order just if its strings are in order as UTF-8. A map
with keys in the canonical order is read just if no key is negative and its strings are in order by their units. -/
theorem canonical_keys_iff (map : List (CBORValue × CBORValue)) (hkeys : ∀ entry ∈ map, IntegerOrText entry.1) :
    (Ordered map → ∀ bytes, write (.map map) = .ok bytes →
      ∃ keys values, List.Forall₂ (fun entry bytes => Written kDefaultMaxNestingDepth entry.1 bytes) map keys ∧
        List.Forall₂ (fun entry bytes => Written kDefaultMaxNestingDepth entry.2 bytes) map values ∧
          bytes = startItem .map (.ofNat map.length) ++ joinEntries keys values ∧
            (keys.Pairwise WireLess ↔ map.Pairwise fun entry entry' => InUtf8Order entry.1 entry'.1)) ∧
      (map.length < 18446744073709551616 → ∀ keys values,
        List.Forall₂ (fun entry bytes => Item Strict kCBORMaxDepth entry.1 bytes) map keys →
          List.Forall₂ (fun entry bytes => Item Strict kCBORMaxDepth entry.2 bytes) map values → keys.Pairwise WireLess →
            ((∃ v, read (startItem .map (.ofNat map.length) ++ joinEntries keys values) = .ok v) ↔
              (∀ entry ∈ map, entry.1.type ≠ .negative) ∧
                map.Pairwise fun entry entry' => InUnitOrder entry.1 entry'.1)) := by
  constructor
  · intro hm bytes hwr
    rw [write,encodeCBOR,bind_eq_ok] at hwr
    obtain ⟨payload,hp,h⟩ := hwr
    obtain ⟨keys,values,hw,hvl,rfl⟩ := exists_of_sequence (encodeMap_eq_ok.1 hp)
    refine ⟨keys,values,hw,hvl,(Except.ok.inj h).symm,pairwise_iff hw ?_⟩
    refine hm.imp_of_mem fun he he' hl bytes bytes' hb hb' => ?_
    exact wireLess_iff_of_ctapLess hl (keyCode_of_written (hkeys _ he) hb)
      (keyCode_of_written (hkeys _ he') hb')
  · intro hln keys values hit hvl hcn
    have hp : Sequence (Entry (Item Accepted kCBORMaxDepth)) map (joinEntries keys values) :=
      sequence_of_forall₂ (hit.imp fun _ _ h => h.mono fun _ _ => .inl) (hvl.imp fun _ _ h => h.mono fun _ _ => .inl)
    have hwi : map.Pairwise fun entry entry' =>
        ∃ bytes bytes', KeyCode entry.1 bytes ∧ KeyCode entry'.1 bytes' ∧ WireLess bytes bytes' := by
      refine (pairwise_iff hit (pairwise_of_forall_mem_list ?_)).1 hcn
      intro entry he entry' he' bytes bytes' hb hb'
      have hc := keyCode_of_item (hkeys entry he) hb
      have hc' := keyCode_of_item (hkeys entry' he') hb'
      refine ⟨fun h => ⟨bytes,bytes',hc,hc',h⟩,?_⟩
      rintro ⟨_,_,h,h',hl⟩
      rwa [hc.unique h,hc'.unique h']
    have ho : Ordered map ↔ map.Pairwise fun entry entry' => InUnitOrder entry.1 entry'.1 := by
      refine ⟨fun h => (h.and hwi).imp ?_,fun h => (h.and hwi).imp ?_⟩
      · rintro entry entry' ⟨h,bytes,bytes',hb,hb',hl⟩
        exact (ctapLess_iff_of_wireLess hl hb hb').1 h
      · rintro entry entry' ⟨h,bytes,bytes',hb,hb',hl⟩
        exact (ctapLess_iff_of_wireLess hl hb hb').2 h
    have hr : (∃ v, read (startItem .map (.ofNat map.length) ++ joinEntries keys values) = .ok v) ↔
        Ordered map ∧ ∀ entry ∈ map, IsKey entry.1 := by
      constructor
      · rintro ⟨v,hv⟩
        have hi := read_eq_ok.1 hv
        obtain rfl := map_of_item le_rfl hln hp hi
        exact ⟨hi.2.1,hi.2.2.1⟩
      · rintro ⟨hm,hkeys⟩
        exact ⟨.map map,read_eq_ok.2 ⟨hln,hm,hkeys,_,hp,rfl⟩⟩
    rw [hr,ho,and_comm]
    refine and_congr_left' (forall₂_congr fun entry he => ?_)
    obtain ⟨n,hn⟩ | ⟨text,ht⟩ := hkeys entry he
    · rw [hn]
      change (if 0 ≤ n then ValueType.unsigned else .negative) = _ ∨ (if 0 ≤ n then ValueType.unsigned else .negative) = _ ↔
        (if 0 ≤ n then ValueType.unsigned else .negative) ≠ _
      split_ifs <;> decide
    · rw [ht]
      exact iff_of_true (.inl rfl) (by simp [CBORValue.type])

theorem canonical_keys_pair : ∃ v, read [0xA2, 0x01, 0x00, 0x61, 0x61, 0x00] = .ok v := by
  have hk : ∀ entry ∈ [(CBORValue.integer 1, CBORValue.integer 0), (.string [0x61], .integer 0)], IntegerOrText entry.1 :=
    forall_mem_cons.2 ⟨.inl ⟨1,rfl⟩,forall_mem_singleton.2 (.inr ⟨['a'],rfl⟩)⟩
  have ht : Item Strict kCBORMaxDepth (.string [0x61]) [0x61, 0x61] :=
    ⟨['a'],[0x61],rfl,sequence_strict_iff.2 rfl,⟨by decide,.inl rfl⟩,rfl⟩
  refine ((canonical_keys_iff [(.integer 1, .integer 0), (.string [0x61], .integer 0)] hk).2 (by decide)
    [[0x01], [0x61, 0x61]] [[0x00], [0x00]] (.cons rfl (.cons ht .nil)) (.cons rfl (.cons rfl .nil)) ?_).2 ⟨?_,?_⟩
  · exact pairwise_pair.2 (.inl (by decide))
  · exact forall_mem_cons.2 ⟨by decide,forall_mem_singleton.2 (by decide)⟩
  · exact pairwise_pair.2 nofun

/-- The map of é and aa is written in this order, and the canonical order is not read. -/
theorem keys_not_canonical : write (.map [(.string [0xE9], .integer 1), (.string [0x61, 0x61], .integer 2)]) =
        .ok [0xA2, 0x62, 0xC3, 0xA9, 1, 0x62, 0x61, 0x61, 2] ∧
      WireLess [0x62, 0x61, 0x61] [0x62, 0xC3, 0xA9] ∧ ¬ WireLess [0x62, 0xC3, 0xA9] [0x62, 0x61, 0x61] ∧
        read [0xA2, 0x62, 0x61, 0x61, 2, 0x62, 0xC3, 0xA9, 1] = .error (some .outOfOrderKey) := by
  have hl : WireLess [0x62, 0x61, 0x61] [0x62, 0xC3, 0xA9] := .inr ⟨rfl,.inr ⟨rfl,by decide⟩⟩
  exact ⟨rfl,hl,wireLess_asymm hl,rfl⟩

end WebKit.WebAuthn
