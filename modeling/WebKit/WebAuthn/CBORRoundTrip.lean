import WebKit.WebAuthn.CBORItem

/-! CBOR values are read back from what is written for them, and the other way round, up to strings that are not texts or too
long. -/
namespace WebKit.WebAuthn

open Base WTF List
open UInt64 (toNat_ofNat_of_lt')

/-- Nested within a number of levels, and a property holds for every value in it. -/
def Nodes (P : CBORValue → Prop) : Nat → CBORValue → Prop
  | 0, _ => False
  | levels + 1, v => P v ∧
    match v with
    | .array array => ∀ element ∈ array, Nodes P levels element
    | .map map => ∀ entry ∈ map, Nodes P levels entry.1 ∧ Nodes P levels entry.2
    | _ => True

/-- The sizes are 64-bit numbers, and a map is ordered and has keys that the reader knows. -/
def Supported : CBORValue → Prop
  | .byteString value => value.length < 18446744073709551616
  | .array value => value.length < 18446744073709551616
  | .map value => value.length < 18446744073709551616 ∧ Ordered value ∧ ∀ entry ∈ value, IsKey entry.1
  | _ => True

/-- A string can be converted to UTF-8. -/
def Short : CBORValue → Prop
  | .string value => value.length ≤ MaxLength/3
  | _ => True

/-- A value that is there, where a string is a text. -/
def Textual : CBORValue → Prop
  | .none => False
  | .string value => ∃ text, value = utf16 text
  | _ => True

/-- What is found in a number of items, one after the other, and the bytes behind them. -/
def collect (strings : List UInt8 → List (List UInt8) × List UInt8) : Nat → List UInt8 → List (List UInt8) × List UInt8
  | 0, data => ([], data)
  | count + 1, data =>
    let (first, data) := strings data
    let (others, data) := collect strings count data
    (first ++ others, data)

/-- The text strings behind the head of an item. -/
def contentStrings (strings : List UInt8 → List (List UInt8) × List UInt8) (type : ValueType) (value : UInt64)
    (data : List UInt8) : List (List UInt8) × List UInt8 :=
  match type with
  | .byteString => ([], data.drop value.toNat)
  | .string => ([data.take value.toNat], data.drop value.toNat)
  | .array => collect strings value.toNat data
  | .map => collect strings (2*value.toNat) data
  | _ => ([], data)

/-- The bytes of the text strings in an item within a number of levels, and the bytes behind it. -/
def textStrings : Nat → List UInt8 → List (List UInt8) × List UInt8
  | levels + 1, initialByte::data =>
    match getMajorType initialByte, readVariadicLengthInteger (getAdditionalInfo initialByte) data with
    | some type, .ok (value, data) => contentStrings (textStrings levels) type value data
    | _, _ => ([], data)
  | _, data => ([], data)

/-- UTF-8 of a text that can be converted back. -/
def Convertible (bytes : List UInt8) : Prop := ∃ text, bytes = utf8 text ∧ (utf16 text).length ≤ MaxLength/3

variable {bytes : List UInt8} {levels : Nat} {code : Char → List UInt8 → Prop} {v : CBORValue}

private theorem Entry.imp {i i' : CBORValue → List UInt8 → Prop} {e : CBORValue × CBORValue}
    (h : Entry i e bytes) (hk : ∀ bytes, i e.1 bytes → i' e.1 bytes)
    (hv : ∀ bytes, i e.2 bytes → i' e.2 bytes) : Entry i' e bytes := by
  obtain ⟨ks,vs,h1,h2,rfl⟩ := h
  exact ⟨ks,vs,hk _ h1,hv _ h2,rfl⟩

def Written (levels : Nat) (v : CBORValue) (bytes : List UInt8) : Prop := encodeCBOR levels v = .ok bytes

private theorem encodeArray_eq_ok {a : List CBORValue} :
    encodeArray levels a = .ok bytes ↔ Sequence (Written levels) a bytes := by
  induction a generalizing bytes with
  | nil => rw [sequence_nil_iff,encodeArray,Except.ok.injEq,eq_comm]
  | cons v a ih =>
    simp only [encodeArray,bind_eq_ok,ih,sequence_cons_iff,Written,exists_and_left]
    simp only [pure,Except.pure,Except.ok.injEq,eq_comm]

theorem encodeMap_eq_ok {m : List (CBORValue × CBORValue)} :
    encodeMap levels m = .ok bytes ↔ Sequence (Entry (Written levels)) m bytes := by
  induction m generalizing bytes with
  | nil => rw [sequence_nil_iff,encodeMap,Except.ok.injEq,eq_comm]
  | cons e m ih =>
    simp only [encodeMap,bind_eq_ok,ih,sequence_cons_iff,Entry]
    constructor
    · rintro ⟨key,hk,vl,hv,es,he,h⟩
      exact ⟨_,es,⟨key,vl,hk,hv,rfl⟩,he,(Except.ok.inj h).symm⟩
    · rintro ⟨_,es,⟨key,vl,hk,hv,rfl⟩,he,rfl⟩
      exact ⟨key,hk,vl,hv,es,he,rfl⟩

/-- What is written for a readable value is an item with strings in UTF-8, which are short. -/
theorem item_of_written {bytes' : List UInt8} (hi : Item code levels v bytes') (hw : Written levels v bytes) :
    Item Strict levels v bytes ∧ Nodes Short levels v := by
  induction levels generalizing v bytes bytes' with
  | zero => exact hi.elim
  | succ levels ih =>
    cases v with
    | none => exact hi.elim
    | integer vl =>
      rw [Written,encodeCBOR] at hw
      refine ⟨?_,trivial,trivial⟩
      change bytes = if 0 ≤ vl then _ else _
      split_ifs at hw ⊢ with hv
      · exact (Except.ok.inj hw).symm
      · exact (Except.ok.inj hw).symm
    | byteString vl =>
      exact ⟨⟨hi.1,(Except.ok.inj hw).symm⟩,trivial,trivial⟩
    | string vl =>
      obtain ⟨text,-,rfl,-⟩ := hi
      rw [Written,encodeCBOR] at hw
      by_cases hs : (utf16 text).length ≤ MaxLength/3
      · rw [tryGetUtf8_utf16 hs] at hw
        exact ⟨⟨text,utf8 text,rfl,sequence_strict_iff.2 rfl,fits_utf8 hs,(Except.ok.inj hw).symm⟩,hs,
          trivial⟩
      · rw [tryGetUtf8_eq_none.2 (not_le.1 hs)] at hw
        cases hw
    | array vl =>
      obtain ⟨hl,d,hp,-⟩ := hi
      rw [Written,encodeCBOR,bind_eq_ok] at hw
      obtain ⟨elements,he,h⟩ := hw
      rw [encodeArray_eq_ok] at he
      refine ⟨⟨hl,elements,he.imp_of_mem fun e hel bytes hb => ?_,(Except.ok.inj h).symm⟩,
        trivial,fun e hel => ?_⟩
      · obtain ⟨_,h⟩ := hp.exists_of_mem e hel
        exact (ih h hb).1
      · obtain ⟨_,h⟩ := hp.exists_of_mem e hel
        obtain ⟨_,hb⟩ := he.exists_of_mem e hel
        exact (ih h hb).2
    | map vl =>
      obtain ⟨hl,hm,hk,d,hp,-⟩ := hi
      rw [Written,encodeCBOR,bind_eq_ok] at hw
      obtain ⟨es,hen,h⟩ := hw
      rw [encodeMap_eq_ok] at hen
      refine ⟨⟨hl,hm,hk,es,hen.imp_of_mem fun en het bytes hb => ?_,
        (Except.ok.inj h).symm⟩,trivial,fun en het => ?_⟩
      · obtain ⟨_,_,_,hky,hv,-⟩ := hp.exists_of_mem en het
        exact hb.imp (fun _ h => (ih hky h).1) fun _ h => (ih hv h).1
      · obtain ⟨_,_,_,hky,hv,-⟩ := hp.exists_of_mem en het
        obtain ⟨_,_,_,hkb,hvb,-⟩ := hen.exists_of_mem en het
        exact ⟨(ih hky hkb).2,(ih hv hvb).2⟩
    | simpleValue vl =>
      exact ⟨(Except.ok.inj hw).symm,trivial,trivial⟩

/-- An item with short strings in UTF-8 is what is written. -/
theorem written_of_item (hi : Item Strict levels v bytes)
    (hs : Nodes Short levels v) : Written levels v bytes := by
  induction levels generalizing v bytes with
  | zero => exact hi.elim
  | succ levels ih =>
    rw [Written]
    cases v with
    | none => exact hi.elim
    | integer vl =>
      obtain rfl : bytes = if 0 ≤ vl then _ else _ := hi
      rw [encodeCBOR]
      split_ifs <;> rfl
    | byteString vl => rw [encodeCBOR,hi.2]
    | string vl =>
      obtain ⟨text,d,rfl,hp,-,rfl⟩ := hi
      obtain rfl := sequence_strict_iff.1 hp
      rw [encodeCBOR,tryGetUtf8_utf16 hs.1]
    | array vl =>
      obtain ⟨-,d,hp,rfl⟩ := hi
      rw [encodeCBOR,encodeArray_eq_ok.2 (hp.imp_of_mem fun el hel _ h => ih h (hs.2 el hel))]
      rfl
    | map vl =>
      obtain ⟨-,-,-,d,hp,rfl⟩ := hi
      rw [encodeCBOR,encodeMap_eq_ok.2 (hp.imp_of_mem fun e he _ h =>
        h.imp (fun _ h => ih h (hs.2 e he).1) fun _ h => ih h (hs.2 e he).2)]
      rfl
    | simpleValue vl =>
      obtain rfl : bytes = _ := hi
      rw [encodeCBOR]

private theorem Item.textual (hi : Item code levels v bytes) : Nodes Textual levels v := by
  induction levels generalizing v bytes with
  | zero => exact hi.elim
  | succ levels ih =>
    cases v with
    | none => exact hi.elim
    | string vl =>
      obtain ⟨text,-,h,-⟩ := hi
      exact ⟨⟨text,h⟩,trivial⟩
    | array vl =>
      obtain ⟨-,d,hp,-⟩ := hi
      refine ⟨trivial,fun e hel => ?_⟩
      obtain ⟨_,h⟩ := hp.exists_of_mem e hel
      exact ih h
    | map vl =>
      obtain ⟨-,-,-,d,hp,-⟩ := hi
      refine ⟨trivial,fun en he => ?_⟩
      obtain ⟨_,_,_,hk,hv,-⟩ := hp.exists_of_mem en he
      exact ⟨ih hk,ih hv⟩
    | _ => exact ⟨trivial,trivial⟩

private theorem exists_item (hs : Nodes Supported levels v) (ht : Nodes Textual levels v)
    (hsh : Nodes Short levels v) : ∃ bytes, Item Strict levels v bytes := by
  induction levels generalizing v with
  | zero => exact hs.elim
  | succ levels ih =>
    cases v with
    | none => exact ht.1.elim
    | integer vl => exact ⟨_,rfl⟩
    | byteString vl => exact ⟨_,hs.1,rfl⟩
    | string vl =>
      obtain ⟨text,rfl⟩ := ht.1
      exact ⟨_,text,utf8 text,rfl,sequence_strict_iff.2 rfl,fits_utf8 hsh.1,rfl⟩
    | array vl =>
      obtain ⟨data,hp⟩ : ∃ data, Sequence (Item Strict levels) vl data :=
        exists_sequence fun e hel =>
          ih (hs.2 e hel) (ht.2 e hel) (hsh.2 e hel)
      exact ⟨_,hs.1,data,hp,rfl⟩
    | map vl =>
      obtain ⟨data,hp⟩ : ∃ data, Sequence (Entry (Item Strict levels)) vl data := by
        refine exists_sequence fun en he => ?_
        obtain ⟨hky,hv⟩ := hs.2 en he
        obtain ⟨htk,htv⟩ := ht.2 en he
        obtain ⟨hsk,hsv⟩ := hsh.2 en he
        obtain ⟨ks,hkb⟩ := ih hky htk hsk
        obtain ⟨vs,hvb⟩ := ih hv htv hsv
        exact ⟨_,ks,vs,hkb,hvb,rfl⟩
      obtain ⟨hl,hm,hk⟩ := hs.1
      exact ⟨_,hl,hm,hk,data,hp,rfl⟩
    | simpleValue vl => exact ⟨_,rfl⟩

theorem Item.mono {code' : Char → List UInt8 → Prop} (hc : ∀ c bytes, code c bytes → code' c bytes)
    (hi : Item code levels v bytes) : Item code' levels v bytes := by
  induction levels generalizing v bytes with
  | zero => exact hi.elim
  | succ levels ih =>
    cases v with
    | string vl =>
      obtain ⟨text,d,rfl,hp,h⟩ := hi
      exact ⟨text,d,rfl,hp.imp_of_mem fun c _ bytes => hc c bytes,h⟩
    | array vl =>
      obtain ⟨hl,d,hp,rfl⟩ := hi
      exact ⟨hl,d,hp.imp_of_mem fun _ _ _ => ih,rfl⟩
    | map vl =>
      obtain ⟨hl,hm,hk,d,hp,rfl⟩ := hi
      exact ⟨hl,hm,hk,d,hp.imp_of_mem fun _ _ _ h => h.imp (fun _ => ih) fun _ => ih,rfl⟩
    | _ => exact hi

section
variable {strings : List UInt8 → List (List UInt8) × List UInt8} {item : CBORValue → List UInt8 → Prop}
  {P : List UInt8 → Prop} {vs : List CBORValue}

/-- What is found in the bytes of a value does not depend on the bytes behind them. -/
def Delimits (strings : List UInt8 → List (List UInt8) × List UInt8) (item : CBORValue → List UInt8 → Prop) : Prop :=
  ∀ v bytes, item v bytes → ∃ found, ∀ rest, strings (bytes ++ rest) = (found, rest)

private theorem Delimits.eq (h : Delimits strings item) (hi : item v bytes) (rest : List UInt8) :
    strings (bytes ++ rest) = ((strings bytes).1, rest) := by
  obtain ⟨found,hf⟩ := h v bytes hi
  have hn := hf []
  rw [append_nil] at hn
  rw [hf,hn]

private theorem Delimits.collect_cons (h : Delimits strings item) (hi : item v bytes) (count : Nat) (rest : List UInt8) :
    collect strings (count+1) (bytes ++ rest) =
      ((strings bytes).1 ++ (collect strings count rest).1, (collect strings count rest).2) := by
  rw [collect,h.eq hi]

private theorem Delimits.collect (h : Delimits strings item) (hs : Sequence item vs bytes) :
    ∃ found, ∀ rest, collect strings vs.length (bytes ++ rest) = (found, rest) := by
  induction hs with
  | nil => exact ⟨[],fun _ => rfl⟩
  | @cons _ _ bytes _ ha _ ih =>
    obtain ⟨found,hf⟩ := ih
    refine ⟨(strings bytes).1 ++ found,fun rest => ?_⟩
    rw [append_assoc,length_cons,h.collect_cons ha,hf]

private theorem Delimits.forall_collect (h : Delimits strings item)
    (hs : Sequence (fun v bytes => item v bytes ∧ ∀ found ∈ (strings bytes).1, P found) vs bytes) :
    ∀ found ∈ (WebAuthn.collect strings vs.length bytes).1, P found := by
  induction hs with
  | nil => exact nofun
  | cons ha _ ih =>
    rw [length_cons,h.collect_cons ha.1]
    exact forall_mem_append.2 ⟨ha.2,ih⟩

private theorem Delimits.sequence (h : Delimits strings item) (hs : Sequence item vs bytes)
    (hp : ∀ found ∈ (WebAuthn.collect strings vs.length bytes).1, P found) :
    Sequence (fun v bytes => item v bytes ∧ ∀ found ∈ (strings bytes).1, P found) vs bytes := by
  induction hs with
  | nil => exact .nil
  | cons ha _ ih =>
    rw [length_cons,h.collect_cons ha] at hp
    obtain ⟨hf,hp⟩ := forall_mem_append.1 hp
    exact .cons ⟨ha,hf⟩ (ih hp)

/-- The entries of a map are its keys and values in turn. -/
theorem sequence_entry_iff {m : List (CBORValue × CBORValue)} :
    Sequence (Entry item) m bytes ↔ Sequence item (m.flatMap fun e => [e.1, e.2]) bytes := by
  induction m generalizing bytes with
  | nil => rw [sequence_nil_iff,flatMap_nil,sequence_nil_iff]
  | cons e m ih =>
    simp only [sequence_cons_iff,ih,flatMap_cons,cons_append,nil_append]
    constructor
    · rintro ⟨_,rest,⟨ks,vs,hk,hv,rfl⟩,hr,rfl⟩
      exact ⟨ks,vs ++ rest,hk,⟨vs,rest,hv,hr,rfl⟩,append_assoc _ _ _⟩
    · rintro ⟨ks,_,hk,⟨vs,rest,hv,hr,rfl⟩,rfl⟩
      exact ⟨ks ++ vs,rest,⟨ks,vs,hk,hv,rfl⟩,hr,(append_assoc _ _ _).symm⟩

private theorem length_flatMap_entries (m : List (CBORValue × CBORValue)) :
    (m.flatMap fun e => [e.1, e.2]).length = 2*m.length := by
  induction m with
  | nil => rfl
  | cons e m ih => rw [flatMap_cons,length_append,ih,length_cons,length_cons,length_cons,length_nil]; omega

end

private theorem textStrings_startItem (type : ValueType) (ht : type ≠ .none) (value : UInt64) (rest : List UInt8) :
    textStrings (levels+1) (startItem type value ++ rest) = contentStrings (textStrings levels) type value rest := by
  rw [startItem_eq,cons_append]
  obtain ⟨hm,hv⟩ := (header_iff ht).2 (cons_append.symm.trans (by rw [← startItem_eq]))
  rw [textStrings,hm,hv]

private theorem delimits_textStrings (levels : Nat) : Delimits (textStrings levels) (Item code levels) := by
  induction levels with
  | zero => exact fun _ _ h => h.elim
  | succ levels ih =>
    intro v bytes hi
    cases v with
    | none => exact hi.elim
    | integer vl =>
      obtain rfl : bytes = _ := hi
      split_ifs
      · exact ⟨[],textStrings_startItem .unsigned nofun _⟩
      · exact ⟨[],textStrings_startItem .negative nofun _⟩
    | byteString vl =>
      obtain ⟨hl,rfl⟩ := hi
      refine ⟨[],fun rest => ?_⟩
      rw [append_assoc,textStrings_startItem .byteString nofun,contentStrings,toNat_ofNat_of_lt' hl,drop_left]
    | string vl =>
      obtain ⟨text,payload,-,-,hf,rfl⟩ := hi
      refine ⟨[payload],fun rest => ?_⟩
      rw [append_assoc,textStrings_startItem .string nofun,contentStrings,
        toNat_ofNat_of_lt' (hf.1.trans_lt (by decide)),take_left,drop_left]
    | array vl =>
      obtain ⟨hl,payload,hp,rfl⟩ := hi
      obtain ⟨found,hf⟩ := ih.collect hp
      refine ⟨found,fun rest => ?_⟩
      rw [append_assoc,textStrings_startItem .array nofun,contentStrings,toNat_ofNat_of_lt' hl,hf]
    | map vl =>
      obtain ⟨hl,-,-,payload,hp,rfl⟩ := hi
      obtain ⟨found,hf⟩ := ih.collect (sequence_entry_iff.1 hp)
      refine ⟨found,fun rest => ?_⟩
      rw [append_assoc,textStrings_startItem .map nofun,contentStrings,toNat_ofNat_of_lt' hl,← length_flatMap_entries,hf]
    | simpleValue vl =>
      obtain rfl : bytes = _ := hi
      exact ⟨[],textStrings_startItem .simpleValue nofun _⟩

/-- The strings in what is read are UTF-8 and short just if those in the data are. -/
theorem item_strict_iff (hi : Item Accepted levels v bytes) : Item Strict levels v bytes ∧ Nodes Short levels v ↔
    ∀ string ∈ (textStrings levels bytes).1, Convertible string := by
  induction levels generalizing v bytes with
  | zero => exact hi.elim
  | succ levels ih =>
    have hs {vs : List CBORValue} {payload : List UInt8} (hp : Sequence (Item Accepted levels) vs payload) :
        Sequence (Item Strict levels) vs payload ∧ (∀ v ∈ vs, Nodes Short levels v) ↔
          ∀ string ∈ (collect (textStrings levels) vs.length payload).1, Convertible string := by
      constructor
      · rintro ⟨hp,hs⟩
        have hd : Delimits (textStrings levels) (Item Accepted levels) := delimits_textStrings levels
        refine hd.forall_collect (hp.imp_of_mem fun v hv _ hi => ?_)
        have hi' : Item Accepted levels v _ := hi.mono fun _ _ => .inl
        exact ⟨hi',(ih hi').1 ⟨hi,hs v hv⟩⟩
      · intro hc
        have hp := (delimits_textStrings levels).sequence hp hc
        refine ⟨hp.imp_of_mem fun _ _ _ h => ((ih h.1).2 h.2).1,fun v hv => ?_⟩
        obtain ⟨_,h⟩ := hp.exists_of_mem v hv
        exact ((ih h.1).2 h.2).2
    cases v with
    | none => exact hi.elim
    | integer vl =>
      obtain rfl : bytes = _ := hi
      refine iff_of_true ⟨rfl,trivial,trivial⟩ ?_
      split_ifs
      · rw [← append_nil (startItem _ _),textStrings_startItem .unsigned nofun]
        exact nofun
      · rw [← append_nil (startItem _ _),textStrings_startItem .negative nofun]
        exact nofun
    | byteString vl =>
      refine iff_of_true ⟨hi,trivial,trivial⟩ ?_
      rw [hi.2,textStrings_startItem .byteString nofun]
      exact nofun
    | string vl =>
      obtain ⟨text,payload,hu,hp,hf,rfl⟩ := hi
      have hl := hf.1.trans_lt (by decide : MaxLength < 18446744073709551616)
      rw [textStrings_startItem .string nofun,contentStrings,toNat_ofNat_of_lt' hl,take_length,forall_mem_singleton]
      constructor
      · rintro ⟨⟨text,payload',rfl,hp,-,he⟩,hs,-⟩
        obtain ⟨-,-,rfl⟩ := startItem_inj (by decide) (by decide) he
        exact ⟨text,sequence_strict_iff.1 hp,hs⟩
      · rintro ⟨text',rfl,hs⟩
        have hp' := sequence_strict_iff.2 (rfl : utf8 text' = _)
        have hr : fromUTF8 (utf8 text') = .string (utf16 text') :=
          fromUTF8_eq_string.2 ⟨text',hp'.imp_of_mem fun _ _ _ => .inl,rfl,fits_utf8 hs⟩
        rw [fromUTF8_eq_string.2 ⟨text,hp,hu,hf⟩] at hr
        cases hr
        exact ⟨⟨text',utf8 text',rfl,hp',hf,rfl⟩,hs,trivial⟩
    | array vl =>
      obtain ⟨hl,payload,hp,rfl⟩ := hi
      rw [textStrings_startItem .array nofun,contentStrings,toNat_ofNat_of_lt' hl,← hs hp]
      constructor
      · rintro ⟨⟨-,payload',hp,he⟩,-,hn⟩
        exact ⟨append_cancel_left he ▸ hp,hn⟩
      · exact fun ⟨hp,hn⟩ => ⟨⟨hl,payload,hp,rfl⟩,trivial,hn⟩
    | map vl =>
      obtain ⟨hl,hm,hk,payload,hp,rfl⟩ := hi
      rw [textStrings_startItem .map nofun,contentStrings,toNat_ofNat_of_lt' hl,← length_flatMap_entries,
        ← hs (sequence_entry_iff.1 hp),← sequence_entry_iff]
      have hn : (∀ v ∈ vl.flatMap fun e => [e.1, e.2], Nodes Short levels v) ↔
          ∀ e ∈ vl, Nodes Short levels e.1 ∧ Nodes Short levels e.2 := by
        simp only [forall_mem_flatMap,forall_mem_cons,not_mem_nil,false_imp_iff,implies_true,and_true]
      rw [hn]
      constructor
      · rintro ⟨⟨-,-,-,payload',hp,he⟩,-,hn⟩
        exact ⟨append_cancel_left he ▸ hp,hn⟩
      · exact fun ⟨hp,hn⟩ => ⟨⟨hl,hm,hk,payload,hp,rfl⟩,trivial,hn⟩
    | simpleValue vl =>
      refine iff_of_true ⟨hi,trivial,trivial⟩ ?_
      obtain rfl : bytes = _ := hi
      rw [← append_nil (startItem _ _),textStrings_startItem .simpleValue nofun]
      exact nofun

/-- A supported value is read back from what is written for it just if its strings are texts and short. The reader accepts just
the items, and writes what it has read as it stands just if the strings in the data are UTF-8 and short. -/
theorem read_write_iff (v : CBORValue) (hv : Nodes Supported (kCBORMaxDepth+1) v) (data : List UInt8) :
    ((∃ bytes, write v = .ok bytes ∧ read bytes = .ok v) ↔
        Nodes Textual (kCBORMaxDepth+1) v ∧ Nodes Short (kCBORMaxDepth+1) v) ∧
      ∀ v', (read data = .ok v' ↔ Item Accepted (kCBORMaxDepth+1) v' data) ∧
        (read data = .ok v' →
          (write v' = .ok data ↔ ∀ string ∈ (textStrings (kCBORMaxDepth+1) data).1, Convertible string)) := by
  refine ⟨⟨?_,?_⟩,fun v' => ⟨read_eq_ok,?_⟩⟩
  · rintro ⟨bytes,hw,hr⟩
    have hi := read_eq_ok.1 hr
    exact ⟨hi.textual,(item_of_written hi hw).2⟩
  · rintro ⟨ht,hs⟩
    obtain ⟨bytes,hi⟩ := exists_item hv ht hs
    exact ⟨bytes,written_of_item hi hs,read_eq_ok.2 (hi.mono fun _ _ => .inl)⟩
  · intro hr
    have hi := read_eq_ok.1 hr
    rw [← item_strict_iff hi]
    exact ⟨item_of_written hi,fun ⟨hi,hs⟩ => written_of_item hi hs⟩

theorem read_write_pair : ((∃ bytes, write (.map [(.integer 1, .array [.integer (-1), .string [0x61]])]) = .ok bytes ∧
          read bytes = .ok (.map [(.integer 1, .array [.integer (-1), .string [0x61]])])) ↔
        Nodes Textual (kCBORMaxDepth+1) (.map [(.integer 1, .array [.integer (-1), .string [0x61]])]) ∧
          Nodes Short (kCBORMaxDepth+1) (.map [(.integer 1, .array [.integer (-1), .string [0x61]])])) ∧
      ∀ v', (read [0x61, 0x61] = .ok v' ↔ Item Accepted (kCBORMaxDepth+1) v' [0x61, 0x61]) ∧
        (read [0x61, 0x61] = .ok v' → (write v' = .ok [0x61, 0x61] ↔
          ∀ string ∈ (textStrings (kCBORMaxDepth+1) [0x61, 0x61]).1, Convertible string)) := by
  refine read_write_iff (.map [(.integer 1, .array [.integer (-1), .string [0x61]])])
    ⟨⟨by decide,pairwise_singleton _ _,?_⟩,?_⟩ [0x61, 0x61]
  · exact forall_mem_singleton.2 (.inr rfl)
  · refine forall_mem_singleton.2 ⟨⟨trivial,trivial⟩,(by decide : 2 < 18446744073709551616),?_⟩
    exact forall_mem_cons.2 ⟨⟨trivial,trivial⟩,forall_mem_singleton.2 ⟨trivial,trivial⟩⟩

/-- A surrogate is written but not read, and a sequence whose second byte is no continuation is read but not written. -/
theorem write_not_inverse :
    write (.string [0xD800]) = .ok [0x63, 0xED, 0xA0, 0x80] ∧ read [0x63, 0xED, 0xA0, 0x80] = .error (some .invalidUTF8) ∧
      read [0x63, 0xED, 0x41, 0x80] = .ok (.string [0xC040]) ∧ write (.string [0xC040]) = .ok [0x63, 0xEC, 0x81, 0x80] :=
  ⟨rfl,rfl,rfl,rfl⟩

end WebKit.WebAuthn
