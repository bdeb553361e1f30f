import WebKit.Text.TextCodecUTF8

/-! What the decoder's loops write, as a scan of the bytes: characters and malformed pieces, up to a sequence that is not
complete. -/
namespace WebKit.Text
open List

section Bytes
open UInt8

variable {b c : UInt8} {seq : List UInt8} {length : Nat}

theorem isContinuation_iff : isContinuation c ↔ 0x80 ≤ c.toNat ∧ c.toNat ≤ 0xBF := by
  rw [isContinuation,Bool.and_eq_true,decide_eq_true_iff,decide_eq_true_iff]
  exact and_congr le_iff_toNat_le le_iff_toNat_le

theorem isASCII_iff : isASCII b ↔ b.toNat < 0x80 := by
  rw [isASCII,decide_eq_true_iff]
  exact lt_iff_toNat_lt

theorem nonASCIISequenceLength_eq (b : UInt8) : nonASCIISequenceLength b =
    if 0xC2 ≤ b.toNat ∧ b.toNat ≤ 0xDF then 2 else if 0xE0 ≤ b.toNat ∧ b.toNat ≤ 0xEF then 3
    else if 0xF0 ≤ b.toNat ∧ b.toNat ≤ 0xF4 then 4 else 0 := by
  rfl

theorem isSecondOfThree_iff : isSecondOfThree b c ↔ 0x80 ≤ c.toNat ∧ c.toNat ≤ 0xBF ∧
    (b.toNat = 0xE0 → 0xA0 ≤ c.toNat) ∧ (b.toNat = 0xED → c.toNat ≤ 0x9F) := by
  have hf : b = 0xE0 ↔ b.toNat = 0xE0 := UInt8.toNat_inj.symm
  have hs : b = 0xED ↔ b.toNat = 0xED := UInt8.toNat_inj.symm
  simp only [isSecondOfThree,hf,hs]
  split_ifs <;> simp only [Bool.and_eq_true,decide_eq_true_iff,le_iff_toNat_le,reduceToNat] <;> omega

theorem isSecondOfFour_iff : isSecondOfFour b c ↔ 0x80 ≤ c.toNat ∧ c.toNat ≤ 0xBF ∧
    (b.toNat = 0xF0 → 0x90 ≤ c.toNat) ∧ (b.toNat = 0xF4 → c.toNat ≤ 0x8F) := by
  have hf : b = 0xF0 ↔ b.toNat = 0xF0 := UInt8.toNat_inj.symm
  have hs : b = 0xF4 ↔ b.toNat = 0xF4 := UInt8.toNat_inj.symm
  simp only [isSecondOfFour,hf,hs]
  split_ifs <;> simp only [Bool.and_eq_true,decide_eq_true_iff,le_iff_toNat_le,reduceToNat] <;> omega

theorem isContinuation_of_second_three (h : isSecondOfThree b c) : isContinuation c := by
  have h := isSecondOfThree_iff.1 h
  exact isContinuation_iff.2 ⟨h.1,h.2.1⟩

theorem isContinuation_of_second_four (h : isSecondOfFour b c) : isContinuation c := by
  have h := isSecondOfFour_iff.1 h
  exact isContinuation_iff.2 ⟨h.1,h.2.1⟩

theorem length_two_iff : nonASCIISequenceLength b = 2 ↔ 0xC2 ≤ b.toNat ∧ b.toNat ≤ 0xDF := by
  rw [nonASCIISequenceLength_eq]
  split_ifs <;> simp <;> omega

theorem length_three_iff : nonASCIISequenceLength b = 3 ↔ 0xE0 ≤ b.toNat ∧ b.toNat ≤ 0xEF := by
  rw [nonASCIISequenceLength_eq]
  split_ifs <;> simp <;> omega

theorem length_four_iff : nonASCIISequenceLength b = 4 ↔ 0xF0 ≤ b.toNat ∧ b.toNat ≤ 0xF4 := by
  rw [nonASCIISequenceLength_eq]
  split_ifs <;> simp <;> omega

theorem not_ascii_of_length (h : nonASCIISequenceLength b ≠ 0) : ¬ b.toNat < 0x80 := by
  intro hl
  rw [nonASCIISequenceLength_eq] at h
  split_ifs at h <;> omega

theorem not_isContinuation_of_length (h : nonASCIISequenceLength b ≠ 0) : ¬ isContinuation b := by
  rw [isContinuation_iff]
  rw [nonASCIISequenceLength_eq] at h
  split_ifs at h <;> omega

/-- A sequence is given up at its second byte when that is no continuation. -/
theorem decodeNonASCIISequence_error (h : length = 2 ∨ length = 3 ∨ length = 4) (hc : ¬ isContinuation (seq.getD 1 0)) :
    decodeNonASCIISequence seq length = (none, 1) := by
  have ht (b : UInt8) : ¬ isSecondOfThree b (seq.getD 1 0) := fun h => hc (isContinuation_of_second_three h)
  have hf (b : UInt8) : ¬ isSecondOfFour b (seq.getD 1 0) := fun h => hc (isContinuation_of_second_four h)
  rw [Bool.not_eq_true] at hc
  simp only [Bool.not_eq_true] at ht hf
  rcases h with rfl | rfl | rfl <;> simp only [decodeNonASCIISequence,hc,ht,hf] <;> rfl

/-- The bytes of a sequence after its first are continuations, also of one that is given up. -/
theorem isContinuation_of_lt_count (h : length = 2 ∨ length = 3 ∨ length = 4) {i : Nat} (hi : 0 < i)
    (hl : i < (decodeNonASCIISequence seq length).2) : isContinuation (seq.getD i 0) := by
  by_cases hc : isContinuation (seq.getD 1 0)
  · obtain rfl | h1 : i = 1 ∨ 1 < i := by omega
    · exact hc
    have h4 : i < 4 := Nat.lt_of_lt_of_le hl (by
      rcases decodeNonASCIISequence_count seq h with ⟨c,hd⟩ | ⟨n,hd,-,hn⟩ <;> rw [hd] <;> dsimp only <;> omega)
    obtain rfl | rfl : i = 2 ∨ i = 3 := by omega
    all_goals rcases h with rfl | rfl | rfl <;> simp only [decodeNonASCIISequence] at hl <;> split_ifs at hl <;> simp_all
  · rw [decodeNonASCIISequence_error h hc] at hl
    omega

end Bytes

/-- The first character, or none for a malformed piece, with the number of its bytes. None if the bytes are too few to tell. -/
def firstItem : List UInt8 → Option (Option Nat × Nat)
  | [] => none
  | b::rest =>
    if isASCII b then some (some b.toNat, 1)
    else if nonASCIISequenceLength b = 0 then some (none, 1)
    else if nonASCIISequenceLength b > (b::rest).length then none
    else some (decodeNonASCIISequence (b::rest) (nonASCIISequenceLength b))

variable {bytes : List UInt8} {item : Option Nat × Nat}

theorem firstItem_pos (h : firstItem bytes = some item) : 0 < item.2 ∧ item.2 ≤ bytes.length := by
  unfold firstItem at h
  split at h
  · cases h
  · rename_i b rest
    split_ifs at h with ha hz hl
    · cases h
      exact ⟨Nat.one_pos,Nat.succ_pos _⟩
    · cases h
      exact ⟨Nat.one_pos,Nat.succ_pos _⟩
    · cases h
      have hb := decodeNonASCIISequence_pos (b::rest) hz
      exact ⟨hb.1,by omega⟩

/-- The items of some bytes and the bytes that are left. -/
def scan (bytes : List UInt8) : List (Option Nat) × List UInt8 :=
  match _h : firstItem bytes with
  | none => ([], bytes)
  | some item => (item.1 :: (scan (bytes.drop item.2)).1, (scan (bytes.drop item.2)).2)
termination_by bytes.length
decreasing_by
  have := firstItem_pos _h
  rw [List.length_drop]
  omega

theorem scan_of_none (h : firstItem bytes = none) : scan bytes = ([], bytes) := by
  rw [scan]
  split <;> simp_all

theorem scan_of_some (h : firstItem bytes = some item) :
    scan bytes = (item.1 :: (scan (bytes.drop item.2)).1, (scan (bytes.drop item.2)).2) := by
  rw [scan]
  split <;> simp_all

@[simp] theorem scan_nil : scan [] = ([], []) := scan_of_none rfl

/-- An induction over the items of some bytes. -/
theorem scan_induction {motive : List UInt8 → Prop} (hn : ∀ bytes, firstItem bytes = none → motive bytes)
    (hs : ∀ bytes item, firstItem bytes = some item → motive (bytes.drop item.2) → motive bytes) (bytes : List UInt8) :
    motive bytes := by
  fun_induction scan bytes with
  | case1 bytes h => exact hn bytes h
  | case2 bytes item h ih => exact hs bytes item h ih

/-- Some bytes that are waiting for more. -/
def Pending (bytes : List UInt8) : Prop := firstItem bytes = none

theorem pending_nil : Pending [] := rfl

theorem Pending.cons {b : UInt8} {r : List UInt8} (h : Pending (b::r)) :
    ¬ isASCII b ∧ nonASCIISequenceLength b ≠ 0 ∧ nonASCIISequenceLength b > (b::r).length := by
  rw [Pending,firstItem] at h
  split_ifs at h with ha hc hl
  exact ⟨ha,hc,hl⟩

theorem pending_cons {b : UInt8} {r : List UInt8} (hl : nonASCIISequenceLength b > (b::r).length) : Pending (b::r) := by
  have hc : nonASCIISequenceLength b ≠ 0 := by omega
  rw [Pending,firstItem,if_neg fun h => not_ascii_of_length hc (isASCII_iff.1 h),if_neg hc,if_pos hl]

theorem pending_append {b : UInt8} {r m : List UInt8} (hl : nonASCIISequenceLength b > (b::r).length + m.length) :
    Pending (b :: r ++ m) := pending_cons (by rw [← length_append] at hl; exact hl)

theorem Pending.length_le (h : Pending bytes) : bytes.length ≤ 3 := by
  cases bytes with
  | nil => exact Nat.zero_le _
  | cons b rest =>
    have := nonASCIISequenceLength_cases b
    have := h.cons.2.2
    omega

theorem pending_scan (bytes : List UInt8) : Pending (scan bytes).2 := by
  induction bytes using scan_induction with
  | hn bytes h => rwa [scan_of_none h]
  | hs bytes item h ih => rwa [scan_of_some h]

theorem exists_eq_append_scan (bytes : List UInt8) : ∃ bf, bytes = bf ++ (scan bytes).2 := by
  induction bytes using scan_induction with
  | hn bytes h => exact ⟨[],by rw [scan_of_none h]; rfl⟩
  | hs bytes item h ih =>
    obtain ⟨bf,hb⟩ := ih
    refine ⟨bytes.take item.2 ++ bf,?_⟩
    rw [scan_of_some h,append_assoc,← hb,take_append_drop]

variable {seq : List UInt8}

private theorem decodeNonASCIISequence_append {length : Nat} (h : length = 2 ∨ length = 3 ∨ length = 4)
    (hl : length ≤ seq.length) (m : List UInt8) :
    decodeNonASCIISequence (seq ++ m) length = decodeNonASCIISequence seq length := by
  have hg : ∀ i, i < length → (seq ++ m).getD i 0 = seq.getD i 0 := by
    intro i hi
    rw [getD_eq_getElem?_getD,getElem?_append_left (by omega),getD_eq_getElem?_getD]
  rcases h with rfl | rfl | rfl <;>
    simp only [decodeNonASCIISequence,hg,Nat.reduceLT,Nat.reduceEqDiff,if_true,if_false]

theorem firstItem_append (h : firstItem bytes = some item)
    (m : List UInt8) : firstItem (bytes ++ m) = some item := by
  cases bytes with
  | nil => cases h
  | cons b r =>
    rw [cons_append]
    unfold firstItem at h ⊢
    dsimp only at h ⊢
    split_ifs at h with ha hz hl
    · rw [if_pos ha,h]
    · rw [if_neg ha,if_pos hz,h]
    · have hl' : ¬ nonASCIISequenceLength b > (b :: (r ++ m)).length := by
        rw [length_cons,length_append] at *
        omega
      rw [if_neg ha,if_neg hz,if_neg hl',← h,← cons_append,
        decodeNonASCIISequence_append ((nonASCIISequenceLength_cases b).resolve_left hz) (by omega)]

/-- A scan goes on with what it left and the bytes that come after. -/
theorem scan_append (bytes m : List UInt8) : scan (bytes ++ m) =
    ((scan bytes).1 ++ (scan ((scan bytes).2 ++ m)).1, (scan ((scan bytes).2 ++ m)).2) := by
  induction bytes using scan_induction with
  | hn bytes h => rw [scan_of_none h,nil_append]
  | hs bytes item h ih =>
    have hl : item.2 ≤ bytes.length := (firstItem_pos h).2
    rw [scan_of_some h,scan_of_some (firstItem_append h m),drop_append_of_le_length hl,ih,cons_append]

variable {b : UInt8}

/-- The bytes of an item after its first are continuations. -/
theorem isContinuation_of_lt_firstItem (h : firstItem bytes = some item) {i : Nat} (hi : 0 < i) (hl : i < item.2) :
    isContinuation (bytes.getD i 0) := by
  cases bytes with
  | nil => cases h
  | cons b r =>
    rw [firstItem] at h
    split_ifs at h with ha hc hn <;> cases h
    · omega
    · omega
    · exact isContinuation_of_lt_count ((nonASCIISequenceLength_cases b).resolve_left hc) hi hl

/-- A byte that announces others starts an item, unless it is one of the bytes that are left. -/
theorem scan_announces (hb : nonASCIISequenceLength b ≠ 0) (bf a : List UInt8) :
    (∃ it, scan (bf ++ b::a) = (it ++ (scan (b::a)).1, (scan (b::a)).2)) ∨ (b::a).length < (scan (bf ++ b::a)).2.length := by
  induction hn : bf.length using Nat.strongRecOn generalizing bf with
  | _ n ih =>
  by_cases hbf : bf = []
  · exact .inl ⟨[],by rw [hbf]; rfl⟩
  have hp := length_pos_iff.2 hbf
  cases hi : firstItem (bf ++ b::a) with
  | none =>
    right
    rw [scan_of_none hi,length_append]
    omega
  | some item =>
    have hle : item.2 ≤ bf.length := by
      by_contra hlt
      have hc := isContinuation_of_lt_firstItem hi hp (by omega)
      rw [getD_eq_getElem?_getD,getElem?_append_right (Nat.le_refl _),Nat.sub_self] at hc
      exact not_isContinuation_of_length hb hc
    have hps := (firstItem_pos hi).1
    rw [scan_of_some hi,drop_append_of_le_length hle]
    obtain ⟨it,hs⟩ | hlt := ih _ (by rw [length_drop]; omega) (bf.drop item.2) rfl
    · exact .inl ⟨item.1::it,by rw [hs]; rfl⟩
    · exact .inr hlt

theorem firstItem_ascii (h : isASCII b) (r : List UInt8) :
    firstItem (b::r) = some (some b.toNat, 1) := if_pos h

theorem firstItem_invalid (ha : ¬ isASCII b) (hc : nonASCIISequenceLength b = 0) (r : List UInt8) :
    firstItem (b::r) = some (none, 1) := by rw [firstItem,if_neg ha,if_pos hc]

theorem firstItem_sequence {r : List UInt8} (ha : ¬ isASCII b) (hc : nonASCIISequenceLength b ≠ 0)
    (hl : ¬ nonASCIISequenceLength b > (b::r).length) :
    firstItem (b::r) = some (decodeNonASCIISequence (b::r) (nonASCIISequenceLength b)) := by
  rw [firstItem,if_neg ha,if_neg hc,if_neg hl]

theorem scan_ascii (h : bytes.all isASCII) (r : List UInt8) :
    scan (bytes ++ r) = (bytes.map (some ·.toNat) ++ (scan r).1, (scan r).2) := by
  induction bytes with
  | nil => rfl
  | cons b bytes ih =>
    rw [all_cons,Bool.and_eq_true] at h
    rw [cons_append,scan_of_some (firstItem_ascii h.1 _),drop_one,tail_cons,ih h.2]
    rfl

def text (items : List (Option Nat)) : List UInt16 := items.flatMap fun item => item.elim [replacementCharacter] appendCharacter

def malformed (items : List (Option Nat)) : Bool := items.any Option.isNone

@[simp] theorem text_nil : text [] = [] := rfl
@[simp] theorem text_none (items : List (Option Nat)) : text (none::items) = replacementCharacter :: text items := rfl
@[simp] theorem text_some (c : Nat) (items : List (Option Nat)) : text (some c :: items) = appendCharacter c ++ text items := rfl
@[simp] theorem text_append (items items' : List (Option Nat)) : text (items ++ items') = text items ++ text items' :=
  flatMap_append
@[simp] theorem malformed_nil : malformed [] = false := rfl
@[simp] theorem malformed_none (it : List (Option Nat)) : malformed (none::it) := rfl
@[simp] theorem malformed_some (c : Nat) (items : List (Option Nat)) : malformed (some c :: items) = malformed items := rfl
@[simp] theorem malformed_append (it it' : List (Option Nat)) :
    malformed (it ++ it') = (malformed it || malformed it') := any_append

theorem appendCharacter_byte (b : UInt8) : appendCharacter b.toNat = [b.toUInt16] := by
  have hb : b.toNat < 256 := b.toNat_lt
  rw [appendCharacter,if_pos (by omega)]
  congr 1
  apply UInt16.toNat.inj
  rw [UInt16.toNat_ofNat',UInt8.toNat_toUInt16,Nat.mod_eq_of_lt (by omega)]

theorem text_ascii (bytes : List UInt8) : text (bytes.map (some ·.toNat)) = bytes.map UInt8.toUInt16 := by
  induction bytes with
  | nil => rfl
  | cons b bytes ih => rw [map_cons,text_some,ih,appendCharacter_byte]; rfl

theorem malformed_ascii (bytes : List UInt8) : malformed (bytes.map (some ·.toNat)) = false := by
  induction bytes with
  | nil => rfl
  | cons b bytes ih => rw [map_cons,malformed_some,ih]

private theorem all_asciiWords (s : List UInt8) : (s.take (asciiWords s)).all isASCII := by
  fun_induction asciiWords s with
  | case1 s h ih => rw [take_add,all_append,h.2,ih]; rfl
  | case2 s h => rfl

theorem all_asciiCount (a : Nat) (r : List UInt8) (h : isASCII b) :
    ((b::r).take (asciiCount a (b::r))).all isASCII := by
  unfold asciiCount
  split
  · split
    · exact all_asciiWords _
    · rename_i b' r' hdr
      split_ifs with ha
      · exact all_asciiWords _
      · rw [take_add,hdr,all_append,all_asciiWords]
        simpa using ha
  · simpa using h

theorem count_of_character {c : Nat} (hcn : nonASCIISequenceLength b ≠ 0)
    (h : (decodeNonASCIISequence seq (nonASCIISequenceLength b)).1 = some c) :
    (decodeNonASCIISequence seq (nonASCIISequenceLength b)).2 = nonASCIISequenceLength b := by
  rcases decodeNonASCIISequence_count seq ((nonASCIISequenceLength_cases b).resolve_left hcn) with
    ⟨c',hc⟩ | ⟨k,hk,_⟩
  · rw [hc]
  · rw [hk] at h
    cases h

/-- The loop over a source writes the text of its scan. -/
theorem sourceLoop16_eq (a : Nat) (s : List UInt8) : sourceLoop16 false a s =
    ⟨text (scan s).1,[],(scan s).2,malformed (scan s).1,false⟩ := by
  fun_induction sourceLoop16 false a s with
  | case1 => simp
  | case2 b r ha c ih =>
    have hs := scan_ascii (all_asciiCount a r ha) ((b::r).drop c)
    rw [take_append_drop] at hs
    rw [ih,hs,text_append,malformed_append,text_ascii,malformed_ascii]
    rfl
  | case3 b r ha hc hst => cases hst
  | case4 b r ha hc hst ih =>
    rw [ih,scan_of_some (firstItem_invalid ha hc r)]
    rfl
  | case5 b r ha hc hl =>
    rw [scan_of_none (pending_cons hl)]
    rfl
  | case6 b r ha hc hl decoded hn hst => cases hst
  | case7 b r ha hc hl decoded hn hst ih =>
    rw [ih,scan_of_some (firstItem_sequence ha hc hl),hn]
    rfl
  | case8 b r ha hc hl decoded ch hsm ih =>
    have hc' : decoded.2 = nonASCIISequenceLength b := count_of_character hc hsm
    rw [ih,scan_of_some (firstItem_sequence ha hc hl),hsm,hc']
    rfl

end WebKit.Text
