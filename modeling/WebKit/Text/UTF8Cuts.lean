import WebKit.Text.UTF8Standard

/-! The bytes that are decoded alike however they are cut. -/
namespace WebKit.Text
open List

variable {x y z w v : UInt8} {rest more seq source : List UInt8} {addr : Nat}

private theorem out_decode16 {seq' source' : List UInt8} {o : List UInt16} {e : Bool}
    (h : handlePartialSequence16 true false seq source = (handlePartialSequence16 true false seq' source').after o e) :
    (decode16 true false addr seq source).out = o ++ (decode16 true false addr seq' source').out := by
  have hd := decode16_eq true addr seq source
  have hd' := decode16_eq true addr seq' source'
  rw [h] at hd
  rw [hd,hd']
  generalize handlePartialSequence16 true false seq' source' = done
  have hp : (done.after o e).partialSequence = done.partialSequence := rfl
  rw [hp]
  split_ifs
  · rfl
  · exact append_assoc _ _ _

private theorem not_isASCII_of_length (h : nonASCIISequenceLength x ≠ 0) : ¬ isASCII x :=
  fun ha => not_ascii_of_length h (isASCII_iff.1 ha)

section Steps

variable (hc : nonASCIISequenceLength x ≠ 0) (hl : ¬ nonASCIISequenceLength x > (x::rest).length + source.length)
  {filled : List UInt8} (hf : filled = x :: rest ++ source.take (nonASCIISequenceLength x - (x::rest).length))
include hc hl hf

private theorem out_of_malformed (hd : decodeNonASCIISequence filled (nonASCIISequenceLength x) = (none, 1)) :
    (decode16 true false addr (x::rest) source).out = replacementCharacter ::
      (decode16 true false addr (filled.drop 1) (source.drop (nonASCIISequenceLength x - (x::rest).length))).out := by
  subst hf
  refine out_decode16 (o := [replacementCharacter]) (e := true) ?_
  rw [handlePartialSequence16,if_neg (not_isASCII_of_length hc),dif_neg hc,if_neg hl]
  simp only [hd]
  rfl

private theorem out_of_character {c k : Nat} (hd : decodeNonASCIISequence filled (nonASCIISequenceLength x) = (some c, k)) :
    (decode16 true false addr (x::rest) source).out = appendCharacter c ++
      (decode16 true false addr (filled.take (filled.length-nonASCIISequenceLength x))
        (source.drop (nonASCIISequenceLength x - (x::rest).length))).out := by
  subst hf
  refine out_decode16 (e := false) ?_
  rw [handlePartialSequence16,if_neg (not_isASCII_of_length hc),dif_neg hc,if_neg hl]
  simp only [hd]

end Steps

private theorem lt_of_two (hy : nonASCIISequenceLength y = 2) (hz : isContinuation z) :
    0x80 ≤ (y.toNat <<< 6) + z.toNat - 0x3080 ∧ (y.toNat <<< 6) + z.toNat - 0x3080 < 0x800 := by
  rw [length_two_iff] at hy
  rw [isContinuation_iff] at hz
  omega

private theorem ofNat_inj {n m : Nat} (hn : n < 65536) (hm : m < 65536) (h : UInt16.ofNat n = UInt16.ofNat m) : n = m := by
  have h := congrArg UInt16.toNat h
  rwa [UInt16.toNat_ofNat',UInt16.toNat_ofNat',Nat.mod_eq_of_lt hn,Nat.mod_eq_of_lt hm] at h

/-- A text that starts with a character of two bytes is the text of that character. -/
theorem text_closed_ne {t : List UInt16} (hy : nonASCIISequenceLength y = 2) (hv : isContinuation v) (hw : w ≠ y) :
    text (closed (w::rest)) ≠ appendCharacter ((y.toNat <<< 6) + v.toNat - 0x3080) ++ t := by
  obtain ⟨hg,hlt⟩ := lt_of_two hy hv
  obtain ⟨ch,hch,hey⟩ := exists_char_two hy hv
  rw [appendCharacter,if_pos (by omega)]
  intro he
  cases hi : firstItem (w::rest) with
  | none =>
    rw [closed_of_pending hi (cons_ne_nil _ _)] at he
    exact absurd (ofNat_inj (n := 0xFFFD) (by decide) (by omega) (cons.inj he).1) (by omega)
  | some item =>
    rw [closed_of_some hi] at he
    cases hn : item.1 with
    | none =>
      rw [hn] at he
      exact absurd (ofNat_inj (n := 0xFFFD) (by decide) (by omega) (cons.inj he).1) (by omega)
    | some n =>
      obtain ⟨ch',hch',hew⟩ := exists_char_of_firstItem hi hn
      rw [hn,text_some,appendCharacter] at he
      split_ifs at he with hle
      · have heq := ofNat_inj (by omega) (by omega) (cons.inj he).1
        rw [Char.toNat_inj.1 (hch'.trans (heq.trans hch.symm)),hey] at hew
        exact hw (Option.some.inj hew).symm
      · have hb := Base.toNat_char ch'
        have := ofNat_inj (by omega) (by omega) (cons.inj he).1
        omega

private theorem out_ne_nil (v : UInt8) (seq source : List UInt8) : (decode16 true false addr (v::seq) source).out ≠ [] := by
  have hc (c : Nat) : appendCharacter c ≠ [] := by
    unfold appendCharacter
    split_ifs <;> exact cons_ne_nil _ _
  have ho : (handlePartialSequence16 true false (v::seq) source).out ≠ [] := by
    rw [handlePartialSequence16]
    simp only [Bool.not_true,Bool.false_eq_true,if_false]
    split_ifs
    · exact cons_ne_nil _ _
    · exact cons_ne_nil _ _
    · exact cons_ne_nil _ _
    · split
      · exact cons_ne_nil _ _
      · exact append_ne_nil_of_left_ne_nil (hc _) _
  have hd := decode16_eq true addr (v::seq) source
  rw [hd]
  split_ifs
  · exact ho
  · exact append_ne_nil_of_left_ne_nil ho _

private theorem decode_two (hy : nonASCIISequenceLength y = 2) (hz : isContinuation z) (more : List UInt8) :
    decodeNonASCIISequence (y::z::more) (nonASCIISequenceLength y) = (some ((y.toNat <<< 6) + z.toNat - 0x3080), 2) := by
  rw [hy]
  exact if_pos hz

/-- The text of a byte that is not replaceable differs from the text of the byte that is read in its place. -/
theorem out_replaced_ne (hy : nonASCIISequenceLength y = 2) (h : ¬ Replaceable y w rest) :
    (decode16 true false addr [y] rest).out ≠ text (closed (w::rest)) := by
  have hc : nonASCIISequenceLength y ≠ 0 := by omega
  rw [Replaceable,not_or,not_and] at h
  obtain ⟨hw,h⟩ := h
  have ha (t : List UInt16) (ha : isASCII w) : replacementCharacter :: t ≠ text (closed (w::rest)) := by
    rw [closed_of_some (firstItem_ascii ha rest),text_some,appendCharacter_byte]
    intro he
    have he := congrArg UInt16.toNat (cons.inj he).1
    rw [UInt8.toNat_toUInt16] at he
    exact absurd (isASCII_iff.1 ha) (by rw [← he]; decide)
  cases rest with
  | nil =>
    rw [decode16_waiting addr (pending_cons (by simp [hy])) (cons_ne_nil _ _)]
    refine ha [] ?_
    by_contra hn
    exact h hn ⟨by simp,.inl rfl⟩
  | cons v more =>
    have hl : ¬ nonASCIISequenceLength y > [y].length + (v::more).length := by
      rw [hy,length_singleton,length_cons]
      omega
    have hf : [y, v] = [y] ++ (v::more).take (nonASCIISequenceLength y - [y].length) := hy ▸ rfl
    by_cases hv : isContinuation v
    · rw [out_of_character hc hl hf (decode_two hy hv [])]
      exact fun he => text_closed_ne hy hv hw he.symm
    · have hd : decodeNonASCIISequence [y, v] (nonASCIISequenceLength y) = (none, 1) :=
        decodeNonASCIISequence_error (.inl hy) hv
      rw [out_of_malformed hc hl hf hd]
      by_cases hasc : isASCII w
      · exact ha _ hasc
      · have hp : Pending (w::v::more) := by
          refine pending_cons ?_
          by_contra hle
          exact h hasc ⟨fun u hu => Option.some.inj hu ▸ hv,.inr (Nat.le_of_not_lt hle)⟩
        rw [closed_of_pending hp (cons_ne_nil _ _)]
        exact fun he => out_ne_nil v [] _ (cons.inj he).2

/-- A cut before the last byte of a full buffer. -/
theorem decode_full (hx : nonASCIISequenceLength x = 4) (hy : nonASCIISequenceLength y = 2) (hz : isContinuation z) :
    (decode true false addr [x, y, z] (w::rest)).1 = replacementCharacter ::
      (appendCharacter ((y.toNat <<< 6) + z.toNat - 0x3080) ++ (decode16 true false addr [y] rest).out) := by
  have hc : nonASCIISequenceLength x ≠ 0 := by omega
  have hcy : nonASCIISequenceLength y ≠ 0 := by omega
  have hd : decodeNonASCIISequence [x, y, z, w] 4 = (none, 1) :=
    decodeNonASCIISequence_error (.inr (.inr rfl)) (not_isContinuation_of_length (b := y) hcy)
  have hh : handlePartialSequence8 true [x, y, z] (w::rest) = ⟨[],rest,[x, y, z, w],false,true⟩ := by
    rw [handlePartialSequence8,if_neg (not_isASCII_of_length hc),dif_neg hc,if_neg (by simp [hx]; omega)]
    simp [hx,hd]
  have hn : decode8 true false addr [x, y, z] (w::rest) = ⟨[],rest,[x, y, z, w],false,true⟩ := by
    rw [decode8,hh]
    rfl
  have hf : [x, y, z, w] = [x, y, z, w] ++ rest.take (nonASCIISequenceLength x - [x, y, z, w].length) := by rw [hx]; rfl
  have hf' : [y, z, w] = [y, z, w] ++ rest.take (nonASCIISequenceLength y - [y, z, w].length) := hy ▸ rfl
  rw [decode,hn]
  dsimp only [Progress.after]
  rw [if_pos rfl]
  dsimp only
  rw [nil_append,out_of_malformed hc (by simp [hx]) hf (by rw [hx]; exact hd),hx]
  exact congrArg _ ((out_of_character hcy (by simp [hy]; omega) hf' (decode_two hy hz [w])).trans (hy ▸ rfl))

private theorem closed_full (hx : nonASCIISequenceLength x = 4) (hy : nonASCIISequenceLength y = 2) (hz : isContinuation z) :
    closed (x::y::z::w::rest) = none :: some ((y.toNat <<< 6) + z.toNat - 0x3080) :: closed (w::rest) := by
  have hc : nonASCIISequenceLength y ≠ 0 := by omega
  have hi : firstItem (y::z::w::rest) = some (some ((y.toNat <<< 6) + z.toNat - 0x3080), 2) := by
    rw [firstItem_sequence (not_isASCII_of_length hc) hc (by simp [hy]),decode_two hy hz]
  have hn : ∀ v ∈ (y::z::w::rest).head?, ¬ isContinuation v := fun v hv => Option.some.inj hv ▸ not_isContinuation_of_length hc
  rw [closed_error (not_isASCII_of_length (by omega)) hn (.inr (by simp [hx])),closed_of_some hi]
  rfl

/-- No cut of some bytes matters exactly when no byte matters that gets lost: one after a first byte of four and a character of
two bytes. -/
theorem decodeChunks_eq_decodeWhole_iff (bytes : List UInt8) (endAddress : Nat) :
    (∀ (chunks : List Chunk) (last : Chunk), (chunks.map Chunk.bytes).flatten ++ last.bytes = bytes →
      decodeChunks [] chunks last = decodeWhole ⟨endAddress,bytes⟩) ↔ Uncut bytes := by
  constructor
  · rintro h x y z w rest ⟨bf,rfl⟩ hx hy hz
    by_contra hr
    have hc : nonASCIISequenceLength x ≠ 0 := by omega
    have hs : (scan (bf ++ [x, y, z])).2 = [x, y, z] := by
      obtain ⟨it,hs⟩ | hlt := scan_announces hc bf [y, z]
      · rw [hs,scan_of_none (pending_cons (by simp [hx]))]
      · exact absurd hlt (Nat.not_lt.2 (pending_scan _).length_le)
    have he := congrArg Prod.fst (h [⟨0,bf ++ [x, y, z]⟩] ⟨0,w::rest⟩ (by simp))
    rw [decodeWhole_eq,show bf ++ x::y::z::w::rest = bf ++ [x, y, z] ++ w::rest by simp,closed_append,hs,text_append] at he
    simp only [decodeChunks,decode_nil,close,Bool.false_eq_true,if_false,hs,decode_full hx hy hz] at he
    have he := append_cancel_left he
    rw [show [x, y, z] ++ w::rest = x::y::z::w::rest from rfl,closed_full hx hy hz,text_none,text_some] at he
    exact out_replaced_ne hy hr (append_cancel_left (cons.inj he).2)
  · rintro h chunks last rfl
    rw [decodeChunks_eq pending_nil chunks last h,decodeWhole_eq]
    rfl

theorem decodeChunks_loses_byte : decodeChunks [] [⟨0,[0xF0]⟩] ⟨0,[0xC3, 0xA9, 0x41]⟩ = ([0xFFFD, 0xE9, 0xFFFD], true) ∧
    decodeWhole ⟨0,[0xF0, 0xC3, 0xA9, 0x41]⟩ = ([0xFFFD, 0xE9, 0x41], true) := by
  decide +kernel

end WebKit.Text
