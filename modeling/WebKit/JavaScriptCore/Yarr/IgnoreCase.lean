import Mathlib.Data.List.TakeWhile
import WebKit.JavaScriptCore.Yarr.CanonicalRows

/-! The characters that a class without regard to case accepts. -/
namespace WebKit.JavaScriptCore.Yarr
open CanonicalizationRange List Option Int

namespace CorrectTables

variable {mode : CanonicalMode} {tables : CanonicalTables} {canon : Int → Int} {cc : CharacterClassConstructor}
  {row : CanonicalizationRange} {i : Nat} {ch lo hi last c : Int}

open CharacterClassConstructor

section
variable (h : CorrectTables mode tables canon)
include h

theorem areEquivalent_iff (hg : tables.rangeInfo[i]? = some row)
    (hr : row.begin ≤ ch ∧ ch ≤ row.last) (hc : mode.IsCodePoint ch) :
    row.areEquivalent tables ch c ↔ mode.IsCodePoint c ∧ canon ch = canon c := by
  rw [← CanonicalTables.areCanonicallyEquivalent_eq h.contiguous hg hr,h.partition ch hc]

theorem exists_row (hc : mode.IsCodePoint ch) :
    ∃ i row, tables.rangeInfo[i]? = some row ∧ row.begin ≤ ch ∧ ch ≤ row.last ∧
      Contiguous row.begin (tables.rangeInfo.drop i) (mode.lastCodePoint+1) :=
  h.contiguous.exists_row hc.1 (lt_add_one_of_le hc.2)

private theorem mem_set {ind : Int} (hc : c ∈ tables.canonicalCharacterSetInfo ind) : 0 < c ∧ c ≤ 0xFFFF := by
  rw [CanonicalTables.canonicalCharacterSetInfo,getD_eq_getElem?_getD] at hc
  cases hg : tables.characterSetInfo[ind.toNat]? with
  | none =>
    rw [hg] at hc
    cases hc
  | some set =>
    rw [hg] at hc
    exact h.short set (mem_of_getElem? hg) c hc

private theorem shortCharacters_eq (index : Int) :
    shortCharacters (tables.canonicalCharacterSetInfo index) = tables.canonicalCharacterSetInfo index := by
  have hm : (tables.canonicalCharacterSetInfo index).map (· % 0x10000) = tables.canonicalCharacterSetInfo index := by
    refine (map_congr_left fun c hc => ?_).trans (map_id _)
    have := h.mem_set hc
    rw [id]
    omega
  rw [shortCharacters,hm,takeWhile_eq_self_iff]
  intro c hc
  have := h.mem_set hc
  simp only [ne_eq,decide_eq_true_eq]
  omega

end

private theorem exists_orOne_iff (hle : lo ≤ last) : (∃ x, lo ≤ x ∧ x ≤ last ∧ orOne x = orOne c) ↔
    lo ≤ c ∧ c ≤ last ∨ lo%2 = 1 ∧ c = lo - 1 ∨ last%2 = 0 ∧ c = last + 1 := by
  constructor
  · rintro ⟨x,hlo,hl,heq⟩
    simp only [orOne] at heq
    split_ifs at heq <;> omega
  · rintro (hc | ⟨ho,rfl⟩ | ⟨he,rfl⟩)
    · exact ⟨c,hc.1,hc.2,rfl⟩
    · refine ⟨lo,le_rfl,hle,?_⟩
      simp only [orOne]
      split_ifs <;> omega
    · refine ⟨last,hle,le_rfl,?_⟩
      simp only [orOne]
      split_ifs <;> omega

private theorem addUnicodeIf (hw : cc.WellFormed) (p : Prop) [Decidable p] (ch : Int) :
    cc.Adds (if p then cc.addRangeUnicode ch ch else cc) fun c => ¬ isASCII c ∧ p ∧ c = ch := by
  split_ifs with hp
  · refine (hw.addRangeUnicode (le_refl ch)).congr fun c => and_congr_right fun _ => ?_
    rw [and_iff_right hp]
    omega
  · exact (Adds.refl hw).congr fun c => by simp [hp]

section
variable (h : CorrectTables mode tables canon)
include h

/-- A range's characters that are in a row, with their equivalents. -/
theorem putRangeInfo_adds (hw : cc.WellFormed)
    (hg : tables.rangeInfo[i]? = some row) (hlo : row.begin ≤ lo) (hle : lo ≤ last) (hl : last ≤ row.last)
    (hsd : ¬ isASCII lo) (hp : mode.IsCodePoint lo) (hp' : mode.IsCodePoint last) :
    ∃ new, cc.Adds (cc.putRangeInfo tables row lo last) new ∧ ∀ c, new c ∨ ¬ isASCII c ∧ lo ≤ c ∧ c ≤ last ↔
        ¬ isASCII c ∧ ∃ x, lo ≤ x ∧ x ≤ last ∧ row.areEquivalent tables x c := by
  have he : ∀ x, lo ≤ x → x ≤ last → ∀ c,
      (row.areEquivalent tables x c ↔ mode.IsCodePoint c ∧ canon x = canon c) := fun x hx hx' c =>
    h.areEquivalent_iff hg ⟨by omega,by omega⟩ ⟨hp.1.trans hx,hx'.trans hp'.2⟩
  rw [putRangeInfo]
  cases ht : row.type with
  | unique =>
    refine ⟨_,Adds.refl hw,fun c => ?_⟩
    rw [false_or]
    refine and_congr_right fun _ => ?_
    simp only [areEquivalent,ht,decide_eq_true_eq]
    exact ⟨fun hc => ⟨c,hc.1,hc.2,rfl⟩,fun ⟨x,hx,hx',heq⟩ => heq ▸ ⟨hx,hx'⟩⟩
  | set =>
    have hst : ∀ x c, row.areEquivalent tables x c ↔ c ∈ tables.canonicalCharacterSetInfo row.value := by
      simp [areEquivalent,ht]
    rw [h.shortCharacters_eq]
    -- An ASCII member has the form of a character that is not ASCII, so it is `K` or `S`.
    refine ⟨_,hw.foldl fun k hk c hc => hk.addUnicode fun ha => ?_,fun c => ?_⟩
    · obtain ⟨-,heq⟩ := (he lo le_rfl hle c).1 ((hst lo c).2 hc)
      exact (h.crossing c lo ha hp hsd heq.symm).2
    · simp only [hst]
      constructor
      · rintro (⟨_,hc,hsd,rfl⟩ | ⟨hsd,hc,hc'⟩)
        · exact ⟨hsd,lo,le_rfl,hle,hc⟩
        · refine ⟨hsd,c,hc,hc',(hst c c).1 ((he c hc hc' c).2 ⟨?_,rfl⟩)⟩
          exact ⟨hp.1.trans hc,hc'.trans hp'.2⟩
      · rintro ⟨hsd,x,-,-,hc⟩
        exact .inl ⟨c,hc,hsd,rfl⟩
  | rangeLo =>
    refine ⟨_,hw.addRangeUnicode (by omega),fun c => ?_⟩
    rw [← and_or_left]
    refine and_congr_right fun _ => ?_
    simp only [areEquivalent,ht,Bool.or_eq_true,decide_eq_true_eq]
    constructor
    · rintro (hc | hc)
      · exact ⟨c - row.value,by omega,by omega,.inr (by omega)⟩
      · exact ⟨c,hc.1,hc.2,.inl rfl⟩
    · rintro ⟨x,hx,hx',heq⟩
      omega
  | rangeHi =>
    refine ⟨_,hw.addRangeUnicode (by omega),fun c => ?_⟩
    rw [← and_or_left]
    refine and_congr_right fun _ => ?_
    simp only [areEquivalent,ht,Bool.or_eq_true,decide_eq_true_eq]
    constructor
    · rintro (hc | hc)
      · exact ⟨c + row.value,by omega,by omega,.inr (by omega)⟩
      · exact ⟨c,hc.1,hc.2,.inl rfl⟩
    · rintro ⟨x,hx,hx',heq⟩
      omega
  | alternatingAligned =>
    have hf := addUnicodeIf hw (lo%2 = 1) (lo-1)
    refine ⟨_,hf.trans (addUnicodeIf hf.wellFormed (last%2 = 0) (last+1)),fun c => ?_⟩
    rw [← and_or_left,← and_or_left]
    refine and_congr_right fun _ => ?_
    simp only [areEquivalent,ht,decide_eq_true_eq]
    rw [exists_orOne_iff hle,or_comm]
  | alternatingUnaligned =>
    have hf := addUnicodeIf hw (lo%2 = 0) (lo-1)
    refine ⟨_,hf.trans (addUnicodeIf hf.wellFormed (last%2 = 1) (last+1)),fun c => ?_⟩
    rw [← and_or_left,← and_or_left]
    refine and_congr_right fun _ => ?_
    simp only [areEquivalent,ht,decide_eq_true_eq]
    have hs : (∃ x, lo ≤ x ∧ x ≤ last ∧ orOne (x-1) = orOne (c-1)) ↔
        ∃ x, lo - 1 ≤ x ∧ x ≤ last - 1 ∧ orOne x = orOne (c-1) :=
      ⟨fun ⟨x,hx,hx',heq⟩ => ⟨x - 1,by omega,by omega,heq⟩,
        fun ⟨x,hx,hx',heq⟩ => ⟨x + 1,by omega,by omega,by rwa [Int.add_sub_cancel]⟩⟩
    rw [hs,exists_orOne_iff (by omega)]
    omega

private theorem exists_areEquivalent_iff (hg : tables.rangeInfo[i]? = some row)
    (hlo : row.begin ≤ lo) (hl : last ≤ row.last) (hp : mode.IsCodePoint lo) (hp' : mode.IsCodePoint last) :
    (∃ x, lo ≤ x ∧ x ≤ last ∧ row.areEquivalent tables x c) ↔
      mode.IsCodePoint c ∧ ∃ x, lo ≤ x ∧ x ≤ last ∧ canon x = canon c := by
  have he : ∀ x, lo ≤ x → x ≤ last →
      (row.areEquivalent tables x c ↔ mode.IsCodePoint c ∧ canon x = canon c) := fun x hx hx' =>
    h.areEquivalent_iff hg ⟨by omega,by omega⟩ ⟨hp.1.trans hx,hx'.trans hp'.2⟩
  constructor
  · rintro ⟨x,hx,hx',heq⟩
    obtain ⟨hc,heq⟩ := (he x hx hx').1 heq
    exact ⟨hc,x,hx,hx',heq⟩
  · rintro ⟨hc,x,hx,hx',heq⟩
    exact ⟨x,hx,hx',(he x hx hx').2 ⟨hc,heq⟩⟩

/-- The walk adds the equivalents of all characters of a range. -/
theorem putRangeInfos_adds {rows : List CanonicalizationRange} {s : Int}
    (hw : cc.WellFormed) (hr : rows ⊆ tables.rangeInfo)
    (hc : Contiguous s rows (mode.lastCodePoint+1)) (hst : s ≤ lo) (hh : ∀ row ∈ rows.head?, lo ≤ row.last)
    (hle : lo ≤ hi) (hsd : 0x80 ≤ lo) (hp : hi ≤ mode.lastCodePoint) :
    ∃ new, cc.Adds (putRangeInfos tables hi cc rows lo) new ∧ ∀ c, new c ∨ ¬ isASCII c ∧ lo ≤ c ∧ c ≤ hi ↔
        ¬ isASCII c ∧ mode.IsCodePoint c ∧ ∃ x, lo ≤ x ∧ x ≤ hi ∧ canon x = canon c := by
  induction rows generalizing cc s lo with
  | nil =>
    have : s = mode.lastCodePoint + 1 := hc
    omega
  | cons row rows ih =>
    obtain ⟨hb,-,hrs⟩ := hc
    obtain ⟨hmm,hr⟩ := cons_subset.1 hr
    obtain ⟨i,hg⟩ := getElem?_of_mem hmm
    have hl : lo ≤ row.last := hh row rfl
    have ha : ¬ isASCII lo := by
      rw [isASCII_iff]
      omega
    have hmn : lo ≤ min row.last hi := by omega
    obtain ⟨new,had,hnw⟩ := h.putRangeInfo_adds hw hg (by omega) hmn (by omega) ha
      ⟨by omega,by omega⟩ ⟨by omega,by omega⟩
    replace hnw : ∀ c, new c ∨ ¬ isASCII c ∧ lo ≤ c ∧ c ≤ min row.last hi ↔ ¬ isASCII c ∧ mode.IsCodePoint c ∧
        ∃ x, lo ≤ x ∧ x ≤ min row.last hi ∧ canon x = canon c := fun c => by
      rw [hnw,h.exists_areEquivalent_iff hg (by omega) (by omega) ⟨by omega,by omega⟩ ⟨by omega,by omega⟩]
    rw [putRangeInfos]
    split_ifs with hdn
    · rw [← hdn] at hnw
      exact ⟨new,had,hnw⟩
    · obtain ⟨next,rows,rfl⟩ : ∃ next rest, rows = next::rest := by
        cases rows with
        | nil =>
          have : row.last + 1 = mode.lastCodePoint + 1 := hrs
          omega
        | cons next rest => exact ⟨next,rest,rfl⟩
      have hn := hrs.1
      rw [head?_cons,map_some,getD_some,hn]
      obtain ⟨m,hm,hnm⟩ := ih had.wellFormed hr hrs le_rfl
        (fun row hrw => by obtain rfl := some.inj hrw; have := hrs.2.1; omega) (by omega) (by omega)
      refine ⟨_,had.trans hm,fun c => ?_⟩
      have hs : ∀ x, lo ≤ x ∧ x ≤ hi ↔ lo ≤ x ∧ x ≤ min row.last hi ∨ row.last + 1 ≤ x ∧ x ≤ hi := by omega
      have he : (∃ x, lo ≤ x ∧ x ≤ hi ∧ canon x = canon c) ↔
          (∃ x, lo ≤ x ∧ x ≤ min row.last hi ∧ canon x = canon c) ∨
            ∃ x, row.last + 1 ≤ x ∧ x ≤ hi ∧ canon x = canon c := by
        simp only [← and_assoc,hs,or_and_right,exists_or]
      rw [he,hs c,and_or_left,or_or_or_comm,hnw,hnm,← and_or_left,← and_or_left]

end

theorem toASCIILower_eq (c : Int) : toASCIILower c = if 0x41 ≤ c ∧ c ≤ 0x5A then c + 0x20 else c := by
  simp [toASCIILower,isASCIIUpper]

theorem toASCIIUpper_eq (c : Int) : toASCIIUpper c = if 0x61 ≤ c ∧ c ≤ 0x7A then c - 0x20 else c := by
  simp [toASCIIUpper,isASCIILower]

private theorem addASCIIIf (hw : cc.WellFormed) (p : Prop) [Decidable p] (hl : p → lo ≤ hi) :
    cc.Adds (if p then cc.addRangeASCII lo hi else cc) fun c => isASCII c ∧ p ∧ lo ≤ c ∧ c ≤ hi := by
  split_ifs with hp
  · exact (hw.addRangeASCII (hl hp)).congr fun c => by simp [hp]
  · exact (Adds.refl hw).congr fun c => by simp [hp]

private theorem putRangeASCII_adds (hw : cc.WellFormed) (hle : lo ≤ hi) : cc.Adds (cc.putRangeASCII true lo hi) fun c =>
      isASCII c ∧ ∃ x, lo ≤ x ∧ x ≤ hi ∧ toASCIILower x = toASCIILower c := by
  have hr := hw.addRangeASCII hle
  have hle₁ : lo ≤ 0x5A ∧ hi ≥ 0x41 → max lo 0x41 + 0x20 ≤ min hi 0x5A + 0x20 := by omega
  have hl := addASCIIIf hr.wellFormed (lo ≤ 0x5A ∧ hi ≥ 0x41) hle₁
  have hle₂ : lo ≤ 0x7A ∧ hi ≥ 0x61 → max lo 0x61 - 0x20 ≤ min hi 0x7A - 0x20 := by omega
  have hu := addASCIIIf hl.wellFormed (lo ≤ 0x7A ∧ hi ≥ 0x61) hle₂
  refine ((hr.trans hl).trans hu).congr fun c => ?_
  rw [← and_or_left,← and_or_left]
  refine and_congr_right fun _ => ?_
  constructor
  · rintro ((hc | hc) | hc)
    · exact ⟨c,hc.1,hc.2,rfl⟩
    · refine ⟨c - 0x20,by omega,by omega,?_⟩
      rw [toASCIILower_eq,toASCIILower_eq]
      split_ifs <;> omega
    · refine ⟨c + 0x20,by omega,by omega,?_⟩
      rw [toASCIILower_eq,toASCIILower_eq]
      split_ifs <;> omega
  · rintro ⟨x,hx,hx',he⟩
    rw [toASCIILower_eq,toASCIILower_eq] at he
    split_ifs at he <;> omega

theorem isCodePoint_of_isASCII (hc : isASCII c) : mode.IsCodePoint c := by
  rw [isASCII_iff] at hc
  cases mode <;> exact ⟨by omega,by simp only [CanonicalMode.lastCodePoint]; omega⟩

private theorem putRange_ascii_adds (hw : cc.WellFormed) (hlo : 0 ≤ lo) (hl : lo ≤ hi) :
    cc.Adds (if isASCII lo then cc.putRangeASCII true lo (min hi 0x7F) else cc) fun c =>
      isASCII c ∧ ∃ x, lo ≤ x ∧ x ≤ hi ∧ isASCII x ∧ toASCIILower x = toASCIILower c := by
  simp only [isASCII_iff]
  split_ifs with hs
  · refine (putRangeASCII_adds hw (by omega)).congr fun c => and_congr isASCII_iff (exists_congr fun x => ?_)
    have : lo ≤ x ∧ x ≤ min hi 0x7F ↔ lo ≤ x ∧ x ≤ hi ∧ 0 ≤ x ∧ x ≤ 0x7F := by omega
    rw [← and_assoc,this,and_assoc,and_assoc]
  · refine (Adds.refl hw).congr fun c => iff_of_false not_false ?_
    rintro ⟨-,x,hx,hx',ha,-⟩
    omega

private theorem putRangeUnicode_adds (h : CorrectTables mode tables canon) (hw : cc.WellFormed)
    (hlo : 0x80 ≤ lo) (hhi : hi ≤ mode.lastCodePoint) (hle : lo ≤ hi) :
    cc.Adds (cc.putRangeUnicode tables true lo hi) fun c => ¬ isASCII c ∧ mode.IsCodePoint c ∧
      ∃ x, lo ≤ x ∧ x ≤ hi ∧ canon x = canon c := by
  have hp : mode.IsCodePoint lo := ⟨by omega,by omega⟩
  obtain ⟨i,row,hg,hb,hl,hc⟩ := h.exists_row hp
  have hrn := hw.addRangeUnicode hle
  have hh : (tables.rangeInfo.drop i).head? = some row := by rw [head?_drop,hg]
  obtain ⟨new,ha,hn⟩ := h.putRangeInfos_adds hrn.wellFormed (drop_subset _ _) hc hb
    (fun r hr => by obtain rfl := some.inj (hh.symm.trans hr); exact hl) hle hlo hhi
  rw [putRangeUnicode,CanonicalTables.canonicalRangeInfoFor_eq h.contiguous hg ⟨hb,hl⟩]
  exact (hrn.trans ha).congr fun c => by rw [or_comm,hn]

/-- A range puts the characters with the form of one of its characters that is on their side of 0x80. -/
theorem putRange_adds (h : CorrectTables mode tables canon) (hw : cc.WellFormed) (hl : mode.IsCodePoint lo)
    (hh : mode.IsCodePoint hi) (hle : lo ≤ hi) :
    cc.Adds (cc.putRange tables true lo hi) fun c => mode.IsCodePoint c ∧
      ∃ x, lo ≤ x ∧ x ≤ hi ∧ isASCII x = isASCII c ∧ canon x = canon c := by
  have ha := putRange_ascii_adds hw hl.1 hle
  have haf : ∀ c, isASCII c ∧ (∃ x, lo ≤ x ∧ x ≤ hi ∧ isASCII x ∧ toASCIILower x = toASCIILower c) ↔
      isASCII c ∧ ∃ x, lo ≤ x ∧ x ≤ hi ∧ isASCII x ∧ canon x = canon c := fun c =>
    and_congr_right fun hc => exists_congr fun x => and_congr_right fun _ => and_congr_right fun _ => and_congr_right fun hx =>
      (h.ascii x c hx hc).symm
  rw [putRange]
  by_cases hs : isASCII hi
  · rw [if_pos hs]
    refine (ha.congr haf).congr fun c => ⟨fun ⟨hc,x,hx,hx',hxs,he⟩ => ?_,fun ⟨hc,x,hx,hx',hxs,he⟩ => ?_⟩
    · exact ⟨isCodePoint_of_isASCII hc,x,hx,hx',hxs.trans hc.symm,he⟩
    · have hxa : isASCII x := by
        rw [isASCII_iff] at hs ⊢
        have := hl.1
        omega
      exact ⟨hxs ▸ hxa,x,hx,hx',hxa,he⟩
  · rw [if_neg hs]
    have hm : max lo 0x80 ≤ hi := by
      rw [isASCII_iff] at hs
      have := hl.1
      omega
    have hu := h.putRangeUnicode_adds ha.wellFormed (by omega) hh.2 hm
    refine ((ha.congr haf).trans hu).congr fun c => ?_
    by_cases hc : isASCII c
    · have : mode.IsCodePoint c := isCodePoint_of_isASCII hc
      simp [hc,this]
    · have hx : ∀ x, max lo 0x80 ≤ x ↔ lo ≤ x ∧ ¬ isASCII x := by
        have := hl.1
        intro x
        rw [isASCII_iff]
        omega
      simp [hc,hx,and_assoc,and_left_comm]

private theorem equivalent_ascii_iff (h : CorrectTables .ucs2 tables canon) (hch : isASCII ch) :
    CanonicalMode.ucs2.IsCodePoint c ∧ canon ch = canon c ↔ isASCII c ∧ toASCIILower ch = toASCIILower c := by
  constructor
  · rintro ⟨hp,he⟩
    have hc : isASCII c := by
      by_contra hc
      exact nomatch (h.crossing ch c hch hp hc he).1
    exact ⟨hc,(h.ascii ch c hch hc).1 he⟩
  · rintro ⟨hc,he⟩
    exact ⟨isCodePoint_of_isASCII hc,(h.ascii ch c hch hc).2 he⟩

private theorem isASCIIAlpha_iff : isASCIIAlpha ch ↔ 0x41 ≤ ch ∧ ch ≤ 0x5A ∨ 0x61 ≤ ch ∧ ch ≤ 0x7A := by
  simp [isASCIIAlpha,isASCIIUpper,isASCIILower]

private theorem orOne_eq_iff {a b : Int} : orOne a = orOne b ↔ b = a ∨ b = xorOne a := by
  simp only [orOne,xorOne]
  split_ifs <;> omega

private theorem putUnicodeIgnoreCase_adds (hw : cc.WellFormed) (hu : row.type ≠ .unique) :
    cc.Adds (cc.putUnicodeIgnoreCase tables ch row) fun c => row.areEquivalent tables ch c := by
  have hp : cc.Adds ((cc.addSorted ch).addSorted (getCanonicalPair row ch)) fun c =>
      c = ch ∨ c = getCanonicalPair row ch := (hw.addSorted ch).trans ((hw.addSorted ch).wellFormed.addSorted _)
  rw [putUnicodeIgnoreCase]
  cases ht : row.type with
  | unique => exact absurd ht hu
  | set =>
    refine (hw.foldl fun k hk ch _ => hk.addSorted ch).congr fun c => ?_
    simp [areEquivalent,ht]
  | rangeLo =>
    refine hp.congr fun c => ?_
    simp only [areEquivalent,getCanonicalPair,ht,Bool.or_eq_true,decide_eq_true_eq]
    omega
  | rangeHi =>
    refine hp.congr fun c => ?_
    simp only [areEquivalent,getCanonicalPair,ht,Bool.or_eq_true,decide_eq_true_eq]
    omega
  | alternatingAligned =>
    refine hp.congr fun c => ?_
    simp only [areEquivalent,getCanonicalPair,ht,decide_eq_true_eq,orOne_eq_iff]
  | alternatingUnaligned =>
    refine hp.congr fun c => ?_
    simp only [areEquivalent,getCanonicalPair,ht,decide_eq_true_eq,orOne_eq_iff]
    omega

/-- A character puts those with its form. -/
theorem putChar_adds (h : CorrectTables mode tables canon) (hw : cc.WellFormed) (hc : mode.IsCodePoint ch) :
    cc.Adds (cc.putChar tables true mode ch) fun c => mode.IsCodePoint c ∧ canon ch = canon c := by
  rw [putChar,if_neg (by decide)]
  by_cases hs : mode = .ucs2 ∧ isASCII ch
  · obtain ⟨rfl,ha⟩ := hs
    rw [if_pos ⟨rfl,ha⟩]
    have ha' := isASCII_iff.1 ha
    split_ifs with hap
    · have hau : isASCII (toASCIIUpper ch) := by
        rw [isASCII_iff,toASCIIUpper_eq]
        split_ifs <;> omega
      have hal : isASCII (toASCIILower ch) := by
        rw [isASCII_iff,toASCIILower_eq]
        split_ifs <;> omega
      have hup := hw.addASCII hau
      have hl := hup.wellFormed.addASCII hal
      refine (hup.trans hl).congr fun c => ?_
      rw [h.equivalent_ascii_iff ha,isASCII_iff]
      simp only [toASCIIUpper_eq,toASCIILower_eq]
      split_ifs <;> omega
    · refine (hw.addASCII ha).congr fun c => ?_
      rw [isASCIIAlpha_iff] at hap
      rw [h.equivalent_ascii_iff ha,isASCII_iff]
      simp only [toASCIILower_eq]
      split_ifs <;> omega
  · obtain ⟨i,row,hg,hb,hls,-⟩ := h.exists_row hc
    rw [CanonicalTables.canonicalRangeInfoFor_eq h.contiguous hg ⟨hb,hls⟩,bind_some,hg]
    have hif := fun c => h.areEquivalent_iff (c := c) hg ⟨hb,hls⟩ hc
    dsimp only
    split_ifs with hu
    · refine (hw.addSorted ch).congr fun c => ?_
      rw [← hif]
      simp [areEquivalent,hu,eq_comm]
    · exact (putUnicodeIgnoreCase_adds hw hu).congr hif

end CorrectTables

end WebKit.JavaScriptCore.Yarr
