import Mathlib.Data.List.InsertIdx
import Mathlib.Data.List.Sort
import WebKit.JavaScriptCore.Yarr.CharacterClass

/-! The tables of a character class are sorted and hold what was added to them. -/
namespace WebKit.JavaScriptCore.Yarr
open List

/-- A character is in one of some ranges. -/
def Covers (ranges : List CharacterRange) (c : Int) : Prop := ∃ range ∈ ranges, range.begin ≤ c ∧ c ≤ range.last

/-- The ranges are not empty, in order, and do not touch. -/
structure Separate (ranges : List CharacterRange) : Prop where
  nonempty : ∀ range ∈ ranges, range.begin ≤ range.last
  order : ranges.Pairwise fun range next => range.last + 1 < next.begin

def Sorted (characters : List Int) : Prop := characters.Pairwise (· < ·)

section Ranges

variable {range : CharacterRange} {ranges : List CharacterRange} {lo hi c : Int}

theorem covers_cons : Covers (range::ranges) c ↔ range.begin ≤ c ∧ c ≤ range.last ∨ Covers ranges c := by
  simp only [Covers,mem_cons,or_and_right,exists_or,exists_eq_left]

theorem not_covers_nil : ¬ Covers [] c := fun ⟨_,h,_⟩ => nomatch h

theorem separate_cons : Separate (range::ranges) ↔
    range.begin ≤ range.last ∧ (∀ next ∈ ranges, range.last + 1 < next.begin) ∧ Separate ranges := by
  constructor
  · rintro ⟨hn,ho⟩
    obtain ⟨hr,hn⟩ := forall_mem_cons.1 hn
    obtain ⟨hnx,ho⟩ := pairwise_cons.1 ho
    exact ⟨hr,hnx,hn,ho⟩
  · rintro ⟨hr,hnx,hn,ho⟩
    exact ⟨forall_mem_cons.2 ⟨hr,hn⟩,pairwise_cons.2 ⟨hnx,ho⟩⟩

theorem separate_nil : Separate [] := ⟨forall_mem_nil _,.nil⟩

theorem mergeRangesFrom_spec (hr : range.begin ≤ range.last) (h : Separate ranges)
    (hb : ∀ next ∈ ranges, range.begin ≤ next.begin) :
    Separate (mergeRangesFrom range ranges) ∧ (∀ c, Covers (mergeRangesFrom range ranges) c ↔ Covers (range::ranges) c) ∧
      ∀ next ∈ mergeRangesFrom range ranges, range.begin ≤ next.begin := by
  induction ranges generalizing range with
  | nil => exact ⟨separate_cons.2 ⟨hr,forall_mem_nil _,h⟩,fun _ => Iff.rfl,by simp [mergeRangesFrom]⟩
  | cons next ranges ih =>
    obtain ⟨hn,ha,hrs⟩ := separate_cons.1 h
    obtain ⟨hb,hbg⟩ := forall_mem_cons.1 hb
    rw [mergeRangesFrom]
    split_ifs with ht
    · have hj : range.begin ≤ max range.last next.last := by omega
      obtain ⟨hsp,hc,hl⟩ := @ih ⟨range.begin,max range.last next.last⟩ hj hrs hbg
      refine ⟨hsp,fun c => ?_,hl⟩
      rw [hc,covers_cons,covers_cons,covers_cons,← or_assoc]
      have : (range.begin ≤ c ∧ c ≤ max range.last next.last) ↔
          (range.begin ≤ c ∧ c ≤ range.last ∨ next.begin ≤ c ∧ c ≤ next.last) := by omega
      rw [this]
    · refine ⟨separate_cons.2 ⟨hr,?_,h⟩,fun _ => Iff.rfl,?_⟩
      · intro s hs
        rcases mem_cons.1 hs with rfl | hs
        · omega
        · have := ha s hs
          omega
      · exact forall_mem_cons.2 ⟨le_rfl,forall_mem_cons.2 ⟨hb,hbg⟩⟩

theorem addSortedRange_spec (hlo : lo ≤ hi) (h : Separate ranges) : Separate (addSortedRange lo hi ranges) ∧
      (∀ c, Covers (addSortedRange lo hi ranges) c ↔ lo ≤ c ∧ c ≤ hi ∨ Covers ranges c) ∧
      ∀ b, b < lo → (∀ range ∈ ranges, b < range.begin) → ∀ range ∈ addSortedRange lo hi ranges, b < range.begin := by
  induction ranges with
  | nil => exact ⟨separate_cons.2 ⟨hlo,forall_mem_nil _,h⟩,fun _ => covers_cons,by simp [addSortedRange]⟩
  | cons range ranges ih =>
    obtain ⟨hrn,ha,hr⟩ := separate_cons.1 h
    rw [addSortedRange]
    split_ifs with hbf ht ho
    · refine ⟨separate_cons.2 ⟨by dsimp only; omega,ha,hr⟩,fun c => ?_,fun b hb hbn => ?_⟩
      · rw [covers_cons,covers_cons,← or_assoc]
        have : (lo ≤ c ∧ c ≤ range.last) ↔ (lo ≤ c ∧ c ≤ hi ∨ range.begin ≤ c ∧ c ≤ range.last) := by omega
        rw [← this]
      · exact forall_mem_cons.2 ⟨hb,(forall_mem_cons.1 hbn).2⟩
    · refine ⟨separate_cons.2 ⟨hlo,forall_mem_cons.2 ⟨by dsimp only; omega,fun next hnx => ?_⟩,h⟩,fun c => covers_cons,?_⟩
      · have := ha next hnx
        dsimp only
        omega
      · exact fun b hb hbn => forall_mem_cons.2 ⟨hb,hbn⟩
    · have hj : min range.begin lo ≤ max range.last hi := by omega
      have hn : ∀ next ∈ ranges, min range.begin lo ≤ next.begin := fun next hnx => by
        have := ha next hnx
        omega
      obtain ⟨hs,hc,hl⟩ := @mergeRangesFrom_spec ⟨min range.begin lo,max range.last hi⟩ _ hj hr hn
      refine ⟨hs,fun c => ?_,fun b hb hbn next hnx => ?_⟩
      · rw [hc,covers_cons,covers_cons,← or_assoc]
        have : (min range.begin lo ≤ c ∧ c ≤ max range.last hi) ↔ (lo ≤ c ∧ c ≤ hi ∨ range.begin ≤ c ∧ c ≤ range.last) := by omega
        rw [this]
      · have hh := (forall_mem_cons.1 hbn).1
        have := hl next hnx
        dsimp only at this
        omega
    · obtain ⟨hs,hc,hl⟩ := ih hr
      refine ⟨separate_cons.2 ⟨hrn,hl _ (by omega) ha,hs⟩,fun c => ?_,fun b hb hbn => ?_⟩
      · rw [covers_cons,covers_cons,hc,or_left_comm]
      · obtain ⟨hh,htl⟩ := forall_mem_cons.1 hbn
        exact forall_mem_cons.2 ⟨hh,hl b hb htl⟩

end Ranges

section Characters

variable {chars : List Int} {ch c : Int} {i : Nat}

theorem Sorted.eraseIdx (h : Sorted chars) : Sorted (chars.eraseIdx i) := List.Pairwise.sublist (eraseIdx_sublist _ _) h

theorem Sorted.mem_eraseIdx (h : Sorted chars) (hi : chars[i]? = some ch) :
    c ∈ chars.eraseIdx i ↔ c ∈ chars ∧ c ≠ ch := by
  obtain ⟨hl,rfl⟩ := List.getElem?_eq_some_iff.1 hi
  have hn : chars.Nodup := h.imp fun ha => ne_of_lt ha
  rw [← hn.erase_getElem,hn.mem_erase_iff,and_comm]

/-- The characters before an index are below the character, those from another index on above it. -/
def Chopped (characters : List Int) (ch : Int) (low high : Nat) : Prop :=
  (∀ c ∈ characters.take low, c < ch) ∧ ∀ c ∈ characters.drop high, ch < c

theorem Sorted.insertIdx (h : Sorted chars) (hch : Chopped chars ch i i) (hi : i ≤ chars.length) :
    Sorted (chars.insertIdx i ch) := by
  induction chars generalizing i with
  | nil =>
    obtain rfl : i = 0 := Nat.le_zero.1 hi
    exact pairwise_singleton _ _
  | cons a chars ih =>
    obtain ⟨ha,hs⟩ := pairwise_cons.1 h
    cases i with
    | zero => exact pairwise_cons.2 ⟨hch.2,h⟩
    | succ i =>
      obtain ⟨hb,hab⟩ := hch
      rw [take_succ_cons,forall_mem_cons] at hb
      refine pairwise_cons.2 ⟨fun c hc => ?_,ih hs ⟨hb.2,hab⟩ (Nat.le_of_succ_le_succ hi)⟩
      rcases eq_or_mem_of_mem_insertIdx hc with rfl | hc
      · exact hb.1
      · exact ha c hc

/-- What a character is joined to holds what there was and the character. -/
structure AddedCharacter.Adds (added : AddedCharacter) (characters : List Int) (ch : Int) : Prop where
  sorted : Sorted added.characters
  mem : ∀ c, c ∈ added.characters ∨ (∃ range ∈ added.range, range.begin ≤ c ∧ c ≤ range.last) ↔ c ∈ characters ∨ c = ch
  range : ∀ range ∈ added.range, range.begin ≤ ch ∧ ch ≤ range.last ∧ range.begin < range.last

section
variable (h : Sorted chars)
include h

section
variable (hi : chars[i]? = some c)
include hi

theorem Sorted.take_lt_drop : (∀ d ∈ chars.take i, d < c) ∧ ∀ d ∈ chars.drop (i+1), c < d := by
  obtain ⟨hl,rfl⟩ := List.getElem?_eq_some_iff.1 hi
  rw [Sorted,← take_append_drop i chars,drop_eq_getElem_cons hl,pairwise_append,pairwise_cons] at h
  obtain ⟨-,⟨ha,-⟩,hb⟩ := h
  exact ⟨fun d hd => hb d hd _ mem_cons_self,ha⟩

theorem Chopped.left (hc : ch < c) {l hg : Nat}
    (hch : Chopped chars ch l hg) : Chopped chars ch l i := by
  refine ⟨hch.1,fun d hd => ?_⟩
  obtain ⟨hl,he⟩ := List.getElem?_eq_some_iff.1 hi
  rw [drop_eq_getElem_cons hl,he] at hd
  rcases mem_cons.1 hd with rfl | hd
  · exact hc
  · exact hc.trans ((h.take_lt_drop hi).2 d hd)

theorem Chopped.right (hc : c < ch) {l high : Nat}
    (hch : Chopped chars ch l high) : Chopped chars ch (i+1) high := by
  refine ⟨fun d hd => ?_,hch.2⟩
  obtain ⟨hl,he⟩ := List.getElem?_eq_some_iff.1 hi
  rw [take_succ_eq_append_getElem hl,he] at hd
  rcases mem_append.1 hd with hd | hd
  · exact ((h.take_lt_drop hi).1 d hd).trans hc
  · exact mem_singleton.1 hd ▸ hc

end

theorem Sorted.adds_of_erase (hg : chars[i]? = some c) {lo hi : Int}
    (hc : lo = c ∧ c + 1 = ch ∧ hi = ch ∨ lo = ch ∧ c = ch + 1 ∧ hi = c) :
    AddedCharacter.Adds ⟨chars.eraseIdx i,some ⟨lo,hi⟩⟩ chars ch := by
  have hm := mem_of_getElem? hg
  refine ⟨h.eraseIdx,fun d => ?_,?_⟩
  · simp only [h.mem_eraseIdx hg,Option.mem_some_iff,exists_eq_left']
    grind
  · rintro _ ⟨⟩
    dsimp only
    omega

theorem Sorted.adds_of_erase_erase (hi : chars[i]? = some c) {j : Nat} {d : Int}
    (hj : (chars.eraseIdx i)[j]? = some d) (hc : c = ch + 1 ∧ d = ch - 1 ∨ c = ch - 1 ∧ d = ch + 1) :
    AddedCharacter.Adds ⟨(chars.eraseIdx i).eraseIdx j,some ⟨ch - 1,ch + 1⟩⟩ chars ch := by
  have hm := mem_of_getElem? hi
  have hm' := (h.mem_eraseIdx hi).1 (mem_of_getElem? hj)
  refine ⟨h.eraseIdx.eraseIdx,fun e => ?_,?_⟩
  · simp only [h.eraseIdx.mem_eraseIdx hj,h.mem_eraseIdx hi,Option.mem_some_iff,exists_eq_left']
    grind
  · rintro _ ⟨⟩
    dsimp only
    omega

/-- A character is put in, or joined with its neighbours. -/
theorem chop_spec {p range : Nat} (hrn : p + range ≤ chars.length)
    (hc : Chopped chars ch p (p+range)) : (chop chars ch p range).Adds chars ch := by
  have he : ∀ i, i < chars.length → chars[i]? = some (chars.getD i 0) := fun i hi => by
    rw [getD_eq_getElem?_getD,getElem?_eq_getElem hi,Option.getD_some]
  fun_induction chop chars ch p range with
  | case1 p =>
    refine ⟨h.insertIdx hc hrn,fun c => ?_,by simp⟩
    have : c ∈ chars.insertIdx p ch ↔ c = ch ∨ c ∈ chars := mem_insertIdx hrn
    simp [this,or_comm]
  | case2 p range hp ind v hv =>
    have hm := mem_of_getElem? (he (p+ind) (by omega))
    obtain heq : chars.getD (p+ind) 0 = ch := by omega
    rw [heq] at hm
    refine ⟨h,fun c => ?_,by simp⟩
    have : c = ch → c ∈ chars := fun h => h ▸ hm
    simpa using this
  | case3 p range hp ind v hv hg ho r hr =>
    exact h.adds_of_erase_erase (he (p+ind) (by omega)) hr.2 (.inl (by omega))
  | case4 p range hp ind v hv hg ho r hr =>
    exact h.adds_of_erase (he (p+ind) (by omega)) (.inr (by omega))
  | case5 p range hp ind v hv hg ho ih =>
    exact ih (by omega) (hc.left h (he (p+ind) (by omega)) (by omega))
  | case6 p range hp ind v hv hl ho r hr =>
    exact h.adds_of_erase_erase (he (p+ind) (by omega)) hr (.inr (by omega))
  | case7 p range hp ind v hv hl ho r hr =>
    exact h.adds_of_erase (he (p+ind) (by omega)) (.inl (by omega))
  | case8 p range hp ind v hv hl ho ih =>
    have hrg := hc.right h (he (p+ind) (by omega)) (by omega)
    refine ih (by omega) ?_
    rwa [show p + ind + 1 + (range-(ind+1)) = p + range by omega]

end

end Characters

section Coalesce

variable {chars : List Int} {range : CharacterRange} {ranges : List CharacterRange} {c : Int}

/-- A character is in a table of characters and ranges. -/
def Holds (characters : List Int) (ranges : List CharacterRange) (c : Int) : Prop := c ∈ characters ∨ Covers ranges c

theorem Sorted.holds_widened (h : Sorted chars) {i : Nat} {ch : Int} (hg : chars[i]? = some ch)
    {w : CharacterRange}
    (hw : ∀ c, w.begin ≤ c ∧ c ≤ w.last ↔ c = ch ∨ range.begin ≤ c ∧ c ≤ range.last) :
    Holds (chars.eraseIdx i) (w::ranges) c ↔ Holds chars (range::ranges) c := by
  have hm := mem_of_getElem? hg
  simp only [Holds,h.mem_eraseIdx hg,covers_cons,hw]
  by_cases hc : c = ch
  · simp [hc,hm]
  · simp [hc]

private theorem joinBelow_spec (h : Sorted chars) (hr : Separate (range::ranges)) (ind : Nat) :
    let joined := joinBelow chars range ind
    Sorted joined.1 ∧ joined.2.1.begin ≤ joined.2.1.last ∧ joined.2.1.last = range.last ∧
      ∀ c, Holds joined.1 (joined.2.1::ranges) c ↔ Holds chars (range::ranges) c := by
  have hrn := (separate_cons.1 hr).1
  rw [joinBelow]
  split_ifs with hb
  · refine ⟨h.eraseIdx,by dsimp only; omega,rfl,fun c => ?_⟩
    exact h.holds_widened hb (fun c => by dsimp only; omega)
  · exact ⟨h,hrn,rfl,fun _ => Iff.rfl⟩

/-- Moving characters into the ranges keeps what there is. -/
theorem coalesceMatchesAndRanges_spec (h : Sorted chars) (hr : Separate ranges) (ind : Nat) :
    Sorted (coalesceMatchesAndRanges chars ranges ind).1 ∧
      Separate (coalesceMatchesAndRanges chars ranges ind).2 ∧
      ∀ c, Holds (coalesceMatchesAndRanges chars ranges ind).1
        (coalesceMatchesAndRanges chars ranges ind).2 c ↔ Holds chars ranges c := by
  fun_induction coalesceMatchesAndRanges chars ranges ind with
  | case1 => exact ⟨h,hr,fun _ => Iff.rfl⟩
  | case2 chars ind range ranges hin j next hne hab ih =>
    obtain ⟨hj,hn,hl,hh⟩ := joinBelow_spec h hr ind
    obtain ⟨-,ha,hrs⟩ := separate_cons.1 hr
    replace hn : j.2.1.begin ≤ j.2.1.last := hn
    replace hl : j.2.1.last = range.last := hl
    have hw : j.2.1.begin ≤ j.2.1.last + 1 := by omega
    have hnx : ∀ next ∈ ranges, j.2.1.begin ≤ next.begin := fun next hne => by
      have := ha next hne
      omega
    obtain ⟨hm,hc,-⟩ := @mergeRangesFrom_spec ⟨j.2.1.begin,j.2.1.last + 1⟩ _ hw hrs hnx
    obtain ⟨hsr,hs,hsm⟩ := ih hj.eraseIdx hm
    refine ⟨hsr,hs,fun c => ?_⟩
    rw [hsm,Holds,hc,← Holds,← hh]
    refine hj.holds_widened hab fun c => ?_
    change j.2.1.begin ≤ c ∧ c ≤ j.2.1.last + 1 ↔ c = j.2.1.last + 1 ∨ j.2.1.begin ≤ c ∧ c ≤ j.2.1.last
    omega
  | case3 chars ind range ranges hin j next hne hab ih =>
    obtain ⟨hj,hn,hl,hh⟩ := joinBelow_spec h hr ind
    obtain ⟨-,ha,hrs⟩ := separate_cons.1 hr
    obtain ⟨hsr,hs,hsm⟩ := ih hj (separate_cons.2 ⟨hn,hl ▸ ha,hrs⟩)
    exact ⟨hsr,hs,fun c => (hsm c).trans (hh c)⟩
  | case4 chars ind range ranges hin j next hne =>
    obtain ⟨hj,hn,hl,hh⟩ := joinBelow_spec h hr ind
    obtain ⟨-,ha,hrs⟩ := separate_cons.1 hr
    exact ⟨hj,separate_cons.2 ⟨hn,hl ▸ ha,hrs⟩,hh⟩
  | case5 => exact ⟨h,hr,fun _ => Iff.rfl⟩

end Coalesce

section Search

variable {chars : List Int} {ranges : List CharacterRange} {ch : Int}

/-- A matching element is found, if what is left on either side does not match. -/
theorem binarySearch_iff {α : Type} {m bl : α → Bool} {es : List α} {l hgh : Nat}
    (hor : es.Pairwise fun a b => (bl a → m b = false) ∧ (bl b = false → m a = false))
    (hh : hgh < es.length)
    (ho : ∀ (i : Nat) e, es[i]? = some e → i < l ∨ hgh < i → m e = false) :
    binarySearch m bl es l hgh ↔ ∃ e ∈ es, m e := by
  rw [pairwise_iff_getElem] at hor
  have hn : (∀ (i : Nat) e, es[i]? = some e → m e = false) →
      ¬ ∃ e ∈ es, m e := by
    rintro hnn ⟨e,hmm,hm⟩
    obtain ⟨i,hi⟩ := getElem?_of_mem hmm
    exact Bool.false_ne_true ((hnn i e hi).symm.trans hm)
  -- Below an element that is not matched, nothing from it on is matched; otherwise nothing up to it.
  have hs {md i : Nat} {a b} (ha : es[md]? = some a) (hm : ¬ m a) (hb : es[i]? = some b)
      (h : bl a ∧ md ≤ i ∨ ¬ bl a ∧ i ≤ md) : m b = false := by
    obtain ⟨hmd,rfl⟩ := List.getElem?_eq_some_iff.1 ha
    obtain ⟨hi,rfl⟩ := List.getElem?_eq_some_iff.1 hb
    rcases h with ⟨hbl,hl⟩ | ⟨hbl,hl⟩ <;> rcases Nat.eq_or_lt_of_le hl with rfl | hlt
    · exact Bool.eq_false_iff.2 hm
    · exact (hor md i hmd hi hlt).1 hbl
    · exact Bool.eq_false_iff.2 hm
    · exact (hor i md hi hmd hlt).2 (Bool.eq_false_iff.2 hbl)
  fun_induction binarySearch m bl es l hgh with
  | case1 l hgh hl md hnn =>
    rw [List.getElem?_eq_none_iff] at hnn
    omega
  | case2 l hgh hl md e hg hm => exact iff_of_true rfl ⟨e,mem_of_getElem? hg,hm⟩
  | case3 l hgh hl md e hg hm hbl hmd =>
    refine iff_of_false Bool.false_ne_true (hn fun i b hb => ?_)
    rcases Nat.lt_or_ge i md with hi | hi
    · exact ho i b hb (.inl (by omega))
    · exact hs hg hm hb (.inl ⟨hbl,hi⟩)
  | case4 l hgh hl md e hg hm hbl hmd ih =>
    refine ih (by omega) fun i b hb hi => ?_
    rcases hi with hi | hi
    · exact ho i b hb (.inl hi)
    · exact hs hg hm hb (.inl ⟨hbl,by omega⟩)
  | case5 l hgh hl md e hg hm hbl ih =>
    refine ih hh fun i b hb hi => ?_
    rcases hi with hi | hi
    · exact hs hg hm hb (.inr ⟨hbl,by omega⟩)
    · exact ho i b hb (.inr hi)
  | case6 l hgh hl =>
    exact iff_of_false Bool.false_ne_true (hn fun i b hb => ho i b hb (by omega))

theorem searchMatches_iff (h : Sorted chars) : searchMatches ch chars ↔ ch ∈ chars := by
  rw [searchMatches]
  split_ifs with hl
  · rw [binarySearchMatches,binarySearch_iff]
    · simp [Int.sub_eq_zero]
    · refine h.imp fun {a b} ha => ?_
      simp only [decide_eq_true_eq,decide_eq_false_iff_not]
      omega
    · omega
    · intro i e hg hi
      have := (List.getElem?_eq_some_iff.1 hg).1
      omega
  · simp

theorem searchRanges_iff (h : Separate ranges) : searchRanges ch ranges ↔ Covers ranges ch := by
  rw [searchRanges]
  split_ifs with hl
  · rw [binarySearchRanges,binarySearch_iff]
    · simp [Covers]
    · refine (pairwise_iff_getElem.2 fun i j hi hj hij => ?_)
      have ho := pairwise_iff_getElem.1 h.order i j hi hj hij
      have hn := h.nonempty _ (getElem_mem hi)
      simp only [decide_eq_true_eq,decide_eq_false_iff_not,Bool.and_eq_false_iff]
      omega
    · omega
    · intro i e hg hi
      have := (List.getElem?_eq_some_iff.1 hg).1
      omega
  · simp [Covers]

end Search

end WebKit.JavaScriptCore.Yarr
