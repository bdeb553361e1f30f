import WebKit.Graphics.ShapeBounds

/-! What reading a region gives: the test for a pixel, the list of rectangles and the comparison of two
shapes. -/
namespace WebKit.Graphics

open Base.StepFunction Shape Region List

section
variable {rows : List Row} {segs : List Int} {point : IntPoint}

private theorem segmentsContain_eq (h : SegmentsOk segs) (x : Int) : segmentsContain x segs = inside segs x := by
  induction h using SegmentsOk.induction with
  | nil => rfl
  | cons x' maxX segs _ _ _ ih =>
    rw [segmentsContain,inside_cons_cons,ih]

/-- What a suffix of the rows of a shape keeps. -/
structure SuffixOk (rows : List Row) : Prop where
  ascending : Ascending rows
  closed : finalValue [] rows = []
  segments : ∀ row ∈ rows, SegmentsOk row.2

theorem RowsOk.suffixOk (h : RowsOk rows) : SuffixOk rows := ⟨h.ascending,h.closed,h.segments⟩

variable {row : Row}

theorem SuffixOk.tail {next : Row} (h : SuffixOk (row::next::rows)) :
    row.1 < next.1 ∧ SegmentsOk row.2 ∧ SuffixOk (next::rows) := by
  obtain ⟨hl,ha⟩ := pairwise_cons.1 h.ascending
  obtain ⟨hrw,hr⟩ := forall_mem_cons.1 h.segments
  exact ⟨hl next mem_cons_self,hrw,ha,h.closed,hr⟩

theorem covers_singleton (h : SuffixOk [row]) (point : IntPoint) : covers [row] point = false := by
  have hn : row.2 = [] := h.closed
  rw [covers,valueAt,hn]
  split <;> rfl

theorem covers_cons_of_lt (h : point.y < row.1) : covers (row::rows) point = false := by
  rw [covers,valueAt_cons_of_lt h,inside_nil]

theorem covers_cons_cons {next : Row} (h : row.1 ≤ point.y) :
    covers (row::next::rows) point = if point.y < next.1 then inside row.2 point.x else covers (next::rows) point := by
  rw [covers,valueAt_cons_of_le h,covers,valueAt,valueAt]
  split <;> rfl

theorem rowsContain_eq (h : SuffixOk rows) (point : IntPoint) : rowsContain point rows = covers rows point := by
  induction rows with
  | nil => rfl
  | cons row rows ih =>
    cases rows with
    | nil => exact (covers_singleton h point).symm
    | cons next rows =>
      obtain ⟨hl,hr,ht⟩ := h.tail
      rw [rowsContain,ih ht,segmentsContain_eq hr]
      by_cases hy : row.1 > point.y
      · rw [if_pos hy,covers_cons_of_lt hy]
      · rw [if_neg hy,covers_cons_cons (not_lt.1 hy)]
        by_cases hn : point.y < next.1
        · rw [if_neg (not_le.2 hn),if_pos hn,covers_cons_of_lt hn]
          simp
        · rw [if_pos (not_lt.1 hn),if_neg hn]

def IntRect.Disjoint (rect other : IntRect) : Prop :=
  ∀ point, ¬ (rect.containsPoint point ∧ other.containsPoint point)

theorem mem_rowRects (h : SegmentsOk segs) {y height : Int} :
    (∃ r ∈ rowRects y height segs, r.containsPoint point) ↔
      inside segs point.x ∧ y ≤ point.y ∧ point.y < y + height := by
  induction h using SegmentsOk.induction with
  | nil => simp [rowRects,inside_nil]
  | cons x maxX segs hl ha _ ih =>
    rw [rowRects,exists_mem_cons_iff,ih,IntRect.containsPoint_iff,inside_cons_cons]
    simp only [IntRect.maxX,IntRect.maxY]
    split_ifs with hx hm
    · have ho : inside segs point.x = false :=
        inside_eq_false_of_lt fun s hs => hx.trans (hl.trans (ha s hs))
      simp only [ho,Bool.false_eq_true,false_and,or_false,iff_false]
      omega
    · have ho : inside segs point.x = false := inside_eq_false_of_lt fun s hs => hm.trans (ha s hs)
      simp only [ho,Bool.false_eq_true,false_and,or_false,true_and]
      omega
    · simp only [or_iff_right_iff_imp]
      omega

private theorem rowRects_pairwise (h : SegmentsOk segs) (y hg : Int) :
    (rowRects y hg segs).Pairwise IntRect.Disjoint := by
  induction h using SegmentsOk.induction with
  | nil => exact .nil
  | cons x maxX segs _ ha ho ih =>
    refine pairwise_cons.2 ⟨fun r hr point h => ?_,ih⟩
    obtain ⟨hf,hp⟩ := h
    have hi := (mem_rowRects ho).1 ⟨r,hr,hp⟩
    have hm : point.x < maxX := by
      have := (IntRect.containsPoint_iff.1 hf).2.1
      simp only [IntRect.maxX] at this
      omega
    cases hi.1.symm.trans (inside_eq_false_of_lt fun s hs => hm.trans (ha s hs))

private theorem exists_mem_append {rs os : List IntRect} {P : IntRect → Prop} :
    (∃ rect ∈ rs ++ os, P rect) ↔ (∃ rect ∈ rs, P rect) ∨ ∃ rect ∈ os, P rect := by
  simp only [mem_append,or_and_right,exists_or]

/-- The rectangles have just the pixels of the shape. -/
theorem mem_rectsOf (h : SuffixOk rows) :
    (∃ r ∈ rectsOf rows, r.containsPoint point) ↔ covers rows point := by
  induction rows with
  | nil => simp [rectsOf,covers,valueAt,inside_nil]
  | cons row rows ih =>
    cases rows with
    | nil => simp [rectsOf,covers_singleton h]
    | cons next rows =>
      obtain ⟨hl,hr,ht⟩ := h.tail
      rw [rectsOf,exists_mem_append,mem_rowRects hr,ih ht,show row.1 + (next.1-row.1) = next.1 by omega]
      rcases lt_or_ge point.y row.1 with hy | hy
      · rw [covers_cons_of_lt hy,covers_cons_of_lt (hy.trans hl)]
        simp [hy]
      · rw [covers_cons_cons hy]
        split
        next hn =>
          rw [covers_cons_of_lt hn]
          simp [hy,hn]
        next hn => simp [hn]

theorem rectsOf_pairwise (h : SuffixOk rows) : (rectsOf rows).Pairwise IntRect.Disjoint := by
  induction rows with
  | nil => exact .nil
  | cons row rows ih =>
    cases rows with
    | nil => exact .nil
    | cons next rows =>
      obtain ⟨_,hrw,ht⟩ := h.tail
      refine pairwise_append.2 ⟨rowRects_pairwise hrw _ _,ih ht,?_⟩
      rintro r hr o ho point ⟨hp,hp'⟩
      have hy := ((mem_rowRects hrw).1 ⟨r,hr,hp⟩).2.2
      have hc := (mem_rectsOf ht).1 ⟨o,ho,hp'⟩
      rw [covers_cons_of_lt (by omega)] at hc
      cases hc

private theorem inside_of_tail {x maxX : Int} (h : SegmentsOk (x::maxX::segs)) {p : Int}
    (hp : inside segs p) : inside (x::maxX::segs) p := by
  obtain ⟨hl,ha,_⟩ := segmentsOk_cons_cons.1 h
  have hm : maxX ≤ p := by
    by_contra hl'
    exact nomatch hp.symm.trans (inside_eq_false_of_lt fun s hs => (not_le.1 hl').trans (ha s hs))
  rw [inside_cons_cons,if_neg (by omega),if_neg (by omega),hp]

private theorem inside_cases {x maxX : Int} {p : Int} (h : inside (x::maxX::segs) p) : x ≤ p ∧ p < maxX ∨ inside segs p := by
  rw [inside_cons_cons] at h
  split_ifs at h with hx hm
  · exact .inl ⟨not_lt.1 hx,hm⟩
  · exact .inr h

/-- Segments that nothing decides against contain the others. -/
theorem inside_of_compareSegments {a b : List Int} (ha : SegmentsOk a) (hb : SegmentsOk b)
    (h : compareSegments compareContainsOperation a b = none) {x : Int} (hx : inside b x) : inside a x := by
  fun_induction compareSegments compareContainsOperation a b with
  | case1 _ _ _ _ _ _ hov => cases hov.2.2
  | case2 _ _ _ _ _ _ _ ho => cases ho.2
  | case3 => cases h
  | case4 aX am a bX bm b _ _ _ _ ih =>
    exact inside_of_tail ha (ih (segmentsOk_cons_cons.1 ha).2.2 hb h hx)
  | case5 aX am a bX bm b _ _ hle _ hm ih =>
    have hle : aX ≤ bX := not_lt.1 fun hlt => hle ⟨hlt,rfl⟩
    rcases inside_cases hx with ⟨hf,hl⟩ | hx
    · rw [inside_cons_cons,if_neg (by omega),if_pos (by omega)]
    · exact ih ha (segmentsOk_cons_cons.1 hb).2.2 h hx
  | case6 aX am a bX bm b _ _ hle hm hm' ih =>
    have hle : aX ≤ bX := not_lt.1 fun hlt => hle ⟨hlt,rfl⟩
    rcases inside_cases hx with ⟨hf,hl⟩ | hx
    · rw [inside_cons_cons,if_neg (by omega),if_pos (by omega)]
    · exact inside_of_tail ha (ih (segmentsOk_cons_cons.1 ha).2.2 (segmentsOk_cons_cons.1 hb).2.2 h hx)
  | case7 _ _ _ ho => cases ho.2
  | case8 => cases h
  | case9 a b _ _ hn =>
    obtain rfl : b = [] := not_not.1 fun hne => hn ⟨hne,rfl⟩
    cases hx

private theorem compareSegments_ne_true (a b : List Int) :
    compareSegments compareContainsOperation a b ≠ some true := by
  fun_induction compareSegments compareContainsOperation a b with
  | case1 | case2 | case3 | case7 | case8 | case9 => exact nofun
  | case4 _ _ _ _ _ _ _ _ _ _ ih => exact ih
  | case5 _ _ _ _ _ _ _ _ _ _ _ ih => exact ih
  | case6 _ _ _ _ _ _ _ _ _ _ _ ih => exact ih

/-- The rows of one shape contain the other's from where both have started. -/
theorem covers_of_compareRows {ar bs : List Row} {ah bh : Bool} (ha : SuffixOk ar)
    (hb : SuffixOk bs) (h : compareRows compareContainsOperation ah bh ar bs)
    (haY : ∀ row ∈ ar.head?, row.1 ≤ point.y) (hbY : ∀ row ∈ bs.head?, row.1 ≤ point.y)
    (hp : covers bs point) : covers ar point := by
  have hov {aY am bY bMaxY : Int} {a b : List Int} {ar bs : List Row} {a' b' : List Int}
      (ha : SuffixOk ((aY, a) :: (am, a') :: ar)) (hb : SuffixOk ((bY, b) :: (bMaxY, b') :: bs))
      (hdc : (if bMaxY > aY ∧ bY < am then compareSegments compareContainsOperation a b else none)
        = none) (haY : aY ≤ point.y) (hbY : bY ≤ point.y) (ha' : point.y < am) (hb' : point.y < bMaxY)
      (hp : covers ((bY, b) :: (bMaxY, b') :: bs) point) : covers ((aY, a) :: (am, a') :: ar) point := by
    rw [if_pos ⟨by omega,by omega⟩] at hdc
    rw [covers_cons_cons hbY,if_pos hb'] at hp
    rw [covers_cons_cons haY,if_pos ha']
    exact inside_of_compareSegments ha.tail.2.1 hb.tail.2.1 hdc hp
  fun_induction compareRows compareContainsOperation ah bh ar bs with
  | case1 _ _ _ _ _ _ _ _ _ _ _ _ ho => cases ho.2.2.2
  | case2 => cases h
  | case3 _ _ aY a am _ _ bY b bMaxY _ _ _ _ d r hdc =>
    by_cases hs : bMaxY > aY ∧ bY < am
    · rw [show d = _ from dif_pos hs,h] at hdc
      exact absurd hdc (compareSegments_ne_true a b)
    · rw [show d = _ from dif_neg hs] at hdc
      cases hdc
  | case4 _ _ aY a am a' ar bY b bMaxY b' bs _ _ _ hdc hm ih =>
    have haY' : aY ≤ point.y := haY _ rfl
    have hbY' : bY ≤ point.y := hbY _ rfl
    rcases lt_or_ge point.y am with hl | hg
    · exact hov ha hb hdc haY' hbY' hl (by omega) hp
    · rw [covers_cons_cons haY',if_neg (not_lt.2 hg)]
      refine ih ha.tail.2.2 hb h ?_ hbY hp
      rintro _ ⟨⟩
      exact hg
  | case5 _ _ aY a am a' ar bY b bMaxY b' bs _ _ _ hdc _ hm ih =>
    have haY' : aY ≤ point.y := haY _ rfl
    have hbY' : bY ≤ point.y := hbY _ rfl
    rcases lt_or_ge point.y bMaxY with hl | hg
    · exact hov ha hb hdc haY' hbY' (by omega) hl hp
    · rw [covers_cons_cons hbY',if_neg (not_lt.2 hg)] at hp
      refine ih ha hb.tail.2.2 h haY ?_ hp
      rintro _ ⟨⟩
      exact hg
  | case6 _ _ aY a am a' ar bY b bMaxY b' bs _ _ _ hdc hm hm' ih =>
    have haY' : aY ≤ point.y := haY _ rfl
    have hbY' : bY ≤ point.y := hbY _ rfl
    obtain rfl : am = bMaxY := by omega
    rcases lt_or_ge point.y am with hl | hg
    · exact hov ha hb hdc haY' hbY' hl hl hp
    · rw [covers_cons_cons haY',if_neg (not_lt.2 hg)]
      rw [covers_cons_cons hbY',if_neg (not_lt.2 hg)] at hp
      refine ih ha.tail.2.2 hb.tail.2.2 h ?_ ?_ hp
      all_goals rintro _ ⟨⟩; exact hg
  | case7 _ _ _ _ _ ho => cases ho.2
  | case8 => cases h
  | case9 _ _ ar bs _ _ hsh =>
    match bs, hb with
    | [], _ => cases hp
    | [row], hb => exact nomatch hp.symm.trans (covers_singleton hb point)
    | _::_::_, _ => exact absurd ⟨by simp,rfl⟩ hsh

/-- A shape that the comparison finds contained has no other pixels. -/
theorem covers_of_compareShapes {ar bs : List Row} (ha : RowsOk ar) (hb : RowsOk bs)
    (h : compareShapes compareContainsOperation (.ofRows ar) (.ofRows bs))
    (hp : covers bs point) : covers ar point := by
  rw [compareShapes,rows_ofRows,rows_ofRows] at h
  have hbY : ∀ row ∈ bs.head?, row.1 ≤ point.y := by
    intro row hr
    obtain ⟨r,rfl⟩ := head?_eq_some_iff.1 hr
    by_contra hl
    exact nomatch hp.symm.trans (covers_cons_of_lt (not_le.1 hl))
  refine covers_of_compareRows ha.suffixOk hb.suffixOk h ?_ hbY hp
  intro row hr
  obtain ⟨r,rfl⟩ := head?_eq_some_iff.1 hr
  match bs, hb with
  | [], _ => cases hp
  | [_], hb => exact nomatch hp.symm.trans (covers_singleton hb.suffixOk point)
  | bRow::bNext::bs, hb =>
    match r with
    | [] => simp [compareRows,compareContainsOperation] at h
    | next::r =>
      -- A span that starts above the first one of the other shape has segs outside of it.
      have hs : ¬ bRow.1 < row.1 := by
        intro hl
        have hn : bRow.2 ≠ [] := hb.alternates.1
        rw [compareRows] at h
        simp [compareContainsOperation,hl,hn] at h
      exact (not_lt.1 hs).trans (hbY bRow rfl)

end
end WebKit.Graphics
