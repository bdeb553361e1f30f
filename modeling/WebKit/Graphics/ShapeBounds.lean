import Mathlib.Order.MinMax
import WebKit.Graphics.ShapeRows

/-! Rectangles as sets of pixels, and the bounds that a shape computes from its segments. -/
namespace WebKit.Graphics

open Base.StepFunction List Shape Option

namespace IntRect

variable {rect : IntRect} {point : IntPoint}

theorem containsPoint_iff :
    rect.containsPoint point ↔ rect.x ≤ point.x ∧ point.x < rect.maxX ∧ rect.y ≤ point.y ∧ point.y < rect.maxY := by
  simp [containsPoint,and_assoc]

theorem isEmpty_iff : rect.isEmpty ↔ ∀ point, ¬ rect.containsPoint point := by
  simp only [isEmpty,Bool.or_eq_true,decide_eq_true_eq,containsPoint_iff,maxX,maxY]
  constructor
  · intro h point hp
    omega
  · intro h
    have hc := h ⟨rect.x,rect.y⟩
    simp only at hc
    omega

theorem containsPoint_of_contains {other : IntRect} (h : rect.contains other)
    (hp : other.containsPoint point) : rect.containsPoint point := by
  simp only [contains,Bool.and_eq_true,decide_eq_true_eq] at h
  rw [containsPoint_iff] at hp ⊢
  omega

theorem not_containsPoint_of_not_intersects {other : IntRect} (h : rect.intersects other = false)
    (hr : rect.containsPoint point) : ¬ other.containsPoint point := by
  intro ho
  simp only [intersects,isEmpty,Bool.and_eq_false_iff,Bool.not_eq_false',Bool.or_eq_true,decide_eq_true_eq,
    decide_eq_false_iff_not] at h
  rw [containsPoint_iff] at hr ho
  simp only [maxX,maxY] at *
  omega

/-- The rectangle is the smallest one that contains a set of pixels. -/
def IsSmallest (rect : IntRect) (pixels : IntPoint → Prop) : Prop :=
  (∀ point, pixels point → rect.containsPoint point) ∧
    ∀ other : IntRect, (∀ point, pixels point → other.containsPoint point) →
      ∀ point, rect.containsPoint point → other.containsPoint point

section
variable {rect other : IntRect} {pixels pixels' : IntPoint → Prop}

theorem IsSmallest.isEmpty_iff (h : rect.IsSmallest pixels) : rect.isEmpty ↔ ∀ point, ¬ pixels point := by
  rw [IntRect.isEmpty_iff]
  constructor
  · intro he point hpn
    exact he point (h.1 point hpn)
  · intro he point hpn
    -- Without pixels every rectangle contains them, also an empty one.
    have hn := h.2 ⟨0,0,0,0⟩ (fun p hp => absurd hp (he p)) point hpn
    rw [containsPoint_iff] at hn
    simp only [maxX,maxY] at hn
    omega

private theorem isSmallest_of_touches (h : ∀ point, pixels point → rect.containsPoint point)
    (hlf : ∃ point, pixels point ∧ point.x = rect.x) (hrg : ∃ point, pixels point ∧ point.x = rect.maxX - 1)
    (htp : ∃ point, pixels point ∧ point.y = rect.y) (hbt : ∃ point, pixels point ∧ point.y = rect.maxY - 1) :
    rect.IsSmallest pixels := by
  refine ⟨h,fun other ho point hp => ?_⟩
  obtain ⟨l,hl,hlx⟩ := hlf
  obtain ⟨r,hr,hrx⟩ := hrg
  obtain ⟨t,ht,hty⟩ := htp
  obtain ⟨b,hb,hby⟩ := hbt
  have hl := containsPoint_iff.1 (ho l hl)
  have hr := containsPoint_iff.1 (ho r hr)
  have ht := containsPoint_iff.1 (ho t ht)
  have hb := containsPoint_iff.1 (ho b hb)
  rw [containsPoint_iff] at hp ⊢
  omega

theorem IsSmallest.congr (h : rect.IsSmallest pixels) (he : ∀ point, pixels point ↔ pixels' point) :
    rect.IsSmallest pixels' := by
  rwa [show pixels' = pixels from funext fun point => propext (he point).symm]

private theorem contains_corners (hr : rect.isEmpty = false)
    (h : ∀ point, rect.containsPoint point → other.containsPoint point) :
    other.x ≤ rect.x ∧ rect.maxX ≤ other.maxX ∧ other.y ≤ rect.y ∧ rect.maxY ≤ other.maxY := by
  simp only [isEmpty,Bool.or_eq_false_iff,decide_eq_false_iff_not] at hr
  have hf := h ⟨rect.x,rect.y⟩
  have hl := h ⟨rect.maxX - 1,rect.maxY - 1⟩
  simp only [containsPoint_iff,maxX,maxY] at *
  omega

theorem IsSmallest.unite (h : rect.IsSmallest pixels) (h' : other.IsSmallest pixels') :
    (rect.unite other).IsSmallest fun point => pixels point ∨ pixels' point := by
  rw [IntRect.unite]
  split_ifs with ho hr
  · exact h.congr fun point => (or_iff_left (h'.isEmpty_iff.1 ho point)).symm
  · exact h'.congr fun point => (or_iff_right (h.isEmpty_iff.1 hr point)).symm
  · constructor
    · rintro point (hpn | hpn)
      · have := containsPoint_iff.1 (h.1 point hpn)
        simp only [containsPoint_iff,maxX,maxY] at *
        omega
      · have := containsPoint_iff.1 (h'.1 point hpn)
        simp only [containsPoint_iff,maxX,maxY] at *
        omega
    · intro l hl point hpn
      have hc := contains_corners (Bool.not_eq_true _ ▸ hr) (h.2 l fun p hp => hl p (.inl hp))
      have hc' := contains_corners (Bool.not_eq_true _ ▸ ho) (h'.2 l fun p hp => hl p (.inr hp))
      simp only [containsPoint_iff,maxX,maxY] at *
      omega

private theorem containsPoint_move {o : IntSize} {point : IntPoint} : (rect.move o).containsPoint point ↔
      rect.containsPoint ⟨point.x - o.width,point.y - o.height⟩ := by
  simp only [containsPoint_iff,move,maxX,maxY]
  omega

theorem IsSmallest.move (h : rect.IsSmallest pixels) (o : IntSize) :
    (rect.move o).IsSmallest fun point => pixels ⟨point.x - o.width,point.y - o.height⟩ := by
  refine ⟨fun point hpn => containsPoint_move.2 (h.1 _ hpn),fun l hl point hpn => ?_⟩
  have hb := h.2 (l.move ⟨-o.width,-o.height⟩) ?_ _ (containsPoint_move.1 hpn)
  · rw [containsPoint_move] at hb
    simpa using hb
  · intro p hp
    rw [containsPoint_move]
    apply hl
    simpa using hp

end
end IntRect

private theorem getD_middle (b s a : List Int) {i : Nat} (hi : i < s.length) :
    (b ++ (s ++ a)).getD (b.length+i) 0 = s[i] := by
  simp [getD_eq_getElem?_getD,getElem?_append_right,getElem?_append_left hi,hi]

private theorem between_first_last (b : List Int) {s : List Int} (hs : s.Pairwise (· < ·)) (a : List Int)
    {x : Int} (hx : x ∈ s) :
    (b ++ (s ++ a)).getD b.length 0 ≤ x ∧ x ≤ (b ++ (s ++ a)).getD (b.length+s.length-1) 0 := by
  obtain ⟨i,hi,rfl⟩ := getElem_of_mem hx
  have hf := getD_middle b s a (i := 0) (by omega)
  have hl := getD_middle b s a (i := s.length - 1) (by omega)
  rw [Nat.add_zero] at hf
  rw [Nat.add_sub_assoc (by omega),hf,hl]
  rw [pairwise_iff_getElem] at hs
  constructor
  · rcases Nat.eq_zero_or_pos i with rfl | hp
    · exact le_rfl
    · exact (hs 0 i (by omega) hi hp).le
  · rcases Nat.lt_or_ge i (s.length-1) with hlt | hg
    · exact (hs i (s.length-1) hi (by omega) hlt).le
    · simp only [show i = s.length - 1 by omega,le_refl]

variable {segments : List Int}

private theorem getD_mem {i : Nat} (h : i < segments.length) : segments.getD i 0 ∈ segments := by
  simp [getD_eq_getElem?_getD,h]

private theorem mem_cons_of_choice {a b c x : Int} (ha : a ∈ segments)
    (hc : c = a ∨ c = b) (hx : x ∈ c::segments) : x ∈ b::segments := by
  rcases mem_cons.1 hx with he | hm
  · rcases hc with hc | hc
    · exact mem_cons_of_mem _ (he.trans hc ▸ ha)
    · exact mem_cons.2 (.inl (he.trans hc))
  · exact mem_cons_of_mem _ hm

private theorem extent_spec {s : Shape} {rows : List Row} {b : List Int}
    (hs : s.segments = b ++ rows.flatMap Prod.snd) (ho : ∀ r ∈ rows, SegmentsOk r.2)
    (hc : finalValue [] rows = []) (m maxX : Int) :
    let result := s.extent (spansOf b.length rows) (m, maxX)
    result.1 ≤ m ∧ maxX ≤ result.2 ∧ result.1 ∈ m :: s.segments ∧ result.2 ∈ maxX :: s.segments ∧
      ∀ r ∈ rows, ∀ x ∈ r.2, result.1 ≤ x ∧ x ≤ result.2 := by
  induction rows generalizing b m maxX with
  | nil => exact ⟨le_rfl,le_rfl,mem_cons_self,mem_cons_self,nofun⟩
  | cons r rows ih =>
    cases rows with
    | nil =>
      have hrw : r.2 = [] := hc
      refine ⟨le_rfl,le_rfl,mem_cons_self,mem_cons_self,?_⟩
      simp [hrw]
    | cons next rows =>
      obtain ⟨hrw,hr⟩ := forall_mem_cons.1 ho
      have ht : s.segments = (b ++ r.2) ++ (next::rows).flatMap Prod.snd := by
        rw [hs,flatMap_cons,append_assoc]
      have ih := @ih (b ++ r.2) ht hr hc
      rw [length_append] at ih
      rw [spansOf,spansOf,extent,← spansOf]
      split
      next he =>
        obtain ⟨h1,h2,h3,h4,h5⟩ := ih m maxX
        refine ⟨h1,h2,h3,h4,forall_mem_cons.2 ⟨?_,h5⟩⟩
        have hn : r.2 = [] := by
          have hln := congrArg List.length hs
          simp only [length_append,flatMap_cons] at hln
          exact eq_nil_of_length_eq_zero (by simp at he; omega)
        simp [hn]
      next he =>
        have hln := congrArg List.length ht
        simp only [length_append] at hln
        simp only at he ⊢
        have hf : s.segments.getD b.length 0 ∈ s.segments := getD_mem (by omega)
        have hl : s.segments.getD (b.length+r.2.length-1) 0 ∈ s.segments := getD_mem (by omega)
        obtain ⟨h1,h2,h3,h4,h5⟩ := ih (min (s.segments.getD b.length 0) m)
          (max (s.segments.getD (b.length+r.2.length-1) 0) maxX)
        refine ⟨h1.trans (min_le_right _ _),(le_max_right _ _).trans h2,?_,?_,forall_mem_cons.2 ⟨?_,h5⟩⟩
        · exact mem_cons_of_choice hf (min_choice _ _) h3
        · exact mem_cons_of_choice hl (max_choice _ _) h4
        · intro x hx
          have hb := between_first_last b hrw.ascending ((next::rows).flatMap Prod.snd) hx
          rw [← append_assoc,← ht] at hb
          exact ⟨h1.trans ((min_le_left _ _).trans hb.1),hb.2.trans ((le_max_left _ _).trans h2)⟩

section
variable {rows : List Row}

section
variable (h : RowsOk rows)
include h

/-- A pixel's row has a segment end at or before it and one behind it. -/
theorem RowsOk.row_of_covers {point : IntPoint} (hp : covers rows point) :
    ∃ r ∈ rows, (∃ a ∈ r.2, a ≤ point.x) ∧ ∃ b ∈ r.2, point.x < b := by
  rcases mem_cons.1 (valueAt_mem [] rows point.y) with he | hm
  · rw [covers,he,inside_nil] at hp
    cases hp
  · obtain ⟨r,hr,he⟩ := mem_map.1 hm
    rw [covers,← he] at hp
    refine ⟨r,hr,?_,?_⟩
    · by_contra hn
      have hlt : ∀ a ∈ r.2, point.x < a := fun a ha => not_le.1 fun hl => hn ⟨a,ha,hl⟩
      cases hp.symm.trans (inside_eq_false_of_lt hlt)
    · by_contra hn
      have hl : ∀ b ∈ r.2, b ≤ point.x := fun b hb => not_lt.1 fun hlt => hn ⟨b,hb,hlt⟩
      cases hp.symm.trans ((h.segments r hr).inside_eq_false_of_le hl)

theorem RowsOk.covers_row {r : Row} (hr : r ∈ rows) (x : Int) : covers rows ⟨x,r.1⟩ = inside r.2 x := by
  rw [covers,valueAt_of_mem h.ascending hr]

theorem RowsOk.exists_covers {y : Int} (hn : valueAt [] rows y ≠ []) : ∃ x, covers rows ⟨x,y⟩ := by
  obtain ⟨x,r,he⟩ := exists_cons_of_ne_nil hn
  have ho := h.valueAt_ok y
  rw [he] at ho
  refine ⟨x,?_⟩
  rw [covers,he,ho.inside_first]

theorem RowsOk.exists_segment (hn : rows ≠ []) : ∃ x, ∃ r ∈ rows, x ∈ r.2 := by
  cases rows with
  | nil => exact absurd rfl hn
  | cons r rows =>
    obtain ⟨x,hx⟩ := exists_mem_of_ne_nil r.2 h.alternates.1
    exact ⟨x,r,mem_cons_self,hx⟩

end

def RowsFit (rows : List Row) : Prop := ∀ row ∈ rows, ∀ x ∈ row.2, -2147483648 ≤ x ∧ x ≤ 2147483647

/-- The extent touches pixels on both sides. -/
theorem RowsOk.extent_touches (h : RowsOk rows) (hft : RowsFit rows) (hn : rows ≠ []) :
    let extent := (ofRows rows).extent (spansOf 0 rows) (2147483647, -2147483648)
    (∀ r ∈ rows, ∀ x ∈ r.2, extent.1 ≤ x ∧ x ≤ extent.2) ∧ (∃ y, covers rows ⟨extent.1,y⟩) ∧
      ∃ y, covers rows ⟨extent.2 - 1,y⟩ := by
  intro extent
  obtain ⟨_,_,hmn,hm,ha⟩ := @extent_spec (.ofRows rows) rows [] rfl h.segments h.closed 2147483647 (-2147483648)
  obtain ⟨x,r,hrw,hx⟩ := h.exists_segment hn
  have hb := ha r hrw x hx
  have hf := hft r hrw x hx
  have hsg : x ∈ (ofRows rows).segments := mem_flatMap.2 ⟨r,hrw,hx⟩
  have hmn : extent.1 ∈ (ofRows rows).segments := by
    rcases mem_cons.1 hmn with he | hmm
    · rwa [show extent.1 = x from le_antisymm hb.1 (he ▸ hf.2)]
    · exact hmm
  have hm : extent.2 ∈ (ofRows rows).segments := by
    rcases mem_cons.1 hm with he | hmm
    · rwa [show extent.2 = x from le_antisymm (he ▸ hf.1) hb.2]
    · exact hmm
  obtain ⟨left,hlf,hl⟩ := mem_flatMap.1 hmn
  obtain ⟨right,hrg,hr⟩ := mem_flatMap.1 hm
  refine ⟨ha,⟨left.1,?_⟩,right.1,?_⟩
  · rw [h.covers_row hlf,(h.segments left hlf).inside_least hl fun s hs => (ha left hlf s hs).1]
  · rw [h.covers_row hrg,(h.segments right hrg).inside_greatest hr fun s hs => (ha right hrg s hs).2]

private theorem map_y_spansOf (i : Nat) (rows : List Row) : (spansOf i rows).map Span.y = rows.map Prod.fst := by
  induction rows generalizing i with
  | nil => rfl
  | cons r rows ih => rw [spansOf,map_cons,ih,map_cons]

variable {first : Row} {last : Row}

private theorem bounds_ofRows (hf : rows.head? = some first) (hl : rows.getLast? = some last) :
    let extent := (ofRows rows).extent (spansOf 0 rows) (2147483647, -2147483648)
    (ofRows rows).bounds = ⟨extent.1,first.1,extent.2 - extent.1,last.1 - first.1⟩ := by
  have hh : (spansOf 0 rows).head?.map Span.y = some first.1 := by
    rw [← head?_map,map_y_spansOf,head?_map,hf,map_some]
  have hg : (spansOf 0 rows).getLast?.map Span.y = some last.1 := by
    rw [← getLast?_map,map_y_spansOf,getLast?_map,hl,map_some]
  obtain ⟨span,hs,hy⟩ := map_eq_some_iff.1 hh
  obtain ⟨lastSpan,hls,hly⟩ := map_eq_some_iff.1 hg
  have hs : (ofRows rows).spans.head? = some span := hs
  have hls : (ofRows rows).spans.getLast? = some lastSpan := hls
  simp only [bounds,hs,hls,hy,hly]
  rfl

section
variable (h : RowsOk rows)
include h

theorem RowsOk.y_of_covers (hf : rows.head? = some first)
    (hl : rows.getLast? = some last) {point : IntPoint} (hp : covers rows point) :
    first.1 ≤ point.y ∧ point.y < last.1 := by
  constructor
  · by_contra hlt
    obtain ⟨r,rfl⟩ := head?_eq_some_iff.1 hf
    have hb := (pairwise_cons.1 h.ascending).1
    rw [covers,valueAt_of_lt,inside_nil] at hp
    · cases hp
    · exact forall_mem_cons.2 ⟨not_le.1 hlt,fun row hr => (not_le.1 hlt).trans (hb row hr)⟩
  · by_contra hg
    obtain ⟨b,rfl⟩ := getLast?_eq_some_iff.1 hl
    have hb := (pairwise_append.1 h.ascending).2.2
    rw [covers,valueAt_of_le,h.closed,inside_nil] at hp
    · cases hp
    · intro row hr
      rcases mem_append.1 hr with hr | hr
      · exact (hb row hr last mem_cons_self).le.trans (not_lt.1 hg)
      · exact mem_singleton.1 hr ▸ not_lt.1 hg

theorem RowsOk.covers_first (hf : rows.head? = some first) : ∃ x, covers rows ⟨x,first.1⟩ := by
  apply h.exists_covers
  obtain ⟨r,rfl⟩ := head?_eq_some_iff.1 hf
  rw [valueAt_of_mem h.ascending mem_cons_self]
  exact h.alternates.1

theorem RowsOk.covers_last (hl : rows.getLast? = some last) : ∃ x, covers rows ⟨x,last.1 - 1⟩ := by
  apply h.exists_covers
  obtain ⟨b,rfl⟩ := getLast?_eq_some_iff.1 hl
  have hb := (pairwise_append.1 h.ascending).2.2
  have hn : last.2 = [] := by simpa [finalValue_append,finalValue] using h.closed
  rw [valueAt_append_of_le,valueAt_cons_of_lt (by omega)]
  · -- The span before the last one differs from it, so it has segments.
    exact fun he => (alternates_append.1 h.alternates).2.1 (hn.trans he.symm)
  · intro r hr
    have := hb r hr last mem_cons_self
    omega

/-- The bounds of a shape are the smallest rectangle with all its pixels. -/
theorem RowsOk.bounds_isSmallest (hft : RowsFit rows) :
    (ofRows rows).bounds.IsSmallest fun point => covers rows point := by
  by_cases hn : rows = []
  · subst hn
    exact ⟨nofun,fun _ _ point hp => absurd hp (IntRect.isEmpty_iff.1 rfl point)⟩
  · obtain ⟨first,hf⟩ := isSome_iff_exists.1 (isSome_head?.2 hn)
    obtain ⟨last,hl⟩ := isSome_iff_exists.1 (getLast?_isSome.2 hn)
    obtain ⟨hal,⟨l,hlf⟩,rightY,hr⟩ := h.extent_touches hft hn
    obtain ⟨t,ht⟩ := h.covers_first hf
    obtain ⟨bx,hbt⟩ := h.covers_last hl
    rw [bounds_ofRows hf hl]
    apply IntRect.isSmallest_of_touches
    · intro point hp
      obtain ⟨r,hrw,⟨a,ha,hax⟩,b,hb,hx⟩ := h.row_of_covers hp
      have hy := h.y_of_covers hf hl hp
      have hm := (hal r hrw a ha).1
      have hmx := (hal r hrw b hb).2
      simp only [IntRect.containsPoint_iff,IntRect.maxX,IntRect.maxY]
      omega
    · exact ⟨_,hlf,rfl⟩
    · exact ⟨_,hr,by simp only [IntRect.maxX]; omega⟩
    · exact ⟨_,ht,rfl⟩
    · exact ⟨_,hbt,by simp only [IntRect.maxY]; omega⟩

end

end
end WebKit.Graphics
