import WebKit.Graphics.RegionPixels

/-! The operations on regions are the operations on their sets of pixels. -/
namespace WebKit.Graphics

open Base.StepFunction List Shape
open Bool hiding and_true

/-- The region has the given rows, and the smallest bounds. -/
structure Region.HasRows (region : Region) (rows : List Row) : Prop where
  shape : region.shape = .ofRows rows
  rows_ok : RowsOk rows
  rows_fit : RowsFit rows
  bounds : region.bounds.IsSmallest fun point => covers rows point

namespace Region.HasRows

section
variable {region other : Region} {rows rows' : List Row}

section
variable (h : region.HasRows rows)
include h

private theorem containsPoint_eq (point : IntPoint) : region.containsPoint point = covers rows point := by
  rw [containsPoint,h.shape,rows_ofRows,rowsContain_eq h.rows_ok.suffixOk]
  cases hc : covers rows point with
  | false => rw [Bool.and_false]
  | true => rw [Bool.and_true,h.bounds.1 point hc]

private theorem mem_rects (point : IntPoint) : (∃ r ∈ region.rects, r.containsPoint point) ↔ covers rows point := by
  rw [rects,h.shape,rows_ofRows]
  exact mem_rectsOf h.rows_ok.suffixOk

private theorem rects_pairwise : region.rects.Pairwise IntRect.Disjoint := by
  rw [rects,h.shape,rows_ofRows]
  exact rectsOf_pairwise h.rows_ok.suffixOk

end

variable {f : Bool → Bool → Bool}

private theorem rowsFit_operation {op : Operation} (ho : op.Computes f)
    (h : region.HasRows rows) (h' : other.HasRows rows') : RowsFit (operationRows op rows rows') := by
  intro r hr x hx
  obtain ⟨r',hr',hx⟩ := mem_operationRows ho h.rows_ok h'.rows_ok hr hx
  rcases mem_append.1 hr' with hr' | hr'
  · exact h.rows_fit r' hr' x hx
  · exact h'.rows_fit r' hr' x hx

theorem covers_eq_false (h : region.HasRows rows) (hm : region.bounds.isEmpty) (p : IntPoint) :
    covers rows p = false :=
  eq_false_iff.2 (h.bounds.isEmpty_iff.1 hm p)

theorem covers_disjoint (h : region.HasRows rows) (h' : other.HasRows rows')
    (hb : region.bounds.intersects other.bounds = false) {p : IntPoint} (hp : covers rows p) :
    covers rows' p = false :=
  eq_false_iff.2 fun hp' =>
    IntRect.not_containsPoint_of_not_intersects hb (h.bounds.1 p hp) (h'.bounds.1 p hp')

private theorem empty : HasRows ⟨⟨0,0,0,0⟩,.empty⟩ [] :=
  ⟨rfl,.nil,nofun,nofun,fun _ _ p hp => absurd hp (IntRect.isEmpty_iff.1 rfl p)⟩

/-- An operation's shape, with the bounds computed from it. -/
theorem operation {op : Operation} (ho : op.Computes f) (h : region.HasRows rows) (h' : other.HasRows rows') :
    let shape := shapeOperation op region.shape other.shape
    HasRows ⟨shape.bounds,shape⟩ (operationRows op rows rows') := by
  intro shape
  have hs : shape = .ofRows (operationRows op rows rows') := by
    rw [← shapeOperation_ofRows ho h.rows_ok h'.rows_ok,← h.shape,← h'.shape]
  have hok := operationRows_ok ho h.rows_ok h'.rows_ok
  have hf := rowsFit_operation ho h h'
  refine ⟨hs,hok,hf,?_⟩
  rw [hs]
  exact hok.bounds_isSmallest hf

theorem intersect (h : region.HasRows rows) (h' : other.HasRows rows') :
    ∃ r, (region.intersect other).HasRows r ∧
      ∀ p, covers r p = (covers rows p && covers rows' p) := by
  rw [Region.intersect]
  split_ifs with hempty hb
  · refine ⟨rows,h,fun p => ?_⟩
    rw [h.covers_eq_false hempty,Bool.false_and]
  · refine ⟨[],empty,fun p => (and_eq_false_imp.2 ?_).symm⟩
    exact h.covers_disjoint h' (by simpa using hb)
  · exact ⟨_,operation intersectOperation_computes h h',
      covers_operationRows intersectOperation_computes h.rows_ok h'.rows_ok⟩

theorem subtract (h : region.HasRows rows) (h' : other.HasRows rows') : ∃ r, (region.subtract other).HasRows r ∧
      ∀ p, covers r p = (covers rows p && !covers rows' p) := by
  rw [Region.subtract]
  split_ifs with hempty ho hb
  · refine ⟨rows,h,fun p => ?_⟩
    rw [h.covers_eq_false hempty,Bool.false_and]
  · refine ⟨rows,h,fun p => ?_⟩
    rw [h'.covers_eq_false ho,Bool.not_false,Bool.and_true]
  · refine ⟨rows,h,fun p => ?_⟩
    cases hp : covers rows p with
    | false => rfl
    | true => rw [h.covers_disjoint h' (by simpa using hb) hp]; rfl
  · exact ⟨_,operation subtractOperation_computes h h',
      covers_operationRows subtractOperation_computes h.rows_ok h'.rows_ok⟩

theorem covers_rectangle (r : IntRect) (point : IntPoint) :
    covers [(r.y, [r.x, r.maxX]), (r.maxY, [])] point = r.containsPoint point := by
  rw [Bool.eq_iff_iff,IntRect.containsPoint_iff,covers]
  simp only [valueAt]
  split_ifs with hy hmy
  · simp only [inside_nil,false_eq_true,false_iff]
    omega
  · rw [inside_cons_cons,inside_nil]
    split_ifs with hx hm
    · simp only [false_iff]
      omega
    · simp only [true_iff]
      omega
    · simp only [false_iff]
      omega
  · simp only [inside_nil,false_eq_true,false_iff]
    omega

private theorem covers_of_isRect (h : region.HasRows rows) (hr : region.isRect) {point : IntPoint}
    (hpn : region.bounds.containsPoint point) : covers rows point := by
  simp only [isRect,Shape.isRect,h.shape,Shape.ofRows,and_eq_true,decide_eq_true_eq] at hr
  obtain ⟨hsp,hs⟩ := hr
  rcases rows with _ | ⟨⟨y,segments⟩,_ | ⟨⟨maxY,last⟩,_ | _⟩⟩
  · exact absurd hpn (IntRect.isEmpty_iff.1 (h.bounds.isEmpty_iff.2 (by simp [covers,valueAt,inside_nil])) point)
  · exact absurd h.rows_ok.closed h.rows_ok.alternates.1
  · obtain rfl : last = [] := h.rows_ok.closed
    obtain ⟨x,maxX,rfl⟩ : ∃ x maxX, segments = [x, maxX] := by
      rcases (h.rows_ok.segments _ mem_cons_self).eq_nil_or with hn | ⟨x,maxX,r,rfl⟩
      · exact absurd hn h.rows_ok.alternates.1
      · simp only [flatMap_cons,length_append,length_cons] at hs
        exact ⟨x,maxX,by rw [eq_nil_of_length_eq_zero (show r.length = 0 by omega)]⟩
    have hr := covers_rectangle ⟨x,y,maxX - x,maxY - y⟩
    simp only [IntRect.maxX,IntRect.maxY,show x + (maxX-x) = maxX by omega,show y + (maxY-y) = maxY by omega] at hr
    rw [hr]
    exact h.bounds.2 _ (fun p hp => hr p ▸ hp) point hpn
  · simp [spansOf] at hsp

theorem unite (h : region.HasRows rows) (h' : other.HasRows rows') : ∃ r, (region.unite other).HasRows r ∧
      ∀ p, covers r p = (covers rows p || covers rows' p) := by
  have hl (hsb : ∀ p, covers rows' p → covers rows p) :
      ∀ p, covers rows p = (covers rows p || covers rows' p) := by
    intro p
    cases hp : covers rows' p with
    | false => rw [Bool.or_false]
    | true => rw [hsb p hp,Bool.or_true]
  rw [Region.unite]
  split_ifs with hempty hr hr' hcn
  · refine ⟨rows,h,hl fun p hp => ?_⟩
    exact nomatch hp.symm.trans (h'.covers_eq_false hempty p)
  · obtain ⟨hr,hb⟩ := and_eq_true_iff.1 hr
    refine ⟨rows,h,hl fun p hp => ?_⟩
    exact h.covers_of_isRect hr (IntRect.containsPoint_of_contains hb (h'.bounds.1 p hp))
  · obtain ⟨hr,hb⟩ := and_eq_true_iff.1 hr'
    refine ⟨rows',h',fun p => ?_⟩
    cases hp : covers rows p with
    | false => rw [Bool.false_or]
    | true =>
      exact h'.covers_of_isRect hr (IntRect.containsPoint_of_contains hb (h.bounds.1 p hp))
  · obtain ⟨_,hcn⟩ := and_eq_true_iff.1 hcn
    obtain ⟨_,hc⟩ := and_eq_true_iff.1 hcn
    rw [h.shape,h'.shape] at hc
    exact ⟨rows,h,hl fun p => covers_of_compareShapes h.rows_ok h'.rows_ok hc⟩
  · have hcv := covers_operationRows unionOperation_computes h.rows_ok h'.rows_ok
    obtain ⟨hs,ho,hf,_⟩ := operation unionOperation_computes h h'
    refine ⟨_,⟨hs,ho,hf,?_⟩,hcv⟩
    refine (h.bounds.unite h'.bounds).congr fun p => ?_
    rw [hcv,or_eq_true]

private theorem ofRect {r : IntRect} (hr : r.isEmpty = false)
    (hf : RowsFit [(r.y, [r.x, r.maxX]), (r.maxY, [])]) :
    (Region.ofRect r).HasRows [(r.y, [r.x, r.maxX]), (r.maxY, [])] where
  shape := ofRect_eq r
  rows_ok := by
    simp only [IntRect.isEmpty,or_eq_false_iff,decide_eq_false_iff_not] at hr
    have hs : SegmentsOk [r.x, r.maxX] :=
      segmentsOk_cons_cons.2 ⟨by simp only [IntRect.maxX]; omega,by simp,segmentsOk_nil⟩
    refine ⟨?_,⟨by simp,by simp,trivial⟩,rfl,?_⟩
    · simp only [Ascending,pairwise_cons,mem_singleton,forall_eq,IntRect.maxY,not_mem_nil,
        false_imp_iff,implies_true,List.Pairwise.nil,and_true]
      omega
    · exact forall_mem_cons.2 ⟨hs,forall_mem_cons.2 ⟨segmentsOk_nil,forall_mem_nil _⟩⟩
  rows_fit := hf
  bounds := by
    refine ⟨fun p hp => covers_rectangle r p ▸ hp,fun other ho p hp => ho p ?_⟩
    exact (covers_rectangle r p).trans hp

def moveRows (rows : List Row) (offset : IntSize) : List Row :=
  rows.map fun row => (row.1 + offset.height, row.2.map (· + offset.width))

private theorem spansOf_moveRows (i : Nat) (rows : List Row) (o : IntSize) : spansOf i (moveRows rows o) =
      (spansOf i rows).map fun s => { s with y := s.y + o.height } := by
  induction rows generalizing i with
  | nil => rfl
  | cons r rows ih =>
    simp only [moveRows] at ih
    simp only [moveRows,map_cons,spansOf,length_map,ih]

theorem translate_ofRows (rows : List Row) (o : IntSize) :
    (Shape.ofRows rows).translate o = .ofRows (moveRows rows o) := by
  simp only [Shape.translate,Shape.ofRows,spansOf_moveRows]
  simp [moveRows,map_flatMap,flatMap_map]

theorem strictMono_add (d : Int) ⦃a b : Int⦄ (h : a < b) : a + d < b + d := Int.add_lt_add_right h d

private theorem inside_map (ss : List Int) (d x : Int) : inside (ss.map (· + d)) (x+d) = inside ss x := by
  rw [inside,toggles_map]
  exact valueAt_map (e := (· + d)) (strictMono_add d) id false (toggles false ss) x

private theorem segmentsOk_map {ss : List Int} (h : SegmentsOk ss) (d : Int) : SegmentsOk (ss.map (· + d)) where
  ascending := pairwise_map.2 (h.ascending.imp fun hl => strictMono_add d hl)
  closed := by
    rw [toggles_map]
    exact (finalValue_map (· + d) id false _).trans h.closed

private theorem translate (h : region.HasRows rows) (o : IntSize) (hft : RowsFit (moveRows rows o)) :
    ∃ r, (region.translate o).HasRows r ∧
      ∀ p, covers r p = covers rows ⟨p.x - o.width,p.y - o.height⟩ := by
  have hc (p : IntPoint) :
      covers (moveRows rows o) p = covers rows ⟨p.x - o.width,p.y - o.height⟩ := by
    have hv := valueAt_map (e := (· + o.height)) (strictMono_add o.height) (List.map (· + o.width)) [] rows
      (p.y-o.height)
    have hi := inside_map (valueAt [] rows (p.y-o.height)) o.width (p.x-o.width)
    simp only [map_nil,Int.sub_add_cancel] at hv hi
    rw [covers,moveRows,hv,hi,covers]
  refine ⟨moveRows rows o,⟨?_,⟨?_,?_,?_,?_⟩,hft,?_⟩,hc⟩
  · rw [Region.translate,h.shape,translate_ofRows]
  · exact ascending_map (e := (· + o.height)) (strictMono_add o.height) h.rows_ok.ascending
  · have hin := map_injective_iff.2 fun _ _ => (Int.add_left_inj o.width).1
    exact @alternates_map _ _ _ _ (· + o.height) _ hin _ _ h.rows_ok.alternates
  · have hf := finalValue_map (· + o.height) (List.map (· + o.width)) [] rows
    rwa [h.rows_ok.closed,map_nil] at hf
  · intro row hr
    obtain ⟨row',hr',rfl⟩ := mem_map.1 hr
    exact segmentsOk_map (h.rows_ok.segments row' hr') o.width
  · refine (h.bounds.move o).congr fun p => ?_
    rw [hc]

end
end Region.HasRows

def Shape.Fits (shape : Shape) : Prop :=
  (∀ x ∈ shape.segments, -2147483648 ≤ x ∧ x ≤ 2147483647) ∧
    ∀ span ∈ shape.spans, -2147483648 ≤ span.y ∧ span.y ≤ 2147483647

/-- The regions made from rectangles by the operations, as long as the coordinates fit. -/
inductive Region.Obtained : Region → Prop
  | ofRect {rect : IntRect} (hempty : rect.isEmpty = false) (hfits : (Shape.ofRect rect).Fits) :
    Region.Obtained (.ofRect rect)
  | unite {region other : Region} (h : Region.Obtained region) (h' : Region.Obtained other) :
    Region.Obtained (region.unite other)
  | intersect {region other : Region} (h : Region.Obtained region) (h' : Region.Obtained other) :
    Region.Obtained (region.intersect other)
  | subtract {region other : Region} (h : Region.Obtained region) (h' : Region.Obtained other) :
    Region.Obtained (region.subtract other)
  | translate {region : Region} {offset : IntSize} (h : Region.Obtained region)
    (hfits : (region.shape.translate offset).Fits) : Region.Obtained (region.translate offset)

namespace Region

theorem rowsFit_of_fits {rows : List Row} (h : (ofRows rows).Fits) : RowsFit rows :=
  fun r hr x hx => h.1 x (mem_flatMap.2 ⟨r,hr,hx⟩)

theorem HasRows.translate_of_fits {region : Region} {rows : List Row} {o : IntSize} (h : region.HasRows rows)
    (hs : (region.shape.translate o).Fits) :
    ∃ r, (region.translate o).HasRows r ∧
      ∀ p, covers r p = covers rows ⟨p.x - o.width,p.y - o.height⟩ := by
  rw [h.shape,HasRows.translate_ofRows] at hs
  exact h.translate o (rowsFit_of_fits hs)

theorem Obtained.exists_rows {region : Region} (h : region.Obtained) : ∃ rows, region.HasRows rows := by
  induction h with
  | ofRect hm hs => exact ⟨_,.ofRect hm (rowsFit_of_fits (ofRect_eq _ ▸ hs))⟩
  | unite _ _ ih ih' =>
    obtain ⟨⟨rows,h⟩,rows',h'⟩ := And.intro ih ih'
    exact (h.unite h').imp fun _ => And.left
  | intersect _ _ ih ih' =>
    obtain ⟨⟨rows,h⟩,rows',h'⟩ := And.intro ih ih'
    exact (h.intersect h').imp fun _ => And.left
  | subtract _ _ ih ih' =>
    obtain ⟨⟨rows,h⟩,rows',h'⟩ := And.intro ih ih'
    exact (h.subtract h').imp fun _ => And.left
  | translate _ hs ih =>
    obtain ⟨rows,h⟩ := ih
    exact (h.translate_of_fits hs).imp fun _ => And.left

/-- The operations on regions are exact, the rectangles of a region are a partition of it, and its bounds are
the smallest rectangle that contains it. -/
theorem Obtained.algebra_exact {region other : Region} (h : region.Obtained) (h' : other.Obtained) :
    (∀ point, (region.unite other).containsPoint point ↔ region.containsPoint point ∨ other.containsPoint point) ∧
    (∀ point, (region.intersect other).containsPoint point ↔ region.containsPoint point ∧ other.containsPoint point) ∧
    (∀ point, (region.subtract other).containsPoint point ↔ region.containsPoint point ∧ ¬ other.containsPoint point) ∧
    (∀ offset : IntSize, (region.shape.translate offset).Fits → ∀ point, (region.translate offset).containsPoint point ↔
        region.containsPoint ⟨point.x - offset.width,point.y - offset.height⟩) ∧
    region.rects.Pairwise IntRect.Disjoint ∧
    (∀ point, region.containsPoint point ↔ ∃ rect ∈ region.rects, rect.containsPoint point) ∧
    region.bounds.IsSmallest fun point => region.containsPoint point := by
  obtain ⟨rows,hr⟩ := h.exists_rows
  obtain ⟨rows',hr'⟩ := h'.exists_rows
  have hc := hr.containsPoint_eq
  have hc' := hr'.containsPoint_eq
  refine ⟨fun point => ?_,fun point => ?_,fun point => ?_,fun offset hfits point => ?_,hr.rects_pairwise,
    fun point => ?_,?_⟩
  · obtain ⟨result,hrs,hcv⟩ := hr.unite hr'
    rw [hrs.containsPoint_eq,hcv,hc,hc',or_eq_true]
  · obtain ⟨result,hrs,hcv⟩ := hr.intersect hr'
    rw [hrs.containsPoint_eq,hcv,hc,hc',and_eq_true]
  · obtain ⟨result,hrs,hcv⟩ := hr.subtract hr'
    rw [hrs.containsPoint_eq,hcv,hc,hc',and_eq_true,not_eq_true',not_eq_true]
  · obtain ⟨result,hrs,hcv⟩ := hr.translate_of_fits hfits
    rw [hrs.containsPoint_eq,hcv,hc]
  · rw [hc,hr.mem_rects]
  · exact hr.bounds.congr fun point => by rw [hc]

theorem algebra_exact_overlapping : ((ofRect ⟨0,0,10,10⟩).unite (ofRect ⟨5,5,10,10⟩)).containsPoint ⟨12,12⟩ ∧
      ¬ ((ofRect ⟨0,0,10,10⟩).subtract (ofRect ⟨5,5,10,10⟩)).containsPoint ⟨7,7⟩ := by
  have hl : (ofRect ⟨0,0,10,10⟩).Obtained := .ofRect rfl ⟨by decide,by decide⟩
  have hr : (ofRect ⟨5,5,10,10⟩).Obtained := .ofRect rfl ⟨by decide,by decide⟩
  obtain ⟨hu,_,hs,_⟩ := hl.algebra_exact hr
  exact ⟨(hu _).2 (.inr (by decide)),fun h => ((hs _).1 h).2 (by decide)⟩

end Region
end WebKit.Graphics
