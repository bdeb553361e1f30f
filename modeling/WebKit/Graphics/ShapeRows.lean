import WebKit.Graphics.Segments

/-! Shapes as lists of rows, and what the sweep over the spans of two shapes computes. -/
namespace WebKit.Graphics

open Base.StepFunction List Shape

/-- The spans of rows whose segments start at an index. -/
def spansOf (index : Nat) : List Row → List Span
  | [] => []
  | (y, segments) :: rows => ⟨y,index⟩ :: spansOf (index+segments.length) rows

def Shape.ofRows (rows : List Row) : Shape := ⟨rows.flatMap Prod.snd,spansOf 0 rows⟩

private theorem rowsOf_spansOf (b : List Int) (rows : List Row) :
    rowsOf (b ++ rows.flatMap Prod.snd) (spansOf b.length rows) = rows := by
  induction rows generalizing b with
  | nil => rfl
  | cons r rows ih =>
    have ht := ih (b ++ r.2)
    rw [length_append,append_assoc] at ht
    cases rows with
    | nil => simp [spansOf,rowsOf]
    | cons next rows =>
      rw [spansOf,spansOf,rowsOf,← spansOf,flatMap_cons,ht,← append_assoc,
        take_append_of_le_length (by simp),take_of_length_le (by simp),drop_left]

theorem Shape.rows_ofRows (rows : List Row) : (ofRows rows).rows = rows := rowsOf_spansOf [] rows

theorem Shape.isEmpty_ofRows (rows : List Row) : (ofRows rows).isEmpty = rows.isEmpty := by
  cases rows <;> rfl

theorem Shape.ofRect_eq (r : IntRect) : ofRect r = .ofRows [(r.y, [r.x, r.maxX]), (r.maxY, [])] :=
  rfl

private theorem spansOf_append (i : Nat) (rows more : List Row) :
    spansOf i (rows ++ more) = spansOf i rows ++ spansOf (i+(rows.flatMap Prod.snd).length) more := by
  induction rows generalizing i with
  | nil => rfl
  | cons r rows ih =>
    rw [cons_append,spansOf,ih,spansOf,cons_append,flatMap_cons,length_append,Nat.add_assoc]

theorem ofRows_concat (rows : List Row) (y : Int) (segments : List Int) : ofRows (rows ++ [(y, segments)]) =
      { (ofRows rows).appendSpan y with segments := (ofRows rows).segments ++ segments } := by
  simp only [ofRows,appendSpan,spansOf_append,flatMap_append,spansOf,Nat.zero_add]
  simp

private theorem canCoalesce_ofRows (rows : List Row) (segments : List Int) :
    (ofRows rows).canCoalesce segments = decide (rows ≠ [] ∧ finalValue [] rows = segments) := by
  rcases eq_nil_or_concat rows with rfl | ⟨rows,r,rfl⟩
  · rfl
  · rw [concat_eq_append,ofRows_concat,canCoalesce,appendSpan]
    simp [finalValue_append,finalValue]

theorem appendSpanWith_ofRows {rows : List Row} {segments : List Int} (y : Int) (h : segments ≠ [] ∨ rows ≠ []) :
    (ofRows rows).appendSpanWith y segments = .ofRows (rows ++ coalesce (finalValue [] rows) [(y, segments)]) := by
  rw [appendSpanWith,canCoalesce_ofRows,← ofRows_concat,coalesce,coalesce]
  by_cases he : segments = finalValue [] rows
  · have hr : rows ≠ [] := by
      rintro rfl
      exact h.elim (fun h => h he) (fun h => h rfl)
    rw [if_pos he,append_nil,if_pos (by simp [hr,he])]
  · rw [if_neg he,if_neg (by simp [Ne.symm he]),coalesce]

section
variable {op : Operation} {f : Bool → Bool → Bool} {rows l m : List Row} {s1 s2 a b : List Int}

theorem mergeSpans_step (rows : List Row) (y : Int) (segments : List Int)
    [Decidable (segments ≠ [] ∨ !(ofRows rows).isEmpty)] :
    (if segments ≠ [] ∨ !(ofRows rows).isEmpty then (ofRows rows).appendSpanWith y segments
      else .ofRows rows) = ofRows (rows ++ coalesce (finalValue [] rows) [(y, segments)]) := by
  split
  next h => exact appendSpanWith_ofRows y (by simpa [isEmpty_ofRows] using h)
  next h =>
    obtain ⟨rfl,rfl⟩ : segments = [] ∧ rows = [] := by simpa [isEmpty_ofRows] using h
    rfl

private theorem mergeSpans_of_lt {y1 y2 : Int} (h : y1 < y2) :
    mergeSpans op (.ofRows rows) s1 s2 ((y1, a) :: l) ((y2, b) :: m) =
      mergeSpans op (.ofRows (rows ++ coalesce (finalValue [] rows) [(y1, mergeSegments op 0 a s2)])) a s2 l
        ((y2, b) :: m) := by
  rw [mergeSpans]
  simp only [show y1 - y2 ≤ 0 by omega,show ¬ y1 - y2 ≥ 0 by omega,if_true,if_false,mergeSpans_step]

private theorem mergeSpans_of_gt {y1 y2 : Int} (h : y2 < y1) :
    mergeSpans op (.ofRows rows) s1 s2 ((y1, a) :: l) ((y2, b) :: m) =
      mergeSpans op (.ofRows (rows ++ coalesce (finalValue [] rows) [(y2, mergeSegments op 0 s1 b)])) s1 b
        ((y1, a) :: l) m := by
  rw [mergeSpans]
  simp only [show ¬ y1 - y2 ≤ 0 by omega,show y1 - y2 ≥ 0 by omega,if_true,if_false,mergeSpans_step]

private theorem mergeSpans_of_eq {y : Int} :
    mergeSpans op (.ofRows rows) s1 s2 ((y, a) :: l) ((y, b) :: m) =
      mergeSpans op (.ofRows (rows ++ coalesce (finalValue [] rows) [(y, mergeSegments op 0 a b)])) a b l
        m := by
  rw [mergeSpans]
  simp only [show y - y ≤ 0 by omega,show y - y ≥ 0 by omega,if_true,mergeSpans_step]

theorem appendSpans_ofRows (h : Alternates (finalValue [] rows) m) :
    (ofRows rows).appendSpans m = .ofRows (rows ++ m) := by
  induction m generalizing rows with
  | nil => rw [append_nil]; rfl
  | cons r m ih =>
    have hn : r.2 ≠ [] ∨ rows ≠ [] := by
      by_contra he
      obtain ⟨hr,rfl⟩ := not_or.1 he |>.imp not_not.1 not_not.1
      exact h.1 hr
    have ha : coalesce (finalValue [] rows) [(r.1, r.2)] = [r] := by rw [coalesce,if_neg h.1,coalesce]
    have ht := @ih (rows ++ [r]) (by rw [finalValue_append]; exact h.2)
    rw [append_assoc,singleton_append] at ht
    rw [← ht,appendSpans,foldl_cons,appendSpanWith_ofRows r.1 hn,ha]
    rfl

theorem mergeSpans_nil_left (op : Operation) (result : Shape) (s1 s2 : List Int) (m : List Row) :
    mergeSpans op result s1 s2 [] m =
      if op.shouldAddRemainingSpansFromShape2 then result.appendSpans m else result := by
  cases m <;> simp [mergeSpans,appendSpans]

private theorem mergeSpans_nil_right (op : Operation) (result : Shape) (s1 s2 : List Int) (l : List Row) :
    mergeSpans op result s1 s2 l [] =
      if op.shouldAddRemainingSpansFromShape1 then result.appendSpans l else result := by
  cases l <;> simp [mergeSpans,appendSpans]

variable {segments : List Int}

/-- What remains of a shape is kept or dropped as a whole. -/
theorem appendRemaining {g : List Int → List Int} {k : Bool} {more : List Row}
    (hg : ∀ s, g s = if k then s else []) (hr : finalValue [] rows = g segments)
    (hm : Alternates segments more) :
    (if k then (ofRows rows).appendSpans more else .ofRows rows) =
      .ofRows (rows ++ coalesce (finalValue [] rows) (more.map fun r => (r.1, g r.2))) := by
  cases k with
  | false =>
    rw [coalesce_of_constant,append_nil,if_neg Bool.false_ne_true]
    simp [hr,hg]
  | true =>
    have hi : (more.map fun r => (r.1, g r.2)) = more := by simp [hg]
    have ha : Alternates (finalValue [] rows) more := by rwa [hr,hg,if_pos rfl]
    rw [hi,if_pos rfl,appendSpans_ofRows ha,coalesce_of_alternates ha]

private theorem finalValue_append_coalesce {y : Int} :
    finalValue [] (rows ++ coalesce (finalValue [] rows) [(y, segments)]) = segments := by
  rw [finalValue_append,finalValue_coalesce,finalValue,finalValue]

/-- The sweep over the spans of two shapes combines their rows. -/
theorem mergeSpans_eq (ho : op.Computes f) (hr : finalValue [] rows = mergeSegments op 0 s1 s2)
    (hl : Alternates s1 l) (hm : Alternates s2 m) (hl' : finalValue s1 l = []) (hm' : finalValue s2 m = []) :
    mergeSpans op (.ofRows rows) s1 s2 l m =
      .ofRows (rows ++ coalesce (finalValue [] rows) (combine (mergeSegments op 0) s1 s2 l m)) := by
  fun_induction combine (mergeSegments op 0) s1 s2 l m generalizing rows with
  | case1 s1 s2 m =>
    obtain rfl : s1 = [] := hl'
    rw [mergeSpans_nil_left,ho.spans2]
    exact appendRemaining (mergeSegments_nil_left 0) hr hm
  | case2 s1 s2 l _ =>
    obtain rfl : s2 = [] := hm'
    rw [mergeSpans_nil_right,ho.spans1]
    exact appendRemaining (mergeSegments_nil_right 0) hr hl
  | case3 s1 s2 y1 a l y2 b m hlt ih =>
    rw [mergeSpans_of_lt hlt,ih finalValue_append_coalesce hl.2 hm hl' hm',finalValue_append_coalesce,append_assoc,
      ← coalesce_cons]
  | case4 s1 s2 y1 a l y2 b m _ hg ih =>
    rw [mergeSpans_of_gt hg,ih finalValue_append_coalesce hl hm.2 hl' hm',finalValue_append_coalesce,append_assoc,
      ← coalesce_cons]
  | case5 s1 s2 y1 a l y2 b m hlt hg ih =>
    obtain rfl : y1 = y2 := le_antisymm (not_lt.1 hg) (not_lt.1 hlt)
    rw [mergeSpans_of_eq,ih finalValue_append_coalesce hl.2 hm.2 hl' hm',finalValue_append_coalesce,append_assoc,
      ← coalesce_cons]

/-- No row continues the one before it, and the last one has no segments. -/
structure RowsOk (rows : List Row) : Prop where
  ascending : Ascending rows
  alternates : Alternates [] rows
  closed : finalValue [] rows = []
  segments : ∀ row ∈ rows, SegmentsOk row.2

def covers (rows : List Row) (point : IntPoint) : Bool := inside (valueAt [] rows point.y) point.x

theorem RowsOk.nil : RowsOk [] := ⟨.nil,trivial,rfl,nofun⟩

theorem RowsOk.segments_of_mem (h : RowsOk rows)
    (hm : segments ∈ [] :: rows.map Prod.snd) : SegmentsOk segments := by
  rcases mem_cons.1 hm with rfl | hm
  · exact segmentsOk_nil
  · obtain ⟨r,hr,rfl⟩ := mem_map.1 hm
    exact h.segments r hr

theorem RowsOk.valueAt_ok (h : RowsOk rows) (y : Int) : SegmentsOk (valueAt [] rows y) :=
  h.segments_of_mem (valueAt_mem [] rows y)

def operationRows (op : Operation) (rows1 rows2 : List Row) : List Row :=
  coalesce [] (combine (mergeSegments op 0) [] [] rows1 rows2)

theorem mergeSegments_nil_nil (op : Operation) : mergeSegments op 0 [] [] = [] := by
  simp [mergeSegments]

section
variable (ho : op.Computes f) {rows1 rows2 : List Row} (h1 : RowsOk rows1) (h2 : RowsOk rows2)
include ho h1 h2

theorem shapeOperation_ofRows :
    shapeOperation op (.ofRows rows1) (.ofRows rows2) = .ofRows (operationRows op rows1 rows2) := by
  have hs := @mergeSpans_eq _ _ [] _ _ _ _ ho (mergeSegments_nil_nil op).symm h1.alternates h2.alternates
    h1.closed h2.closed
  rw [shapeOperation]
  split
  next r hsm =>
    obtain ⟨he,rfl,ha⟩ := ho.simple hsm
    obtain rfl : rows1 = [] := by simpa [isEmpty_ofRows] using he
    rw [mergeSpans_nil_left,if_pos ha,@appendSpans_ofRows [] _ h2.alternates] at hs
    exact hs
  · rw [rows_ofRows,rows_ofRows]
    exact hs

theorem operationRows_ok : RowsOk (operationRows op rows1 rows2) where
  ascending := (combine_ascending h1.ascending h2.ascending).sublist (coalesce_sublist _ _)
  alternates := coalesce_alternates _ _
  closed := by
    have hf := @finalValue_combine _ _ _ _ _ (mergeSegments op 0) [] [] rows1 rows2
    rw [h1.closed,h2.closed,mergeSegments_nil_nil] at hf
    rw [operationRows,finalValue_coalesce,hf]
  segments row hr := by
    obtain ⟨-,s1,hs1,s2,hs2,he⟩ := of_mem_combine ((coalesce_sublist _ _).mem hr)
    rw [he]
    exact mergeSegments_ok ho (h1.segments_of_mem hs1) (h2.segments_of_mem hs2)

/-- Operations on shapes are those on their sets of pixels. -/
theorem covers_operationRows (p : IntPoint) :
    covers (operationRows op rows1 rows2) p = f (covers rows1 p) (covers rows2 p) := by
  have hv := @valueAt_combine _ _ _ _ _ (mergeSegments op 0) [] [] _ _ h1.ascending h2.ascending p.y
  rw [mergeSegments_nil_nil] at hv
  rw [covers,operationRows,valueAt_coalesce (combine_ascending h1.ascending h2.ascending),hv,
    inside_mergeSegments ho (h1.valueAt_ok _) (h2.valueAt_ok _),covers,covers]

theorem mem_operationRows {r : Row} (hr : r ∈ operationRows op rows1 rows2) {x : Int} (hx : x ∈ r.2) :
    ∃ r' ∈ rows1 ++ rows2, x ∈ r'.2 := by
  obtain ⟨-,s1,hs1,s2,hs2,he⟩ := of_mem_combine ((coalesce_sublist _ _).mem hr)
  rw [he] at hx
  rcases mem_mergeSegments ho (h1.segments_of_mem hs1) (h2.segments_of_mem hs2) hx with hx | hx
  · rcases mem_cons.1 hs1 with rfl | hs1
    · exact absurd hx not_mem_nil
    · obtain ⟨r',hr',rfl⟩ := mem_map.1 hs1
      exact ⟨r',mem_append_left _ hr',hx⟩
  · rcases mem_cons.1 hs2 with rfl | hs2
    · exact absurd hx not_mem_nil
    · obtain ⟨r',hr',rfl⟩ := mem_map.1 hs2
      exact ⟨r',mem_append_right _ hr',hx⟩

end

end
end WebKit.Graphics
