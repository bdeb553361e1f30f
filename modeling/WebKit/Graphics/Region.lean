import Mathlib.Data.Int.Order.Basic

/-! Regions of pixels as spans of rows with segments, combined by a sweep. Coordinates are integers, which the code assumes to
fit in a machine word, with their differences. -/
namespace WebKit.Graphics

structure IntPoint where
  x : Int
  y : Int

structure IntSize where
  width : Int
  height : Int

structure IntRect where
  x : Int
  y : Int
  width : Int
  height : Int
  deriving DecidableEq

namespace IntRect

def maxX (rect : IntRect) : Int := rect.x + rect.width

def maxY (rect : IntRect) : Int := rect.y + rect.height

def isEmpty (rect : IntRect) : Bool := rect.width ≤ 0 || rect.height ≤ 0

def containsPoint (rect : IntRect) (point : IntPoint) : Bool :=
  point.x ≥ rect.x && point.x < rect.maxX && point.y ≥ rect.y && point.y < rect.maxY

def contains (rect other : IntRect) : Bool :=
  rect.x ≤ other.x && rect.maxX ≥ other.maxX && rect.y ≤ other.y && rect.maxY ≥ other.maxY

def intersects (rect other : IntRect) : Bool :=
  !rect.isEmpty && !other.isEmpty && rect.x < other.maxX && other.x < rect.maxX && rect.y < other.maxY &&
    other.y < rect.maxY

def unite (rect other : IntRect) : IntRect :=
  if other.isEmpty then rect
  else if rect.isEmpty then other
  else
    let l := min rect.x other.x
    let t := min rect.y other.y
    let r := max rect.maxX other.maxX
    let b := max rect.maxY other.maxY
    ⟨l,t,r - l,b - t⟩

def move (rect : IntRect) (offset : IntSize) : IntRect :=
  { rect with x := rect.x + offset.width, y := rect.y + offset.height }

end IntRect

/-- The rows from y up to the next span, with segments from the index on. -/
structure Span where
  y : Int
  segmentIndex : Nat

/-- All segments, and the spans in ascending order. -/
structure Shape where
  segments : List Int
  spans : List Span

/-- A span as its iterator shows it. -/
abbrev Row : Type := Int × List Int

/-- The flag whose segments are kept or, for 0, left out, and what remains of a shape when the other one has ended. -/
structure Operation where
  trySimpleOperation : Shape → Shape → Option Shape
  opCode : Nat
  shouldAddRemainingSegmentsFromSpan1 : Bool
  shouldAddRemainingSegmentsFromSpan2 : Bool
  shouldAddRemainingSpansFromShape1 : Bool
  shouldAddRemainingSpansFromShape2 : Bool

/-- The result when nothing decides, and what decides. -/
structure CompareOperation where
  defaultResult : Bool
  aOutsideB : Option Bool
  bOutsideA : Option Bool
  aOverlapsB : Option Bool

namespace Shape

def empty : Shape := ⟨[],[]⟩

def isEmpty (shape : Shape) : Bool := shape.spans.isEmpty

def isRect (shape : Shape) : Bool := shape.spans.length ≤ 2 && shape.segments.length ≤ 2

def appendSpan (shape : Shape) (y : Int) : Shape := { shape with spans := shape.spans ++ [⟨y,shape.segments.length⟩] }

def appendSegment (shape : Shape) (x : Int) : Shape := { shape with segments := shape.segments ++ [x] }

def ofRect (rect : IntRect) : Shape :=
  (((empty.appendSpan rect.y).appendSegment rect.x).appendSegment rect.maxX).appendSpan rect.maxY

/-- A span's segments end where the next one's start. -/
def rowsOf (segments : List Int) : List Span → List Row
  | [] => []
  | [span] => [(span.y, segments.drop span.segmentIndex)]
  | span::next::spans =>
    (span.y, (segments.take next.segmentIndex).drop span.segmentIndex) :: rowsOf segments (next::spans)

def rows (shape : Shape) : List Row := rowsOf shape.segments shape.spans

/-- The last span has the given segments. -/
def canCoalesce (shape : Shape) (segments : List Int) : Bool :=
  match shape.spans.getLast? with
  | none => false
  | some span => shape.segments.drop span.segmentIndex = segments

def appendSpanWith (shape : Shape) (y : Int) (segments : List Int) : Shape :=
  if shape.canCoalesce segments then shape
  else { shape.appendSpan y with segments := shape.segments ++ segments }

def appendSpans (shape : Shape) (rows : List Row) : Shape :=
  rows.foldl (fun shape row => shape.appendSpanWith row.1 row.2) shape

/-- The least and greatest of the first and last segments of all spans but the last. A span without segments shows a later first
and an earlier last one. -/
def extent (shape : Shape) : List Span → Int × Int → Int × Int
  | span::next::spans, (minX, maxX) =>
    if span.segmentIndex = shape.segments.length then shape.extent (next::spans) (minX, maxX)
    else
      let firstSegment := shape.segments.getD span.segmentIndex 0
      let lastSegment := shape.segments.getD (next.segmentIndex-1) 0
      shape.extent (next::spans) (min firstSegment minX, max lastSegment maxX)
  | _, result => result

def bounds (shape : Shape) : IntRect :=
  match shape.spans.head?, shape.spans.getLast? with
  | some span, some lastSpan =>
    let (minX, maxX) := shape.extent shape.spans (2147483647, -2147483648)
    ⟨minX,span.y,maxX - minX,lastSpan.y - span.y⟩
  | _, _ => ⟨0,0,0,0⟩

def translate (shape : Shape) (offset : IntSize) : Shape where
  segments := shape.segments.map (· + offset.width)
  spans := shape.spans.map fun span => { span with y := span.y + offset.height }

/-- The flag has a bit for each of the two spans that is inside. -/
def mergeSegments (op : Operation) (flag : Nat) : List Int → List Int → List Int
  | x1::s1, x2::s2 =>
    let test := x1 - x2
    let newFlag := if test ≤ 0 then flag ^^^ 1 else flag
    let newFlag := if test ≥ 0 then newFlag ^^^ 2 else newFlag
    let x := if test ≥ 0 then x2 else x1
    let rest := mergeSegments op newFlag (if test ≤ 0 then s1 else x1 :: s1) (if test ≥ 0 then s2 else x2 :: s2)
    if newFlag = op.opCode ∨ flag = op.opCode then x :: rest else rest
  | s1, s2 =>
    if op.shouldAddRemainingSegmentsFromSpan1 && s1 ≠ [] then s1
    else if op.shouldAddRemainingSegmentsFromSpan2 && s2 ≠ [] then s2
    else []
termination_by s1 s2 => s1.length + s2.length
decreasing_by
  split_ifs <;> simp only [List.length_cons] <;> omega

/-- Iterate over all spans, with both shapes' segments in the current rows. -/
def mergeSpans (op : Operation) (result : Shape) (segments1 segments2 : List Int) : List Row → List Row → Shape
  | (y1, a) :: spans1, (y2, b) :: spans2 =>
    let test := y1 - y2
    let segments1 := if test ≤ 0 then a else segments1
    let segments2 := if test ≥ 0 then b else segments2
    let y := if test ≥ 0 then y2 else y1
    let segments := mergeSegments op 0 segments1 segments2
    let result := if segments ≠ [] ∨ !result.isEmpty then result.appendSpanWith y segments else result
    mergeSpans op result segments1 segments2 (if test ≤ 0 then spans1 else (y1, a) :: spans1)
      (if test ≥ 0 then spans2 else (y2, b) :: spans2)
  | spans1, spans2 =>
    if op.shouldAddRemainingSpansFromShape1 && spans1 ≠ [] then result.appendSpans spans1
    else if op.shouldAddRemainingSpansFromShape2 && spans2 ≠ [] then result.appendSpans spans2
    else result
termination_by spans1 spans2 => spans1.length + spans2.length
decreasing_by
  split_ifs <;> simp only [List.length_cons] <;> omega

def shapeOperation (op : Operation) (shape1 shape2 : Shape) : Shape :=
  match op.trySimpleOperation shape1 shape2 with
  | some result => result
  | none => mergeSpans op empty [] [] shape1.rows shape2.rows

def unionOperation : Operation where
  trySimpleOperation shape1 shape2 := if shape1.isEmpty then some shape2 else none
  opCode := 0
  shouldAddRemainingSegmentsFromSpan1 := true
  shouldAddRemainingSegmentsFromSpan2 := true
  shouldAddRemainingSpansFromShape1 := true
  shouldAddRemainingSpansFromShape2 := true

def intersectOperation : Operation where
  trySimpleOperation _ _ := none
  opCode := 3
  shouldAddRemainingSegmentsFromSpan1 := false
  shouldAddRemainingSegmentsFromSpan2 := false
  shouldAddRemainingSpansFromShape1 := false
  shouldAddRemainingSpansFromShape2 := false

def subtractOperation : Operation where
  trySimpleOperation _ _ := none
  opCode := 1
  shouldAddRemainingSegmentsFromSpan1 := true
  shouldAddRemainingSegmentsFromSpan2 := false
  shouldAddRemainingSpansFromShape1 := true
  shouldAddRemainingSpansFromShape2 := false

/-- Compare overlapping segments of two spans; none when nothing is decided. -/
def compareSegments (op : CompareOperation) : List Int → List Int → Option Bool
  | aX::aMaxX::a, bX::bMaxX::b =>
    if bMaxX > aX ∧ bX < aMaxX ∧ op.aOverlapsB.isSome then op.aOverlapsB
    else if aX < bX ∧ op.aOutsideB.isSome then op.aOutsideB
    else if bX < aX ∧ op.bOutsideA.isSome then op.bOutsideA
    else if aMaxX < bMaxX then compareSegments op a (bX::bMaxX::b)
    else if bMaxX < aMaxX then compareSegments op (aX::aMaxX::a) b
    else compareSegments op a b
  | a, b =>
    if a ≠ [] ∧ op.aOutsideB.isSome then op.aOutsideB
    else if b ≠ [] ∧ op.bOutsideA.isSome then op.bOutsideA
    else none
termination_by a b => a.length + b.length

def compareRows (op : CompareOperation) (aHadSegmentInPreviousSpan bHadSegmentInPreviousSpan : Bool) :
    List Row → List Row → Bool
  | (aY, a) :: (aMaxY, a') :: aRows, (bY, b) :: (bMaxY, b') :: bRows =>
    if aY < bY ∧ !bHadSegmentInPreviousSpan ∧ a ≠ [] ∧ op.aOutsideB.isSome then op.aOutsideB.getD op.defaultResult
    else if bY < aY ∧ !aHadSegmentInPreviousSpan ∧ b ≠ [] ∧ op.bOutsideA.isSome then op.bOutsideA.getD op.defaultResult
    else
      let decided := if bMaxY > aY ∧ bY < aMaxY then compareSegments op a b else none
      match decided with
      | some result => result
      | none =>
        if aMaxY < bMaxY then
          compareRows op (a ≠ []) (b ≠ []) ((aMaxY, a') :: aRows) ((bY, b) :: (bMaxY, b') :: bRows)
        else if bMaxY < aMaxY then
          compareRows op (a ≠ []) (b ≠ []) ((aY, a) :: (aMaxY, a') :: aRows) ((bMaxY, b') :: bRows)
        else compareRows op (a ≠ []) (b ≠ []) ((aMaxY, a') :: aRows) ((bMaxY, b') :: bRows)
  | aRows, bRows =>
    if aRows.length ≥ 2 ∧ op.aOutsideB.isSome then op.aOutsideB.getD op.defaultResult
    else if bRows.length ≥ 2 ∧ op.bOutsideA.isSome then op.bOutsideA.getD op.defaultResult
    else op.defaultResult
termination_by aRows bRows => aRows.length + bRows.length

def compareShapes (op : CompareOperation) (aShape bShape : Shape) : Bool :=
  compareRows op false false aShape.rows bShape.rows

def compareContainsOperation : CompareOperation := ⟨true,none,some false,none⟩

end Shape

structure Region where
  bounds : IntRect
  shape : Shape

namespace Region

def ofRect (rect : IntRect) : Region := ⟨rect,.ofRect rect⟩

def isEmpty (region : Region) : Bool := region.bounds.isEmpty

def isRect (region : Region) : Bool := region.shape.isRect

def rowRects (y height : Int) : List Int → List IntRect
  | x::maxX::segments => ⟨x,y,maxX - x,height⟩ :: rowRects y height segments
  | _ => []

def rectsOf : List Row → List IntRect
  | (y, segments) :: (nextY, next) :: rows => rowRects y (nextY-y) segments ++ rectsOf ((nextY, next) :: rows)
  | _ => []

def rects (region : Region) : List IntRect := rectsOf region.shape.rows

def segmentsContain (pointX : Int) : List Int → Bool
  | x::maxX::segments =>
    if x > pointX then false else if maxX > pointX then true else segmentsContain pointX segments
  | _ => false

def rowsContain (point : IntPoint) : List Row → Bool
  | (y, segments) :: (maxY, next) :: rows =>
    if y > point.y then false
    else if maxY ≤ point.y then rowsContain point ((maxY, next) :: rows)
    else if segmentsContain point.x segments then true
    else rowsContain point ((maxY, next) :: rows)
  | _ => false

def containsPoint (region : Region) (point : IntPoint) : Bool :=
  region.bounds.containsPoint point && rowsContain point region.shape.rows

def contains (region other : Region) : Bool :=
  region.bounds.contains other.bounds && Shape.compareShapes Shape.compareContainsOperation region.shape other.shape

def intersect (region other : Region) : Region :=
  if region.bounds.isEmpty then region
  else if !region.bounds.intersects other.bounds then ⟨⟨0,0,0,0⟩,.empty⟩
  else
    let intersectedShape := Shape.shapeOperation Shape.intersectOperation region.shape other.shape
    ⟨intersectedShape.bounds,intersectedShape⟩

def unite (region other : Region) : Region :=
  if other.isEmpty then region
  else if region.isRect && region.bounds.contains other.bounds then region
  else if other.isRect && other.bounds.contains region.bounds then other
  else if !region.isRect && region.contains other then region
  else
    let unitedShape := Shape.shapeOperation Shape.unionOperation region.shape other.shape
    ⟨region.bounds.unite other.bounds,unitedShape⟩

def subtract (region other : Region) : Region :=
  if region.bounds.isEmpty then region
  else if other.isEmpty then region
  else if !region.bounds.intersects other.bounds then region
  else
    let subtractedShape := Shape.shapeOperation Shape.subtractOperation region.shape other.shape
    ⟨subtractedShape.bounds,subtractedShape⟩

def translate (region : Region) (offset : IntSize) : Region :=
  ⟨region.bounds.move offset,region.shape.translate offset⟩

end Region
end WebKit.Graphics
