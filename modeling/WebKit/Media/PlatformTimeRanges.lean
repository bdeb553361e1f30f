import Mathlib.Order.BoundedOrder.Basic
import Mathlib.Order.MinMax

/-! Sets of instants as lists of half-open ranges of time. -/
namespace WebKit.Media

/-- The instants from start on and before stop. -/
structure Range (T : Type*) where
  start : T
  stop : T
  deriving DecidableEq

section
variable {T : Type*} [LinearOrder T]

namespace Range

def isPointInRange (range : Range T) (point : T) : Bool := range.start ≤ point && point < range.stop

def isOverlappingRange (range other : Range T) : Bool :=
  range.isPointInRange other.start || range.isPointInRange other.stop || other.isPointInRange range.start

def isContiguousWithRange (range other : Range T) : Bool := other.start = range.stop || other.stop = range.start

def unionWithOverlappingOrContiguousRange (range other : Range T) : Range T :=
  ⟨min range.start other.start,max range.stop other.stop⟩

def isBeforeRange (range other : Range T) : Bool := other.start ≥ range.stop

end Range

structure PlatformTimeRanges (T : Type*) where
  ranges : List (Range T)
  deriving DecidableEq

namespace PlatformTimeRanges

def empty : PlatformTimeRanges T := ⟨[]⟩

/-- Merge the added range with those from an index on, after those it has passed, and insert it. -/
def addFrom (passed : List (Range T)) (addedRange : Range T) : List (Range T) → List (Range T)
  | [] => passed ++ [addedRange]
  | range::rest =>
    if addedRange.isOverlappingRange range || addedRange.isContiguousWithRange range then
      addFrom passed (addedRange.unionWithOverlappingOrContiguousRange range) rest
    else
      let noMoreToDo := match passed.getLast? with
        | none => addedRange.isBeforeRange range
        | some previous => previous.isBeforeRange addedRange && addedRange.isBeforeRange range
      if noMoreToDo then passed ++ addedRange :: range :: rest else addFrom (passed ++ [range]) addedRange rest

def add (timeRanges : PlatformTimeRanges T) (start stop : T) : PlatformTimeRanges T :=
  ⟨addFrom [] ⟨start,stop⟩ timeRanges.ranges⟩

def unionWith (timeRanges other : PlatformTimeRanges T) : PlatformTimeRanges T :=
  other.ranges.foldl (fun unioned range => unioned.add range.start range.stop) timeRanges

/-- The ranges between the end of each range and the start of the next one. -/
def gaps : List (Range T) → List (Range T)
  | range::next::rest => ⟨range.stop,next.start⟩ :: gaps (next::rest)
  | _ => []

variable [BoundedOrder T]

def invert (timeRanges : PlatformTimeRanges T) : PlatformTimeRanges T :=
  match timeRanges.ranges.head?, timeRanges.ranges.getLast? with
  | some first, some last =>
    let inverted : PlatformTimeRanges T := if first.start ≠ ⊥ then empty.add ⊥ first.start else empty
    let inverted := (gaps timeRanges.ranges).foldl (fun inverted gap => inverted.add gap.start gap.stop) inverted
    if last.stop ≠ ⊤ then inverted.add last.stop ⊤ else inverted
  | _, _ => empty.add ⊥ ⊤

def intersectWith (timeRanges other : PlatformTimeRanges T) : PlatformTimeRanges T :=
  (timeRanges.invert.unionWith other.invert).invert

end PlatformTimeRanges
end
end WebKit.Media
