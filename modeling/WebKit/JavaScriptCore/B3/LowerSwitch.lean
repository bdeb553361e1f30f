import Mathlib.Algebra.Group.Nat.Defs
import Mathlib.Data.List.Sort
import WebKit.JavaScriptCore.B3.ReduceStrength

/-! The code that a B3 Switch is lowered to. The blocks that are made have one predecessor each, so that they form a tree. -/
namespace WebKit.JavaScriptCore.B3

structure SwitchCase (α : Type) where
  caseValue : Int
  target : α
  deriving DecidableEq

/-- The cases have distinct constants of the type, and a vector can hold them. -/
structure SwitchValue (type : IntType) (α : Type) where
  cases : List (SwitchCase α)
  fallThrough : α
  fits : ∀ c ∈ cases, type.Fits c.caseValue
  nodup : (cases.map SwitchCase.caseValue).Nodup
  /-- A vector has at most 2 ^ 32 - 1 bytes, and a case takes 24. -/
  size_le : cases.length ≤ (2^32-1)/24

def switchTarget {α : Type} (cases : List (SwitchCase α)) (fallThrough : α) (x : Int) : α :=
  ((cases.find? fun c => c.caseValue = x).map SwitchCase.target).getD fallThrough

/-- The blocks that are made for a Switch. -/
inductive SwitchCode (α : Type) where
  | jump (target : α)
  | branchEqual (value : Int) (target : α) (nextCheck : SwitchCode α)
  | branchLessThan (value : Int) (left right : SwitchCode α)
  | branchAbove (firstValue bound : Int) (fallThrough : α) (jumpTable : Nat → Option α)

/-- Where the code goes. None if there is no code, as there is no memory for its table, or it jumps through memory that holds no
target. -/
def SwitchCode.run {α : Type} {w : Nat} (x : BitVec w) : SwitchCode α → Option α
  | jump target => some target
  | branchEqual value target nextCheck => if x = .ofInt w value then some target else nextCheck.run x
  | branchLessThan value left right => if x.slt (.ofInt w value) then left.run x else right.run x
  | branchAbove firstValue bound fallThrough jumpTable =>
    let index := x - .ofInt w firstValue
    if (BitVec.ofInt w bound).ult index then some fallThrough else jumpTable index.toNat

section
variable {α : Type} (cases : List (SwitchCase α)) (fallThrough : α)

def caseValueAt (i : Nat) : Int := ((cases.map SwitchCase.caseValue)[i]?).getD 0

def casesBetween (start stop : Nat) : List (SwitchCase α) := (cases.drop start).take (stop-start)

def minCasesForTable : Nat := 7

def densityLimit : Int := 4

def leafThreshold : Nat := 3

def int64 (x : Int) : Int := x.bmod (2^64)

def sizeOf64 (x : Int) : Nat := (x%2^64).toNat

/-- The elements of a set of bits, in the order of its iterator. -/
def setBit (bits : List Nat) (index : Nat) : List Nat := if index ∈ bits then bits else bits.orderedInsert (· ≤ ·) index

/-- The table as it is linked. A data section is zero at first. -/
def jumpTable (handled : List (SwitchCase α)) (firstValue : Int) (tableSize : Nat) (index : Nat) : Option α :=
  let handledIndices := handled.foldl (fun bits c => setBit bits (sizeOf64 (c.caseValue-firstValue))) []
  let hasUnhandledIndex := (List.range tableSize).any (· ∉ handledIndices)
  let dataSectionSize := 8*tableSize%2^64
  if index < dataSectionSize/8 then
    match (handledIndices.zip (handled.map SwitchCase.target)).lookup index with
    | some target => some target
    -- The counter of the loop that fills the table has 32 bits.
    | none => if hasUnhandledIndex ∧ index < tableSize%2^32 then some fallThrough else none
  else none

def allConsecutive (start : Nat) (hardStart : Bool) (stop : Nat) : Bool :=
  (hardStart || (start ≠ 0 && caseValueAt cases (start-1) = caseValueAt cases start - 1)) && stop < cases.length &&
    caseValueAt cases (stop-1) = caseValueAt cases stop - 1 &&
    (List.range (stop-start-1)).all fun i => caseValueAt cases (start+i) + 1 = caseValueAt cases (start+i+1)

/-- The checks of a few cases, one after the other. -/
def leaf (start : Nat) (hardStart : Bool) (stop : Nat) : SwitchCode α :=
  let consecutive := allConsecutive cases start hardStart stop
  let limit := if consecutive then stop - start - 1 else stop - start
  let last := if consecutive then ((cases[stop - 1]?).map SwitchCase.target).getD fallThrough else fallThrough
  (casesBetween cases start (start+limit)).foldr (fun c nextCheck => .branchEqual c.caseValue c.target nextCheck) (.jump last)

def recursivelyBuildSwitch (start : Nat) (hardStart : Bool) (stop : Nat) : SwitchCode α :=
  let firstValue := caseValueAt cases start
  let lastValue := caseValueAt cases (stop-1)
  if stop - start ≥ minCasesForTable ∧ (int64 (lastValue-firstValue+1)).tdiv (stop - start : Nat) < densityLimit then
    .branchAbove firstValue (lastValue-firstValue) fallThrough
      (jumpTable fallThrough (casesBetween cases start stop) firstValue (sizeOf64 (lastValue-firstValue+1)))
  else if stop - start ≤ leafThreshold then leaf cases fallThrough start hardStart stop
  else
    let medianIndex := (start+stop)/2
    .branchLessThan (caseValueAt cases medianIndex) (recursivelyBuildSwitch start hardStart medianIndex)
      (recursivelyBuildSwitch medianIndex true stop)
termination_by stop - start
decreasing_by
  all_goals
    simp only [leafThreshold] at *
    omega

end

def lowerSwitch {type : IntType} {α : Type} (value : SwitchValue type α) : SwitchCode α :=
  let cases := value.cases.insertionSort fun left right => left.caseValue ≤ right.caseValue
  recursivelyBuildSwitch cases value.fallThrough 0 false cases.length

end WebKit.JavaScriptCore.B3
