import Mathlib.Algebra.Group.Int.Defs

/-! The integer ranges of B3 values, and the overflow checks that are removed because of them. -/
namespace WebKit.JavaScriptCore.B3

inductive IntType where
  | int32
  | int64
  deriving DecidableEq

namespace IntType

def width : IntType → Nat
  | int32 => 32
  | int64 => 64

/-- Above the largest number of the type. -/
def bound (type : IntType) : Int := 2^(type.width-1)

/-- The integer is one of the type. -/
def Fits (type : IntType) (x : Int) : Prop := -type.bound ≤ x ∧ x < type.bound

instance (type : IntType) (x : Int) : Decidable (type.Fits x) := inferInstanceAs (Decidable (_ ∧ _))

/-- What a processor makes of a shift amount. -/
def shiftCount (type : IntType) (shiftAmount : BitVec 32) : Nat := shiftAmount.toNat%type.width

end IntType

structure IntRange where
  min : Int
  max : Int
  deriving DecidableEq

namespace IntRange

def top (type : IntType) : IntRange := ⟨-type.bound,type.bound - 1⟩

def rangeForMask {type : IntType} (mask : BitVec type.width) : IntRange :=
  if mask + 1 = 0 then top type else ⟨0,mask.toInt⟩

def rangeForZShr (type : IntType) (shiftAmount : BitVec 32) : IntRange :=
  rangeForMask (BitVec.allOnes type.width >>> type.shiftCount shiftAmount)

def sumOverflows (type : IntType) (x y : Int) : Bool := !(type.Fits x && type.Fits y && type.Fits (x+y))

def differenceOverflows (type : IntType) (x y : Int) : Bool := !(type.Fits x && type.Fits y && type.Fits (x-y))

def productOverflows (type : IntType) (x y : Int) : Bool := !(type.Fits x && type.Fits y && type.Fits (x*y))

/-- The check is made at the ends of the ranges. -/
def couldOverflow (overflows : Int → Int → Bool) (range other : IntRange) : Bool :=
  overflows range.min other.min || overflows range.min other.max || overflows range.max other.min ||
    overflows range.max other.max

def couldOverflowAdd (type : IntType) (range other : IntRange) : Bool := couldOverflow (sumOverflows type) range other

def couldOverflowSub (type : IntType) (range other : IntRange) : Bool := couldOverflow (differenceOverflows type) range other

def couldOverflowMul (type : IntType) (range other : IntRange) : Bool := couldOverflow (productOverflows type) range other

/-- The end of a range shifted to the left, and whether it comes back. -/
def shiftEnd (type : IntType) (x : Int) (shiftAmount : BitVec 32) : Int × Bool :=
  let shifted := BitVec.ofInt type.width x <<< type.shiftCount shiftAmount
  (shifted.toInt, shifted.sshiftRight (type.shiftCount shiftAmount) = BitVec.ofInt type.width x)

def shl (type : IntType) (range : IntRange) (shiftAmount : BitVec 32) : IntRange :=
  let (newMin, minFits) := shiftEnd type range.min shiftAmount
  let (newMax, maxFits) := shiftEnd type range.max shiftAmount
  ⟨if minFits then newMin else -type.bound,if maxFits then newMax else type.bound - 1⟩

def sShr (type : IntType) (range : IntRange) (shiftAmount : BitVec 32) : IntRange :=
  ⟨((BitVec.ofInt type.width range.min).sshiftRight (type.shiftCount shiftAmount)).toInt,
    ((BitVec.ofInt type.width range.max).sshiftRight (type.shiftCount shiftAmount)).toInt⟩

def zShr (type : IntType) (range : IntRange) (shiftAmount : BitVec 32) : IntRange :=
  if shiftAmount = 0 then range
  else if range.min < 0 then rangeForZShr type shiftAmount
  else
    ⟨(BitVec.ofInt type.width range.min >>> type.shiftCount shiftAmount).toNat,
      (BitVec.ofInt type.width range.max >>> type.shiftCount shiftAmount).toNat⟩

def add (type : IntType) (range other : IntRange) : IntRange :=
  if couldOverflowAdd type range other then top type else ⟨range.min + other.min,range.max + other.max⟩

def sub (type : IntType) (range other : IntRange) : IntRange :=
  if couldOverflowSub type range other then top type else ⟨range.min - other.max,range.max - other.min⟩

def mul (type : IntType) (range other : IntRange) : IntRange :=
  if couldOverflowMul type range other then top type
  else
    ⟨Min.min (Min.min (range.min*other.min) (range.min*other.max)) (Min.min (range.max*other.min) (range.max*other.max)),
      Max.max (Max.max (range.min*other.min) (range.min*other.max))
        (Max.max (range.max*other.min) (range.max*other.max))⟩

end IntRange

/-- The values of which the ranges are known. Any other one is a leaf. -/
inductive Value : IntType → Type where
  | leaf {type : IntType} (index : Nat) : Value type
  | const {type : IntType} (value : BitVec type.width) : Value type
  | bitAnd {type : IntType} (left right : Value type) : Value type
  | sShr {type : IntType} (left : Value type) (right : Value .int32) : Value type
  | zShr {type : IntType} (left : Value type) (right : Value .int32) : Value type
  | shl {type : IntType} (left : Value type) (right : Value .int32) : Value type
  | add {type : IntType} (left right : Value type) : Value type
  | sub {type : IntType} (left right : Value type) : Value type
  | mul {type : IntType} (left right : Value type) : Value type

namespace Value

/-- The value at run time, modulo the width. -/
def eval (leaves : (type : IntType) → Nat → BitVec type.width) : {type : IntType} → Value type → BitVec type.width
  | type, leaf index => leaves type index
  | _, const value => value
  | _, bitAnd left right => left.eval leaves &&& right.eval leaves
  | type, sShr left right => (left.eval leaves).sshiftRight (type.shiftCount (right.eval leaves))
  | type, zShr left right => left.eval leaves >>> type.shiftCount (right.eval leaves)
  | type, shl left right => left.eval leaves <<< type.shiftCount (right.eval leaves)
  | _, add left right => left.eval leaves + right.eval leaves
  | _, sub left right => left.eval leaves - right.eval leaves
  | _, mul left right => left.eval leaves*right.eval leaves

def rangeFor : {type : IntType} → Value type → (timeToLive : Nat) → IntRange
  | type, _, 0 => .top type
  | _, const value, _ + 1 => ⟨value.toInt,value.toInt⟩
  | _, bitAnd _ (const mask), _ + 1 => .rangeForMask mask
  | type, sShr left (const shiftAmount), timeToLive + 1 => (left.rangeFor timeToLive).sShr type shiftAmount
  | type, zShr left (const shiftAmount), timeToLive + 1 => (left.rangeFor timeToLive).zShr type shiftAmount
  | type, shl left (const shiftAmount), timeToLive + 1 => (left.rangeFor timeToLive).shl type shiftAmount
  | type, add left right, timeToLive + 1 => (left.rangeFor timeToLive).add type (right.rangeFor timeToLive)
  | type, sub left right, timeToLive + 1 => (left.rangeFor timeToLive).sub type (right.rangeFor timeToLive)
  | type, mul left right, timeToLive + 1 => (left.rangeFor timeToLive).mul type (right.rangeFor timeToLive)
  | type, _, _ => .top type

def asInt? {type : IntType} : Value type → Option (BitVec type.width)
  | const value => some value
  | _ => none

end Value

inductive CheckOpcode where
  | checkAdd
  | checkSub
  | checkMul
  deriving DecidableEq

namespace CheckOpcode

def operation : CheckOpcode → Int → Int → Int
  | checkAdd => (· + ·)
  | checkSub => (· - ·)
  | checkMul => (· * ·)

def couldOverflow : CheckOpcode → IntType → IntRange → IntRange → Bool
  | checkAdd => IntRange.couldOverflowAdd
  | checkSub => IntRange.couldOverflowSub
  | checkMul => IntRange.couldOverflowMul

end CheckOpcode

/-- A checked operation after a reduction. -/
inductive Reduced (type : IntType) where
  | constant (value : BitVec type.width)
  | identity (value : Value type)
  | unchecked (opcode : CheckOpcode) (left right : Value type)
  | check (opcode : CheckOpcode) (left right : Value type)

section
variable {type : IntType}

/-- Fold a checked operation on two constants that does not overflow. -/
def checkConstant (opcode : CheckOpcode) (left right : Value type) : Option (BitVec type.width) :=
  match left.asInt?, right.asInt? with
  | some x, some y =>
    if type.Fits (opcode.operation x.toInt y.toInt) then some (.ofInt _ (opcode.operation x.toInt y.toInt)) else none
  | _, _ => none

/-- Swapped if only the left operand is a constant, or none is and the left one has the greater index. -/
def shouldSwapBinaryOperands (leftIsGreater : Bool) (left right : Value type) : Bool :=
  if right.asInt?.isSome then false else if left.asInt?.isSome then true else leftIsGreater

def handleCommutativity (leftIsGreater : Bool) (left right : Value type) : Value type × Value type :=
  if shouldSwapBinaryOperands leftIsGreater left right then (right, left) else (left, right)

/-- Drop the check if the ranges of the operands show that it cannot fail. -/
def reduceByRange (opcode : CheckOpcode) (left right : Value type) : Reduced type :=
  if opcode.couldOverflow type (left.rangeFor 5) (right.rangeFor 5) then .check opcode left right
  else .unchecked opcode left right

def reduceCheckAdd (leftIsGreater : Bool) (left right : Value type) : Reduced type :=
  match checkConstant .checkAdd left right with
  | some value => .constant value
  | none =>
    let (left, right) := handleCommutativity leftIsGreater left right
    if right.asInt? = some 0 then .identity left else reduceByRange .checkAdd left right

def checkNegConstant (value : BitVec type.width) : Option (BitVec type.width) := if value = -value then none else some (-value)

def reduceCheckSub (left right : Value type) : Reduced type :=
  match checkConstant .checkSub left right with
  | some value => .constant value
  | none =>
    if right.asInt? = some 0 then .identity left
    else
      match right.asInt?.bind checkNegConstant with
      | some negatedConstant => .check .checkAdd left (.const negatedConstant)
      | none => reduceByRange .checkSub left right

def reduceCheckMul (leftIsGreater : Bool) (left right : Value type) : Reduced type :=
  match checkConstant .checkMul left right with
  | some value => .constant value
  | none =>
    let (left, right) := handleCommutativity leftIsGreater left right
    if right.asInt? = some 0 then .constant 0
    else if right.asInt? = some 1 then .identity left
    else if right.asInt? = some 2 then .check .checkAdd left left
    else reduceByRange .checkMul left right

def reduceCheck (leftIsGreater : Bool) : CheckOpcode → Value type → Value type → Reduced type
  | .checkAdd => reduceCheckAdd leftIsGreater
  | .checkSub => reduceCheckSub
  | .checkMul => reduceCheckMul leftIsGreater

end
end WebKit.JavaScriptCore.B3
