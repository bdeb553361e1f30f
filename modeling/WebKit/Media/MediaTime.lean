import Mathlib.Init

/-! Media times: a 64-bit value over a 32-bit scale, an infinity, or a double in place of the value. -/
namespace WebKit.Media

structure TimeFlags where
  valid : Bool
  hasBeenRounded : Bool
  positiveInfinite : Bool
  negativeInfinite : Bool
  indefinite : Bool
  doubleValue : Bool
  deriving DecidableEq

namespace TimeFlags

def none : TimeFlags := ⟨false,false,false,false,false,false⟩

def and (flags other : TimeFlags) : TimeFlags where
  valid := flags.valid && other.valid
  hasBeenRounded := flags.hasBeenRounded && other.hasBeenRounded
  positiveInfinite := flags.positiveInfinite && other.positiveInfinite
  negativeInfinite := flags.negativeInfinite && other.negativeInfinite
  indefinite := flags.indefinite && other.indefinite
  doubleValue := flags.doubleValue && other.doubleValue

def or (flags other : TimeFlags) : TimeFlags where
  valid := flags.valid || other.valid
  hasBeenRounded := flags.hasBeenRounded || other.hasBeenRounded
  positiveInfinite := flags.positiveInfinite || other.positiveInfinite
  negativeInfinite := flags.negativeInfinite || other.negativeInfinite
  indefinite := flags.indefinite || other.indefinite
  doubleValue := flags.doubleValue || other.doubleValue

end TimeFlags

structure MediaTime where
  timeValue : Int64
  timeScale : UInt32
  timeFlags : TimeFlags
  deriving DecidableEq

inductive ComparisonFlags where
  | lessThan
  | equalTo
  | greaterThan
  deriving DecidableEq

inductive RoundingFlags where
  | halfAwayFromZero
  | towardZero
  | awayFromZero
  | towardPositiveInfinity
  | towardNegativeInfinity

def FitsInt64 (x : Int) : Prop := -9223372036854775808 ≤ x ∧ x ≤ 9223372036854775807

instance (x : Int) : Decidable (FitsInt64 x) := inferInstanceAs (Decidable (_ ∧ _))

def safeAdd (lhs rhs : Int64) : Option Int64 := if FitsInt64 (lhs.toInt+rhs.toInt) then some (lhs+rhs) else none

def safeSub (lhs rhs : Int64) : Option Int64 := if FitsInt64 (lhs.toInt-rhs.toInt) then some (lhs-rhs) else none

def safeMultiply (lhs rhs : Int64) : Option Int64 := if FitsInt64 (lhs.toInt*rhs.toInt) then some (lhs*rhs) else none

/-- A 32-bit number as a 64-bit one. -/
def wide (x : UInt32) : Int64 := .ofNat x.toNat

def greatestCommonDivisor (a b : UInt32) : UInt32 :=
  if b = 0 then a else greatestCommonDivisor b (a%b)
termination_by b.toNat
decreasing_by
  rw [UInt32.toNat_mod]
  exact Nat.mod_lt _ (Nat.pos_of_ne_zero fun h => ‹¬ b = 0› (UInt32.toNat_inj.1 h))

def leastCommonMultiple (a b : UInt32) : Option UInt32 :=
  let factor := b/greatestCommonDivisor a b
  if a.toNat*factor.toNat < 4294967296 then some (a*factor) else none

namespace MediaTime

def defaultTimeScale : UInt32 := 10000000

def maximumTimeScale : UInt32 := 1000000000

def isValid (time : MediaTime) : Bool := time.timeFlags.valid

def isInvalid (time : MediaTime) : Bool := !time.isValid

def isPositiveInfinite (time : MediaTime) : Bool := time.timeFlags.positiveInfinite

def isNegativeInfinite (time : MediaTime) : Bool := time.timeFlags.negativeInfinite

def isIndefinite (time : MediaTime) : Bool := time.timeFlags.indefinite

def hasDoubleValue (time : MediaTime) : Bool := time.timeFlags.doubleValue

def invalidTime : MediaTime := ⟨-1,1,.none⟩

def positiveInfiniteTime : MediaTime := ⟨0,1,{ TimeFlags.none with valid := true, positiveInfinite := true }⟩

def negativeInfiniteTime : MediaTime := ⟨-1,1,{ TimeFlags.none with valid := true, negativeInfinite := true }⟩

def indefiniteTime : MediaTime := ⟨0,1,{ TimeFlags.none with valid := true, indefinite := true }⟩

/-- A time without a scale is infinite. -/
def create (value : Int64) (scale : UInt32) (flags : TimeFlags) : MediaTime :=
  if scale ≠ 0 || !flags.valid then ⟨value,scale,flags⟩
  else if value < 0 then negativeInfiniteTime
  else positiveInfiniteTime

/-- The double stored in place of the value. -/
def timeValueAsDouble (time : MediaTime) : Float := .ofBits time.timeValue.toUInt64

def signbit (doubleTime : Float) : Bool := doubleTime.toBits >>> 63 = 1

def createWithDouble (doubleTime : Float) : MediaTime :=
  if doubleTime.isNaN then invalidTime
  else if doubleTime.isInf then if signbit doubleTime then negativeInfiniteTime else positiveInfiniteTime
  else ⟨doubleTime.toBits.toInt64,defaultTimeScale,{ TimeFlags.none with valid := true, doubleValue := true }⟩

/-- Halve the scale until the value fits, as it does with the scale 0. -/
def fittingTimeScale (doubleTime : Float) (timeScale : Nat) : Nat :=
  if timeScale ≠ 0 && doubleTime*.ofNat timeScale > .ofInt 9223372036854775807 then
    fittingTimeScale doubleTime (timeScale/2)
  else timeScale
termination_by timeScale
decreasing_by
  rename_i h
  simp only [ne_eq,Bool.and_eq_true,decide_eq_true_eq] at h
  omega

def createWithDoubleAt (doubleTime : Float) (timeScale : UInt32) : MediaTime :=
  let infinite := if signbit doubleTime then negativeInfiniteTime else positiveInfiniteTime
  if doubleTime.isNaN then invalidTime
  else if doubleTime.isInf then infinite
  else if doubleTime > .ofInt 9223372036854775807 then positiveInfiniteTime
  else if doubleTime < .ofInt (-9223372036854775808) then negativeInfiniteTime
  else if timeScale = 0 then infinite
  else
    let timeScale := fittingTimeScale doubleTime timeScale.toNat
    create (doubleTime*.ofNat timeScale).round.toInt64 (.ofNat timeScale) { TimeFlags.none with valid := true }

/-- The time of a valid, definite and finite one. -/
def toDouble (time : MediaTime) : Float :=
  if time.hasDoubleValue then time.timeValueAsDouble
  else .ofInt time.timeValue.toInt/.ofNat time.timeScale.toNat

/-- The value is rounded by one, as a machine integer. -/
def round (time : MediaTime) (remainder : Int) (oldTimeScale : UInt32) : RoundingFlags → MediaTime
  | .halfAwayFromZero =>
    if remainder.natAbs*2 ≥ oldTimeScale.toNat then
      if remainder < 0 then { time with timeValue := time.timeValue - 1 } else { time with timeValue := time.timeValue + 1 }
    else time
  | .towardZero => time
  | .awayFromZero =>
    if remainder < 0 then { time with timeValue := time.timeValue - 1 } else { time with timeValue := time.timeValue + 1 }
  | .towardPositiveInfinity => if remainder > 0 then { time with timeValue := time.timeValue + 1 } else time
  | .towardNegativeInfinity => if remainder < 0 then { time with timeValue := time.timeValue - 1 } else time

/-- The product of the value and the new scale is a 128-bit one. -/
def setTimeScale (time : MediaTime) (timeScale : UInt32) (flags : RoundingFlags) : MediaTime :=
  if time.hasDoubleValue then createWithDoubleAt time.timeValueAsDouble timeScale
  else if timeScale = 0 then if time.timeValue < 0 then negativeInfiniteTime else positiveInfiniteTime
  else if timeScale = time.timeScale then time
  else
    let timeScale := if maximumTimeScale ≤ timeScale then maximumTimeScale else timeScale
    let product := time.timeValue.toInt*timeScale.toNat
    let remainder := product.tmod time.timeScale.toNat
    let newValue := product.tdiv time.timeScale.toNat
    if newValue < -9223372036854775808 then negativeInfiniteTime
    else if newValue > 9223372036854775807 then positiveInfiniteTime
    else
      let result := { time with timeValue := .ofInt newValue, timeScale }
      if remainder = 0 then result
      else { result with timeFlags := { result.timeFlags with hasBeenRounded := true } }.round remainder time.timeScale flags

/-- Add or subtract at the common scale, which is halved while the result does not fit. It is never 0. -/
def combineAt (operation : Int64 → Int64 → Option Int64) (commonTimeScale : UInt32) (a b : MediaTime) : MediaTime :=
  match operation a.timeValue b.timeValue with
  | some timeValue => { a with timeValue }
  | none =>
    if commonTimeScale ≤ 1 then if a.timeValue > 0 then positiveInfiniteTime else negativeInfiniteTime
    else combineAt operation (commonTimeScale/2) (a.setTimeScale (commonTimeScale/2) .halfAwayFromZero)
      (b.setTimeScale (commonTimeScale/2) .halfAwayFromZero)
termination_by commonTimeScale.toNat
decreasing_by
  rename_i h
  rw [UInt32.le_iff_toNat_le] at h
  simp only [UInt32.toNat_div,UInt32.reduceToNat] at h ⊢
  omega

def commonTimeScale (a b : MediaTime) : UInt32 :=
  match leastCommonMultiple a.timeScale b.timeScale with
  | some commonTimeScale => if commonTimeScale > maximumTimeScale then maximumTimeScale else commonTimeScale
  | none => maximumTimeScale

def combine (operation : Int64 → Int64 → Option Int64) (a b : MediaTime) : MediaTime :=
  let commonTimeScale := commonTimeScale a b
  combineAt operation commonTimeScale (a.setTimeScale commonTimeScale .halfAwayFromZero)
    (b.setTimeScale commonTimeScale .halfAwayFromZero)

def add (time rhs : MediaTime) : MediaTime :=
  if rhs.isInvalid || time.isInvalid then invalidTime
  else if rhs.isIndefinite || time.isIndefinite then indefiniteTime
  else if time.isPositiveInfinite && rhs.isNegativeInfinite then invalidTime
  else if time.isNegativeInfinite && rhs.isPositiveInfinite then invalidTime
  else if time.isPositiveInfinite || rhs.isPositiveInfinite then positiveInfiniteTime
  else if time.isNegativeInfinite || rhs.isNegativeInfinite then negativeInfiniteTime
  else if time.hasDoubleValue && rhs.hasDoubleValue then createWithDouble (time.timeValueAsDouble+rhs.timeValueAsDouble)
  else if time.hasDoubleValue || rhs.hasDoubleValue then createWithDouble (time.toDouble+rhs.toDouble)
  else combine safeAdd time rhs

def sub (time rhs : MediaTime) : MediaTime :=
  if rhs.isInvalid || time.isInvalid then invalidTime
  else if rhs.isIndefinite || time.isIndefinite then indefiniteTime
  else if time.isPositiveInfinite && rhs.isPositiveInfinite then invalidTime
  else if time.isNegativeInfinite && rhs.isNegativeInfinite then invalidTime
  else if time.isPositiveInfinite || rhs.isNegativeInfinite then positiveInfiniteTime
  else if time.isNegativeInfinite || rhs.isPositiveInfinite then negativeInfiniteTime
  else if time.hasDoubleValue && rhs.hasDoubleValue then createWithDouble (time.timeValueAsDouble-rhs.timeValueAsDouble)
  else if time.hasDoubleValue || rhs.hasDoubleValue then createWithDouble (time.toDouble-rhs.toDouble)
  else combine safeSub time rhs

def neg (time : MediaTime) : MediaTime :=
  if time.isInvalid then invalidTime
  else if time.isIndefinite then indefiniteTime
  else if time.isPositiveInfinite then negativeInfiniteTime
  else if time.isNegativeInfinite then positiveInfiniteTime
  else if time.hasDoubleValue then { time with timeValue := (-time.timeValueAsDouble).toBits.toInt64 }
  else { time with timeValue := -time.timeValue }

/-- By cross multiplication or, when a product does not fit, by whole parts and remainders. -/
def compareProducts (time rhs : MediaTime) : ComparisonFlags :=
  match safeMultiply time.timeValue (wide rhs.timeScale), safeMultiply rhs.timeValue (wide time.timeScale) with
  | some lhsFactor, some rhsFactor =>
    if lhsFactor = rhsFactor then .equalTo else if lhsFactor < rhsFactor then .lessThan else .greaterThan
  | _, _ =>
    let rhsWhole := rhs.timeValue/wide rhs.timeScale
    let lhsWhole := time.timeValue/wide time.timeScale
    if lhsWhole > rhsWhole then .greaterThan
    else if lhsWhole < rhsWhole then .lessThan
    else
      let rhsRemain := rhs.timeValue%wide rhs.timeScale
      let lhsRemain := time.timeValue%wide time.timeScale
      let lhsFactor := lhsRemain*wide rhs.timeScale
      let rhsFactor := rhsRemain*wide time.timeScale
      if lhsFactor = rhsFactor then .equalTo else if lhsFactor > rhsFactor then .greaterThan else .lessThan

def compareRational (time rhs : MediaTime) : ComparisonFlags :=
  if decide (time.timeValue < 0) ≠ decide (rhs.timeValue < 0) then
    if time.timeValue < 0 then .lessThan else .greaterThan
  else if time.timeValue = 0 ∧ rhs.timeValue = 0 then .equalTo
  else if time.timeScale = rhs.timeScale then
    if time.timeValue = rhs.timeValue then .equalTo
    else if time.timeValue < rhs.timeValue then .lessThan
    else .greaterThan
  else if time.timeValue = rhs.timeValue then if time.timeScale < rhs.timeScale then .greaterThan else .lessThan
  else if time.timeValue ≥ 0 ∧ time.timeValue < rhs.timeValue ∧ time.timeScale > rhs.timeScale then .lessThan
  else if time.timeValue ≥ 0 ∧ time.timeValue > rhs.timeValue ∧ time.timeScale < rhs.timeScale then .greaterThan
  else if time.timeValue < 0 ∧ time.timeValue < rhs.timeValue ∧ time.timeScale < rhs.timeScale then .lessThan
  else if time.timeValue < 0 ∧ time.timeValue > rhs.timeValue ∧ time.timeScale > rhs.timeScale then .greaterThan
  else time.compareProducts rhs

def compare (time rhs : MediaTime) : ComparisonFlags :=
  let andFlags := time.timeFlags.and rhs.timeFlags
  let orFlags := time.timeFlags.or rhs.timeFlags
  if andFlags.positiveInfinite || andFlags.negativeInfinite || andFlags.indefinite then .equalTo
  else if !orFlags.valid then .equalTo
  else if !andFlags.valid then if time.isInvalid then .greaterThan else .lessThan
  else if orFlags.negativeInfinite then if time.isNegativeInfinite then .lessThan else .greaterThan
  else if orFlags.positiveInfinite then if time.isPositiveInfinite then .greaterThan else .lessThan
  else if orFlags.indefinite then if time.isIndefinite then .greaterThan else .lessThan
  else if andFlags.doubleValue then
    if time.timeValueAsDouble == rhs.timeValueAsDouble then .equalTo
    else if time.timeValueAsDouble < rhs.timeValueAsDouble then .lessThan
    else .greaterThan
  else if orFlags.doubleValue then
    if time.toDouble > rhs.toDouble then .greaterThan
    else if time.toDouble < rhs.toDouble then .lessThan
    else .equalTo
  else time.compareRational rhs

end MediaTime
end WebKit.Media
