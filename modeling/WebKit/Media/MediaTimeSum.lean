import WebKit.Media.MediaTimeScale

/-! Sums of media times: what the addition at a scale that is halved until the sum fits computes. -/
namespace WebKit.Media

open Base Nat

/-- What a time denotes, if it is not invalid, indefinite or a double. -/
inductive ExactTime where
  | finite (time : ℚ)
  | positiveInfinite
  | negativeInfinite
  | undefined

/-- A sum at a scale, or an infinite one. -/
inductive ScaledSum where
  | finite (value : Int) (scale : Nat)
  | infinite (positive : Bool)

section
variable {scale : Nat} {x y : Int}

end

/-- The operation adds a machine integer that has been given a sign. -/
structure Combines (operation : Int64 → Int64 → Option Int64) (signed : Int → Int) : Prop where
  eq : ∀ x y : Int64, operation x y =
    if FitsInt64 (x.toInt+signed y.toInt) then some (.ofInt (x.toInt+signed y.toInt)) else none
  round : ∀ {n : Int} {d : Nat}, 0 < d → roundDiv (signed n) d = signed (roundDiv n d)
  mul : ∀ x k : Int, signed (x*k) = signed x*k
  sign : (∀ x, signed x = x) ∨ ∀ x, signed x = -x

namespace MediaTime

/-- The time is the sum, of the given kind if it is finite. -/
def Represents (kind : TimeFlags) (time : MediaTime) : ScaledSum → Prop
  | .finite value scale => time.timeValue.toInt = value ∧ time.timeScale.toNat = scale ∧ time.kind = kind
  | .infinite positive => time = if positive then positiveInfiniteTime else negativeInfiniteTime

section
variable {time : MediaTime} {scale : UInt32}

theorem toInt_ofInt_of_fits {x : Int} (h : FitsInt64 x) : (Int64.ofInt x).toInt = x := by
  rw [FitsInt64] at h
  exact Int64.toInt_ofInt_of_le (by omega) (by omega)

end
end MediaTime
end WebKit.Media
