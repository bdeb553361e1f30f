import WebKit.Media.MediaTimeSum

/-! What is lost when the scale of a sum is halved. It is halved twice only for the sum of the two largest values. -/
namespace WebKit.Media

open Base

section
variable {scale : Nat} {x y : Int} {sum : ℚ}

variable (hx : FitsInt64 x) (hy : FitsInt64 y) (h : ¬ FitsInt64 (x+y))
include hx hy h

end

section
variable {scale : Nat} {x y : Int} {sum : ℚ}

end

end WebKit.Media
