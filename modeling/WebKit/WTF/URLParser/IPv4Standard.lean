import Mathlib.Data.List.Infix
import WebKit.WTF.URLParser.IPv4Host

/-! The IPv4 numbers and hosts of the URL Standard, and how the parser of a piece reads a part of a host. -/
namespace WebKit.WTF.URLParser
open List Option Nat

/-- Decimal, octal after a zero, or hexadecimal after a zero and an x. -/
def number : List Nat → Option Nat
  | [] => none
  | [c] => digits 10 0 [c]
  | c::d::rest =>
    if c = 0x30 then if d = 0x78 ∨ d = 0x58 then digits 16 0 rest else digits 8 0 (d::rest) else digits 10 0 (c::d::rest)

/-- The last number fills the bytes that are left. -/
def address (numbers : List Nat) : Nat :=
  (numbers.dropLast.zipIdx.map (fun (n, i) => n*256^(3-i))).sum + numbers.getLastD 0

/-- No beginning of a part is a number of 2^32 or more. -/
def Fits (part : List Nat) : Prop := ∀ first ∈ part.inits, ∀ value ∈ number first, value < 2^32

instance (part : List Nat) : Decidable (Fits part) :=
  inferInstanceAs (Decidable (∀ first ∈ part.inits, ∀ value ∈ number first, value < 2^32))

section Digits
variable {base value : Nat} {part tail : List Nat}

/-- Characters that are neither skipped nor end a piece. -/
def Clean (part : List Nat) : Prop := ∀ c ∈ part, isTabOrNewline c = false ∧ c ≠ dot

/-- One round of the loop in the state of a base. -/
structure Reads (state : PieceState) (base : Nat) : Prop where
  step : ∀ value c rest, isTabOrNewline c = false → c ≠ dot → parsePieceLoop state value (c::rest) =
      match digitOf base c with
      | none => (.error .failure, c::rest)
      | some d =>
        if value*base + d < 2^32 then parsePieceLoop state (value*base+d) rest else (.error .overflow, c::rest)

private theorem parsePieceLoop_ends {s : PieceState} (ht : Ends tail) : parsePieceLoop s value tail = (.ok value, tail) := by
  cases tail with
  | nil => rw [parsePieceLoop]
  | cons c rest =>
    obtain rfl : c = dot := ht c rfl
    rw [parsePieceLoop.eq_def]
    exact (if_neg (by decide)).trans (if_pos rfl)

/-- What the parser of a piece makes of a part: its number, or a failure anywhere. -/
def Reading (number : Option Nat) (tail : List Nat) (result : Except IPv4PieceParsingError Nat × List Nat) : Prop :=
  match number with
  | some value => result = (.ok value, tail)
  | none => result.1 = .error .failure

private theorem Reads.loop {s : PieceState} (h : Reads s base) (hp : Clean part) (ht : Ends tail)
    (hf : ∀ k v, digits base value (part.take k) = some v → v < 2^32) :
    Reading (digits base value part) tail (parsePieceLoop s value (part ++ tail)) := by
  induction part generalizing value with
  | nil => exact parsePieceLoop_ends ht
  | cons c rest ih =>
    obtain ⟨⟨htb,hdt⟩,hr⟩ := forall_mem_cons.1 hp
    rw [cons_append,h.step value c _ htb hdt,digits_cons]
    cases hd : digitOf base c with
    | none => rfl
    | some d =>
      have hs (k v : Nat) (hv : digits base (value*base+d) (rest.take k) = some v) : v < 2^32 :=
        hf (k+1) v (by rw [take_succ_cons,digits_cons,hd,bind_some,hv])
      dsimp only
      rw [if_pos (hs 0 _ rfl)]
      exact ih hr hs

end Digits

section Numbers
variable {part rest : List Nat} {c d : Nat}

private theorem Fits.take (h : Fits part) (k : Nat) {v : Nat} (hv : number (part.take k) = some v) : v < 2^32 :=
  h _ ((mem_inits _ _).2 ( take_prefix k part)) v hv

end Numbers

end WebKit.WTF.URLParser
