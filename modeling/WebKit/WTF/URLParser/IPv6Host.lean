import Mathlib.Data.List.Basic
import WebKit.WTF.URLParser.Characters

/-! The parser of IPv6 hosts, from the opening bracket up to the closing one. Which code points the iterator skips is a
parameter. Reports of syntax violations are left out. -/
namespace WebKit.WTF.URLParser
open Nat

def colon : Nat := 0x3A

section
variable (ignored : Nat → Bool)

def advance (iterator : List Nat) : List Nat := iterator.tail.dropWhile ignored

theorem length_advance_lt {c : Nat} {r : List Nat} : (advance ignored (c::r)).length < (c::r).length :=
  lt_succ_of_le (List.dropWhile_sublist _).length_le

/-- The digits of a decimal piece: the value, whether a leading zero was seen, and the iterator. -/
def pieceInsideIPv6Loop (piece : Nat) (leadingZeros : Bool) (iterator : List Nat) : Option (Nat × Bool × List Nat) :=
  match iterator with
  | [] => some (piece, leadingZeros, [])
  | c::rest =>
    if ¬ isASCIIDigit c then none
    else if piece = 0 ∧ c = 0x30 ∧ leadingZeros then none
    else if 255 < piece*10 + (c-0x30) then none
    else if (advance ignored (c::rest)).head? = some dot then
      some (piece*10 + (c-0x30), leadingZeros || (piece = 0 && c = 0x30), advance ignored (c::rest))
    else pieceInsideIPv6Loop (piece*10+(c-0x30)) (leadingZeros || (piece = 0 && c = 0x30)) (advance ignored (c::rest))
termination_by iterator.length
decreasing_by exact length_advance_lt ignored

def parseIPv4PieceInsideIPv6 (iterator : List Nat) : Option (Nat × List Nat) :=
  if iterator = [] then none
  else do
    let (piece, leadingZeros, iterator) ← pieceInsideIPv6Loop ignored 0 false iterator
    if piece ≠ 0 ∧ leadingZeros then none else some (piece, iterator)

/-- The rounds that are left, the last one of which has no dot after it. -/
def addressInsideIPv6Loop : Nat → Nat → List Nat → Option Nat
  | 0, address, iterator => do
    let (piece, iterator) ← parseIPv4PieceInsideIPv6 ignored iterator
    if iterator = [] then some (((address <<< 8) + piece)%2^32) else none
  | rounds + 1, address, iterator => do
    let (piece, iterator) ← parseIPv4PieceInsideIPv6 ignored iterator
    if iterator.head? = some dot then
      addressInsideIPv6Loop rounds (((address <<< 8) + piece)%2^32) (advance ignored iterator)
    else none

def parseIPv4AddressInsideIPv6 (iterator : List Nat) : Option Nat := addressInsideIPv6Loop ignored 3 0 iterator

/-- At most the given number of hexadecimal digits: the value and the iterator. -/
def hexDigitsLoop : Nat → Nat → List Nat → Nat × List Nat
  | 0, value, c => (value, c)
  | length + 1, value, c =>
    match c with
    | [] => (value, [])
    | d::rest =>
      if isASCIIHexDigit d then hexDigitsLoop length ((value*0x10+toASCIIHexValue d)%2^16) (advance ignored (d::rest))
      else (value, d::rest)

theorem length_hexDigitsLoop_le (l v : Nat) (c : List Nat) : (hexDigitsLoop ignored l v c).2.length ≤ c.length := by
  fun_induction hexDigitsLoop ignored l v c with
  | case1 v c => exact le_rfl
  | case2 l v => exact le_rfl
  | case3 l v d r hh ih => exact ih.trans (le_of_lt (length_advance_lt ignored))
  | case4 l v d r hh => exact le_rfl

structure Pieces where
  address : List Nat
  piecePointer : Nat
  compressPointer : Option Nat

/-- The loop over the pieces; none when it returns no address. -/
def piecesLoop (state : Pieces) (c : List Nat) : Option Pieces :=
  match c with
  | [] => some state
  | d::rest =>
    if state.piecePointer = 8 then none
    else if d = colon then
      if state.compressPointer.isSome then none
      else
        piecesLoop ⟨state.address,state.piecePointer + 1,some (state.piecePointer+1)⟩ (advance ignored (d::rest))
    else
      match (if state.piecePointer = 6 ∨ (state.compressPointer.isSome ∧ state.piecePointer < 6) then
          parseIPv4AddressInsideIPv6 ignored (d::rest) else none) with
      | some ipv4Address =>
        if state.compressPointer.isSome ∧ state.piecePointer = 5 then none
        else some ⟨(state.address.set state.piecePointer ((ipv4Address >>> 16)%2^16)).set (state.piecePointer+1)
          (ipv4Address &&& 0xFFFF),state.piecePointer + 2,state.compressPointer⟩
      | none =>
        let address := state.address.set state.piecePointer (hexDigitsLoop ignored 4 0 (d::rest)).1
        match _hafter : (hexDigitsLoop ignored 4 0 (d::rest)).2 with
        | [] => some ⟨address,state.piecePointer + 1,state.compressPointer⟩
        | e::after =>
          if state.piecePointer + 1 = 8 ∨ e ≠ colon then none
          else piecesLoop ⟨address,state.piecePointer + 1,state.compressPointer⟩ (advance ignored (e::after))
termination_by c.length
decreasing_by
  · exact length_advance_lt ignored
  · have hle := length_hexDigitsLoop_le ignored 4 0 (d::rest)
    rw [_hafter] at hle
    exact (length_advance_lt ignored).trans_le hle

theorem piecesLoop_cons (s : Pieces) (d : Nat) (r : List Nat) : piecesLoop ignored s (d::r) =
      if s.piecePointer = 8 then none
      else if d = colon then
        if s.compressPointer.isSome then none
        else piecesLoop ignored ⟨s.address,s.piecePointer + 1,some (s.piecePointer+1)⟩ (advance ignored (d::r))
      else
        match (if s.piecePointer = 6 ∨ (s.compressPointer.isSome ∧ s.piecePointer < 6) then
            parseIPv4AddressInsideIPv6 ignored (d::r) else none) with
        | some ipv4Address =>
          if s.compressPointer.isSome ∧ s.piecePointer = 5 then none
          else some ⟨(s.address.set s.piecePointer ((ipv4Address >>> 16)%2^16)).set (s.piecePointer+1)
            (ipv4Address &&& 0xFFFF),s.piecePointer + 2,s.compressPointer⟩
        | none =>
          match hexDigitsLoop ignored 4 0 (d::r) with
          | (v, []) => some ⟨s.address.set s.piecePointer v,s.piecePointer + 1,s.compressPointer⟩
          | (v, e::a) =>
            if s.piecePointer + 1 = 8 ∨ e ≠ colon then none
            else piecesLoop ignored ⟨s.address.set s.piecePointer v,s.piecePointer + 1,s.compressPointer⟩
              (advance ignored (e::a)) := by
  rw [piecesLoop]
  all_goals
    split
    · rfl
    · rcases hh : hexDigitsLoop ignored 4 0 (d::r) with ⟨v,_ | ⟨e,a⟩⟩ <;> (split <;> simp_all)

def swap (address : List Nat) (i j : Nat) : List Nat := (address.set i (address.getD j 0)).set j (address.getD i 0)

/-- Move the pieces after the compression to the end. -/
def swapLoop (compressPointer : Nat) : Nat → Nat → List Nat → List Nat
  | 0, _, address => address
  | swaps + 1, piecePointer, address =>
    swapLoop compressPointer swaps (piecePointer-1) (swap address piecePointer (compressPointer+(swaps+1)-1))

/-- The first code points, up to the loop over the pieces. -/
def startPieces (c : List Nat) : Option (Pieces × List Nat) :=
  if c = [] then none
  else if c.head? = some colon then
    if (advance ignored c).head? = some colon then
      some (⟨List.replicate 8 0,1,some 1⟩, advance ignored (advance ignored c))
    else none
  else some (⟨List.replicate 8 0,0,none⟩, c)

/-- The end of the parser, after the loop over the pieces. -/
def finishPieces (state : Pieces) : Option (List Nat) :=
  match state.compressPointer with
  | some compressPointer => some (swapLoop compressPointer (state.piecePointer-compressPointer) 7 state.address)
  | none => if state.piecePointer = 8 then some state.address else none

/-- The parser, from the opening bracket on. -/
def parseIPv6With (c : List Nat) : Option (List Nat) := do
  let (state, c) ← startPieces ignored (advance ignored c)
  let state ← piecesLoop ignored state c
  finishPieces state

end

def parseIPv6Host (c : List Nat) : Option (List Nat) := parseIPv6With isTabOrNewline c

end WebKit.WTF.URLParser
