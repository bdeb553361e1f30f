import Mathlib.Data.List.Basic

/-! Texts as code units of 8 and of 16 bits. -/
namespace WebKit.Base
open List

def utf16EncodeChar (c : Char) : List UInt16 :=
  if c.toNat < 0x10000 then [.ofNat c.toNat]
  else [.ofNat (0xD800+(c.toNat-0x10000)/1024), .ofNat (0xDC00+(c.toNat-0x10000)%1024)]

def utf8 (text : List Char) : List UInt8 := text.flatMap String.utf8EncodeChar

def utf16 (text : List Char) : List UInt16 := text.flatMap utf16EncodeChar

@[simp] theorem utf8_cons (c : Char) (text : List Char) : utf8 (c::text) = String.utf8EncodeChar c ++ utf8 text :=
  flatMap_cons

@[simp] theorem utf16_cons (c : Char) (text : List Char) : utf16 (c::text) = utf16EncodeChar c ++ utf16 text :=
  flatMap_cons

theorem toNat_char (c : Char) : c.toNat < 0xD800 ∨ 0xDFFF < c.toNat ∧ c.toNat < 0x110000 := c.valid

theorem exists_char {n : Nat} (h : n < 0xD800 ∨ 0xDFFF < n ∧ n < 0x110000) : ∃ c : Char, c.toNat = n :=
  ⟨Char.ofNatAux n h,rfl⟩

theorem utf8EncodeChar_eq (c : Char) : String.utf8EncodeChar c =
    if c.toNat ≤ 0x7F then [.ofNat c.toNat]
    else if c.toNat ≤ 0x7FF then [.ofNat (c.toNat/64%32+192), .ofNat (c.toNat%64+128)]
    else if c.toNat ≤ 0xFFFF then
      [.ofNat (c.toNat/4096%16+224), .ofNat (c.toNat/64%64+128), .ofNat (c.toNat%64+128)]
    else
      [.ofNat (c.toNat/262144%8+240), .ofNat (c.toNat/4096%64+128), .ofNat (c.toNat/64%64+128),
        .ofNat (c.toNat%64+128)] :=
  rfl

theorem length_utf8EncodeChar_le (c : Char) : (String.utf8EncodeChar c).length ≤ 3*(utf16EncodeChar c).length := by
  rw [utf8EncodeChar_eq,utf16EncodeChar]
  split_ifs <;> simp only [length_cons,length_nil] <;> omega

theorem length_utf16EncodeChar_le (c : Char) : (utf16EncodeChar c).length ≤ (String.utf8EncodeChar c).length := by
  rw [utf8EncodeChar_eq,utf16EncodeChar]
  split_ifs <;> simp only [length_cons,length_nil] <;> omega

end WebKit.Base
