import Mathlib.Data.List.Induction
import Mathlib.Tactic.Ring

/-! Numbers as byte strings of a given width in either order, and the loops that write and read them. -/
namespace WebKit.Base
open List UInt8 Nat

def bigEndian : Nat → Nat → List UInt8
  | 0, _ => []
  | width + 1, n => bigEndian width (n/256) ++ [.ofNat n]

def ofBigEndian (bytes : List UInt8) : Nat := bytes.foldl (fun n byte => n*256 + byte.toNat) 0

@[simp] theorem length_bigEndian (width n : Nat) : (bigEndian width n).length = width := by
  induction width generalizing n with
  | zero => rfl
  | succ width ih => rw [bigEndian,length_append,ih,length_singleton]

theorem ofBigEndian_append_singleton (bs : List UInt8) (b : UInt8) :
    ofBigEndian (bs ++ [b]) = ofBigEndian bs*256 + b.toNat := by
  rw [ofBigEndian,foldl_append]
  rfl

variable {width : Nat} {n : Nat}

theorem ofBigEndian_bigEndian (h : n < 256^width) : ofBigEndian (bigEndian width n) = n := by
  induction width generalizing n with
  | zero =>
    rw [pow_zero,lt_one_iff] at h
    rw [h]
    rfl
  | succ width ih =>
    rw [bigEndian,ofBigEndian_append_singleton,ih (Nat.div_lt_of_lt_mul (by omega)),toNat_ofNat']
    omega

theorem ofBigEndian_lt (bs : List UInt8) : ofBigEndian bs < 256^bs.length := by
  induction bs using reverseRecOn with
  | nil => decide
  | append_singleton bs b ih =>
    have := b.toNat_lt
    rw [ofBigEndian_append_singleton,length_append,length_singleton,pow_succ]
    omega

theorem bigEndian_ofBigEndian (bytes : List UInt8) : bigEndian bytes.length (ofBigEndian bytes) = bytes := by
  induction bytes using reverseRecOn with
  | nil => rfl
  | append_singleton bytes byte ih =>
    have hl := byte.toNat_lt
    have hdv : (ofBigEndian bytes*256+byte.toNat)/256 = ofBigEndian bytes := by omega
    have hb : ofNat (ofBigEndian bytes*256+byte.toNat) = byte := by
      apply UInt8.toNat_inj.1
      rw [UInt8.toNat_ofNat']
      omega
    rw [ofBigEndian_append_singleton,length_append,length_singleton,bigEndian,hdv,ih,hb]

/-- One round of the loop that reads a number. -/
def shiftIn (n : UInt64) (byte : UInt8) : UInt64 := n <<< 8 ||| byte.toUInt64

theorem shiftIn_toNat {n : UInt64} {b : UInt8} (h : n.toNat*256 < 18446744073709551616) :
    (shiftIn n b).toNat = n.toNat*256 + b.toNat := by
  have hb : b.toNat < 2^8 := b.toNat_lt
  rw [shiftIn,UInt64.toNat_or,UInt64.toNat_shiftLeft,toNat_toUInt64]
  change (n.toNat <<< 8)%2^64 ||| _ = _
  rw [shiftLeft_eq,mod_eq_of_lt (by omega),mul_comm,← two_pow_add_eq_or_of_lt hb]

theorem foldl_shiftIn_toNat {bytes : List UInt8} (h : bytes.length ≤ 8) : (bytes.foldl shiftIn 0).toNat = ofBigEndian bytes := by
  induction bytes using reverseRecOn with
  | nil => rfl
  | append_singleton bytes b ih =>
    rw [length_append,length_singleton] at h
    have hl := ofBigEndian_lt bytes
    have hp : 256^bytes.length ≤ 256^7 := Nat.pow_le_pow_right (by decide) (by omega)
    rw [foldl_append,ofBigEndian_append_singleton,← ih (by omega)]
    exact shiftIn_toNat (by omega)

/-- The loop that writes the low bytes, last one first. -/
def shiftOut : Nat → UInt64 → List UInt8 → List UInt8
  | 0, _, bytes => bytes
  | width + 1, n, bytes => shiftOut width (n >>> 8) ((n &&& 0xFF).toUInt8 :: bytes)

theorem shiftOut_eq (width : Nat) (n : UInt64) (bytes : List UInt8) :
    shiftOut width n bytes = bigEndian width n.toNat ++ bytes := by
  induction width generalizing n bytes with
  | zero => rfl
  | succ width ih =>
    have hs : (n >>> 8).toNat = n.toNat/256 := by
      exact shiftRight_eq_div_pow _ 8
    have hb : (n &&& 0xFF).toUInt8 = ofNat n.toNat := by
      apply UInt8.toNat_inj.1
      exact (congrArg (· % 256) (and_two_pow_sub_one_eq_mod n.toNat 8)).trans (mod_mod _ _)
    rw [shiftOut,ih,hs,hb,bigEndian,append_assoc,singleton_append]

theorem bigEndian_succ (width n : Nat) : bigEndian (width+1) n = .ofNat (n/256^width) :: bigEndian width n := by
  induction width generalizing n with
  | zero => rw [pow_zero,Nat.div_one]; rfl
  | succ width ih =>
    rw [bigEndian,ih,Nat.div_div_eq_div_mul,pow_succ,Nat.mul_comm 256]
    rfl

/-- Numbers are in the order of their bytes. -/
theorem bigEndian_lt {m : Nat} (h : m%256^width < n%256^width) : bigEndian width m < bigEndian width n := by
  induction width with
  | zero => omega
  | succ width ih =>
    have hp : 0 < 256^width := Nat.pow_pos (by decide)
    rw [mod_pow_succ,mod_pow_succ] at h
    rw [bigEndian_succ,bigEndian_succ,cons_lt_cons_iff,UInt8.lt_iff_toNat_lt,← UInt8.toNat_inj,UInt8.toNat_ofNat',
      toNat_ofNat']
    obtain hl | he | hg := lt_trichotomy (m/256^width%256) (n/256^width%256)
    · exact .inl hl
    · rw [he] at h
      exact .inr ⟨he,ih (by omega)⟩
    · have := mul_le_mul_left (256^width) (succ_le_of_lt hg)
      rw [mul_succ] at this
      omega

/-- The same, from the first one on. -/
def shiftDown (n : UInt64) : Nat → List UInt8
  | 0 => []
  | width + 1 => (0xFF &&& (n >>> UInt64.ofNat (width*8))).toUInt8 :: shiftDown n width

theorem shiftDown_eq (n : UInt64) (h : width ≤ 8) : shiftDown n width = bigEndian width n.toNat := by
  induction width with
  | zero => rfl
  | succ width ih =>
    have hs : (n >>> UInt64.ofNat (width*8)).toNat = n.toNat/256^width := by
      rw [UInt64.toNat_shiftRight,UInt64.toNat_ofNat_of_lt' (show width*8 < 18446744073709551616 by omega),
        Nat.mod_eq_of_lt (by omega),Nat.shiftRight_eq_div_pow,Nat.mul_comm,Nat.pow_mul]
    have hb : (0xFF &&& (n >>> UInt64.ofNat (width*8))).toUInt8 = .ofNat (n.toNat/256^width) := by
      apply UInt8.toNat_inj.1
      rw [UInt64.toNat_toUInt8,UInt64.toNat_and,hs,UInt8.toNat_ofNat',Nat.and_comm]
      exact (congrArg (· % 256) (Nat.and_two_pow_sub_one_eq_mod _ 8)).trans (Nat.mod_mod _ _)
    rw [shiftDown,ih (by omega),hb,bigEndian_succ]

def writeLittleEndian (width n : Nat) : List UInt8 := (bigEndian width n).reverse

def readLittleEndian (width : Nat) (data : List UInt8) : Option (Nat × List UInt8) :=
  if data.length < width then none else some (ofBigEndian (data.take width).reverse, data.drop width)

@[simp] theorem length_writeLittleEndian (width n : Nat) : (writeLittleEndian width n).length = width := by
  rw [writeLittleEndian,length_reverse,length_bigEndian]

theorem readLittleEndian_write (h : n < 256^width) (r : List UInt8) :
    readLittleEndian width (writeLittleEndian width n ++ r) = some (n, r) := by
  rw [readLittleEndian,length_append,length_writeLittleEndian,if_neg (by omega),
    take_left' (length_writeLittleEndian _ _),drop_left' (length_writeLittleEndian _ _),writeLittleEndian,
    reverse_reverse,ofBigEndian_bigEndian h]

theorem readLittleEndian_eq_some {d r : List UInt8} (h : readLittleEndian width d = some (n, r)) :
    d = writeLittleEndian width n ++ r ∧ n < 256^width := by
  rw [readLittleEndian] at h
  split_ifs at h with hl
  cases h
  have ht : (d.take width).reverse.length = width := by
    rw [length_reverse,length_take_of_le (by omega)]
  have hb := bigEndian_ofBigEndian (d.take width).reverse
  have hlt := ofBigEndian_lt (d.take width).reverse
  rw [ht] at hb hlt
  rw [writeLittleEndian,hb,reverse_reverse,take_append_drop]
  exact ⟨rfl,hlt⟩

end WebKit.Base
