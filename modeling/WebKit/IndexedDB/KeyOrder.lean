import Mathlib.Order.Defs.LinearOrder
import WebKit.IndexedDB.KeySerialization

/-! The order of IndexedDB keys. -/
namespace WebKit.IndexedDB
open Std List

/-- The bits of a double that is no number. -/
def isNaN (bits : UInt64) : Bool := 0x7FF0000000000000 < bits &&& 0x7FFFFFFFFFFFFFFF

/-- The place of a double in the order, the same for both zeros. -/
def place (bits : UInt64) : Int :=
  if bits < 0x8000000000000000 then bits.toNat else 0x8000000000000000 - bits.toNat

def equalDoubles (x y : UInt64) : Bool := !isNaN x && !isNaN y && place x == place y

def greaterDouble (x y : UInt64) : Bool := !isNaN x && !isNaN y && place x > place y

def compareDoubles (number otherNumber : UInt64) : Ordering :=
  if equalDoubles number otherNumber then .eq else if greaterDouble number otherNumber then .gt else .lt

/-- The first difference decides, and else the sizes. -/
def compareBinaryKeyData (a b : List UInt8) : Ordering := List.compareLex compare a b

def codePointCompare (a b : List UInt16) : Ordering := List.compareLex compare a b

namespace IDBKeyData

/-- The type's number, in reverse sort order. -/
def type : IDBKeyData → Int
  | .max => -1
  | .array _ => 1
  | .binary _ => 2
  | .string _ => 3
  | .date _ => 4
  | .number _ => 5
  | .min => 6

mutual

def compare (key other : IDBKeyData) : Ordering :=
  if key.type ≠ other.type then if key.type < other.type then .gt else .lt
  else
    match key, other with
    | .array value, .array otherValue => compareArrays value otherValue
    | .binary a, .binary b => compareBinaryKeyData a b
    | .string a, .string b => codePointCompare a b
    | .date x, .date y => compareDoubles x y
    | .number x, .number y => compareDoubles x y
    | _, _ => .eq

def compareArrays : List IDBKeyData → List IDBKeyData → Ordering
  | [], [] => .eq
  | [], _::_ => .lt
  | _::_, [] => .gt
  | key::keys, other::others => (compare key other).then (compareArrays keys others)

end

mutual

/-- The operator ==. -/
def equal : IDBKeyData → IDBKeyData → Bool
  | .max, .max => true
  | .min, .min => true
  | .number a, .number b => equalDoubles a b
  | .date a, .date b => equalDoubles a b
  | .string a, .string b => a == b
  | .binary a, .binary b => a == b
  | .array a, .array b => equalArrays a b
  | _, _ => false

def equalArrays : List IDBKeyData → List IDBKeyData → Bool
  | [], [] => true
  | a::as, b::bs => equal a b && equalArrays as bs
  | _, _ => false

end

mutual

/-- No number or date in the key is a NaN. -/
def NotNaN : IDBKeyData → Prop
  | .number value => isNaN value = false
  | .date value => isNaN value = false
  | .array value => AllNotNaN value
  | _ => True

def AllNotNaN : List IDBKeyData → Prop
  | [] => True
  | key::keys => NotNaN key ∧ AllNotNaN keys

end

def less (a b : IDBKeyData) : Bool := compare a b == .lt

def greater (a b : IDBKeyData) : Bool := !less a b && !equal a b

def lessOrEqual (a b : IDBKeyData) : Bool := !greater a b

def greaterOrEqual (a b : IDBKeyData) : Bool := !less a b

abbrev ValidKey := { key : IDBKeyData // key.NotNaN }

/-- Characters or bytes as numbers, all above the end. -/
def tokens {α : Type} (toNat : α → Nat) : List α → List Int
  | [] => [-1]
  | a::as => toNat a :: tokens toNat as

mutual

/-- The key without its type, as numbers. -/
def payload : IDBKeyData → List Int
  | .number value => [place value]
  | .date value => [place value]
  | .string value => tokens UInt16.toNat value
  | .binary value => tokens UInt8.toNat value
  | .array value => payloads value
  | _ => []

def payloads : List IDBKeyData → List Int
  | [] => [-7]
  | key::keys => -key.type :: (payload key ++ payloads keys)

end

variable {x y : UInt64}

theorem compareDoubles_eq (hx : isNaN x = false) (hy : isNaN y = false) :
    compareDoubles x y = Ord.compare (place x) (place y) := by
  simp only [compareDoubles,equalDoubles,greaterDouble,hx,hy]
  rcases Int.lt_trichotomy (place x) (place y) with h | h | h
  · simp [Int.compare_eq_lt.2 h,h.ne,h.le]
  · simp [h]
  · simp [Int.compare_eq_gt.2 h,h.ne',h]

theorem compare_tokens {α : Type} [Ord α] {toNat : α → Nat}
    (h : ∀ a b : α, Ord.compare a b = Ord.compare (toNat a : Int) (toNat b)) (as bs : List α) (x y : List Int) :
    Ord.compare (tokens toNat as ++ x) (tokens toNat bs ++ y) = (Ord.compare as bs).then (Ord.compare x y) := by
  induction as generalizing bs with
  | nil =>
    cases bs with
    | nil => simp [tokens]
    | cons b bs => simp [tokens,Int.compare_eq_lt.2 (show (-1 : Int) < toNat b by omega)]
  | cons a as ih =>
    cases bs with
    | nil => simp [tokens,Int.compare_eq_gt.2 (show (toNat a : Int) > -1 by omega)]
    | cons b bs => simp [tokens,ih,h,Ordering.then_assoc]

theorem compare_toNat8 (a b : UInt8) : Ord.compare a b = Ord.compare (a.toNat : Int) b.toNat := by
  simp [Ord.compare,compareOfLessAndEq,UInt8.lt_iff_toNat_lt,← UInt8.toNat_inj]

theorem compare_toNat16 (a b : UInt16) : Ord.compare a b = Ord.compare (a.toNat : Int) b.toNat := by
  simp [Ord.compare,compareOfLessAndEq,UInt16.lt_iff_toNat_lt,← UInt16.toNat_inj]

theorem type_le (key : IDBKeyData) : key.type ≤ 6 := by
  cases key <;> simp [type]

mutual

theorem compare_payload (a b : IDBKeyData) (ha : a.NotNaN) (hb : b.NotNaN) (x y : List Int) :
    Ord.compare (-a.type :: (payload a ++ x)) (-b.type :: (payload b ++ y)) = (compare a b).then (Ord.compare x y) := by
  by_cases ht : a.type = b.type
  · cases a <;> cases b <;> simp [type] at ht
    all_goals simp [payload,compare,type]
    · rw [compareDoubles_eq ha hb]
    · rw [compareDoubles_eq ha hb]
    · exact compare_tokens compare_toNat16 ..
    · exact compare_tokens compare_toNat8 ..
    · exact compare_payloads _ _ ha hb x y
  · rw [compare.eq_def,if_pos ht,List.compare_cons_cons]
    rcases Int.lt_or_gt_of_ne ht with h | h
    · simp [h,Int.compare_eq_gt.2 (show -a.type > -b.type by omega)]
    · simp [h.not_gt,Int.compare_eq_lt.2 (show -a.type < -b.type by omega)]

theorem compare_payloads (as bs : List IDBKeyData) (ha : AllNotNaN as) (hb : AllNotNaN bs) (x y : List Int) :
    Ord.compare (payloads as ++ x) (payloads bs ++ y) = (compareArrays as bs).then (Ord.compare x y) := by
  match as, bs with
  | [], [] => simp [payloads,compareArrays]
  | [], b::bs =>
    have := b.type_le
    simp [payloads,compareArrays,Int.compare_eq_lt.2 (show (-7 : Int) < -b.type by omega)]
  | a::as, [] =>
    have := a.type_le
    simp [payloads,compareArrays,Int.compare_eq_gt.2 (show -a.type > (-7 : Int) by omega)]
  | a::as, b::bs =>
    rw [payloads,payloads,cons_append,cons_append,append_assoc,append_assoc,compare_payload a b ha.1 hb.1,
      compare_payloads as bs ha.2 hb.2,compareArrays,Ordering.then_assoc]

end

theorem compareDoubles_eq_iff : compareDoubles x y = .eq ↔ equalDoubles x y := by
  rw [compareDoubles]
  split_ifs with h <;> simp [h]

mutual

theorem compare_eq_iff (a b : IDBKeyData) : compare a b = .eq ↔ equal a b := by
  cases a <;> cases b <;>
    simp [equal,compare,type,compareDoubles_eq_iff,codePointCompare,compareBinaryKeyData,LawfulEqCmp.compare_eq_iff_eq]
  exact compareArrays_eq_iff _ _

theorem compareArrays_eq_iff (as bs : List IDBKeyData) : compareArrays as bs = .eq ↔ equalArrays as bs := by
  match as, bs with
  | [], [] | [], _::_ | _::_, [] => simp [equalArrays,compareArrays]
  | a::as, b::bs =>
    rw [equalArrays,Bool.and_eq_true,compareArrays,Ordering.then_eq_eq,compare_eq_iff a b,compareArrays_eq_iff as bs]

end

theorem compareArrays_eq (as bs : List IDBKeyData) : compareArrays as bs = List.compareLex compare as bs := by
  induction as generalizing bs with
  | nil => cases bs <;> rfl
  | cons a as ih =>
    cases bs with
    | nil => rfl
    | cons b bs => rw [compareArrays,ih,List.compareLex_cons_cons]

/-- The comparison of valid keys is a total order of which == is the equality and with which the operators agree: first by
the type, then by the value, and arrays by their first different elements. -/
theorem compare_total_order (a b c : ValidKey) (number date : UInt64) (string : List UInt16) (binary : List UInt8)
    (array array' : List IDBKeyData) :
    compare b a = (compare a b).swap ∧ ((compare a b).isLE → (compare b c).isLE → (compare a c).isLE) ∧
      (compare a b = .eq ↔ equal a b) ∧ [less a b, equal a b, greater a b].count true = 1 ∧
      greater a b = less b a ∧ lessOrEqual a b = (less a b || equal a b) ∧ greaterOrEqual a b = (greater a b || equal a b) ∧
      less .min (.number number) ∧ less (.number number) (.date date) ∧ less (.date date) (.string string) ∧
      less (.string string) (.binary binary) ∧ less (.binary binary) (.array array) ∧ less (.array array) .max ∧
      compare (.array array) (.array array') = List.compareLex compare array array' := by
  have hc (a b : ValidKey) : compare a b = Ord.compare (-a.1.type :: payload a) (-b.1.type :: payload b) := by
    simpa using (compare_payload a b a.2 b.2 [] []).symm
  have hs : compare b a = (compare a b).swap := by
    rw [hc,hc a b]
    exact OrientedCmp.eq_swap
  have he : equal a b = (compare a b == .eq) := by
    rw [Bool.eq_iff_iff,← compare_eq_iff,beq_iff_eq]
  refine ⟨hs,?_,compare_eq_iff a b,?_,?_,?_,?_,rfl,rfl,rfl,rfl,rfl,rfl,compareArrays_eq array array'⟩
  · rw [hc,hc b c,hc a c]
    exact TransCmp.isLE_trans
  all_goals
    simp only [lessOrEqual,greaterOrEqual,greater,less,he,hs]
    cases compare a b <;> rfl

/-- Keys that are the same if they are ==, as the hash maps and the ordered sets need to agree on them: 0 and -0, which have
different hashes, are not both among them. -/
class KeySet (K : Type*) [LinearOrder K] where
  toKey : K → ValidKey
  equal_iff : ∀ a b : K, equal (toKey a) (toKey b) ↔ a = b
  less_iff : ∀ a b : K, less (toKey a) (toKey b) ↔ a < b

theorem compare_binary_replicate (m n : Nat) :
    compare (.binary (replicate m 0)) (.binary (replicate n 0)) = Ord.compare m n := by
  have hc : List.compareLex Ord.compare (replicate m (0 : UInt8)) (replicate n 0) = Ord.compare m n := by
    induction m generalizing n with
    | zero =>
      cases n with
      | zero => rfl
      | succ n => exact (Nat.compare_eq_lt.2 (Nat.succ_pos n)).symm
    | succ m ih =>
      cases n with
      | zero => exact (Nat.compare_eq_gt.2 (Nat.succ_pos m)).symm
      | succ n =>
        rw [replicate_succ,replicate_succ,List.compareLex_cons_cons,ih]
        simp [Nat.compare_eq_ite_lt]
  rw [compare]
  exact (if_neg (not_not_intro rfl)).trans hc

/-- Numbers as binary keys of that length. -/
instance : KeySet Nat where
  toKey n := ⟨.binary (replicate n 0),trivial⟩
  equal_iff m n := by rw [← compare_eq_iff,compare_binary_replicate,Nat.compare_eq_eq]
  less_iff m n := by rw [less,compare_binary_replicate,beq_iff_eq,Nat.compare_eq_lt]

end IDBKeyData
end WebKit.IndexedDB
