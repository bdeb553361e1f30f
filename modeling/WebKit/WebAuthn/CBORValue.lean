import Mathlib.Data.List.Basic

/-! CBOR values and the order of the keys of their maps. -/
namespace WebKit.WebAuthn

inductive ValueType where
  | unsigned
  | negative
  | byteString
  | string
  | array
  | map
  | simpleValue
  | none
  deriving DecidableEq

def ValueType.toInt : ValueType → Int
  | unsigned => 0
  | negative => 1
  | byteString => 2
  | string => 3
  | array => 4
  | map => 5
  | simpleValue => 7
  | none => -1

inductive SimpleValue where
  | falseValue
  | trueValue
  | nullValue
  | undefined
  deriving DecidableEq

def SimpleValue.toNat : SimpleValue → Nat
  | falseValue => 20
  | trueValue => 21
  | nullValue => 22
  | undefined => 23

/-- Strings are 16-bit units, and a map's entries are in the order of their keys. -/
inductive CBORValue where
  | none
  | integer (value : Int64)
  | byteString (value : List UInt8)
  | string (value : List UInt16)
  | array (value : List CBORValue)
  | map (value : List (CBORValue × CBORValue))
  | simpleValue (value : SimpleValue)

namespace CBORValue

def type : CBORValue → ValueType
  | none => .none
  | integer value => if value ≥ 0 then .unsigned else .negative
  | byteString _ => .byteString
  | string _ => .string
  | array _ => .array
  | map _ => .map
  | simpleValue _ => .simpleValue

end CBORValue

/-- One, zero or minus one, for the first difference or for the lengths. -/
def codePointCompare : List UInt16 → List UInt16 → Int
  | [], [] => 0
  | [], _::_ => -1
  | _::_, [] => 1
  | unit1::characters1, unit2::characters2 =>
    if unit1 = unit2 then codePointCompare characters1 characters2 else if unit1 > unit2 then 1 else -1

def codePointCompareLessThan (a b : List UInt16) : Bool := codePointCompare a b < 0

/-- The order of the keys in a map. -/
def CTAPLess (a b : CBORValue) : Bool :=
  if a.type ≠ b.type then a.type.toInt < b.type.toInt
  else
    match a, b with
    | .integer a, .integer b => if a ≥ 0 then a < b else a > b
    | .string a, .string b => if a.length ≠ b.length then a.length < b.length else codePointCompareLessThan a b
    | _, _ => false

private theorem codePointCompareLessThan_iff {a b : List UInt16} : codePointCompareLessThan a b ↔ a < b := by
  rw [codePointCompareLessThan,decide_eq_true_iff]
  induction a generalizing b with
  | nil =>
    cases b with
    | nil => exact ⟨fun h => absurd h (by decide),nofun⟩
    | cons unit b => exact ⟨fun _ => List.nil_lt_cons _ _,fun _ => by rw [codePointCompare]; decide⟩
  | cons unit1 a ih =>
    cases b with
    | nil => exact ⟨fun h => absurd h (by rw [codePointCompare]; decide),nofun⟩
    | cons unit2 b =>
      rw [codePointCompare,List.cons_lt_cons_iff]
      split_ifs with he hl
      · rw [ih,he]
        exact ⟨fun h => .inr ⟨rfl,h⟩,fun h => (h.resolve_left (UInt16.lt_irrefl _)).2⟩
      · refine ⟨fun h => absurd h (by decide),?_⟩
        rintro (h | ⟨h,-⟩)
        · exact absurd hl (UInt16.lt_asymm h)
        · exact absurd h he
      · exact ⟨fun _ => .inl (UInt16.lt_of_le_of_ne (UInt16.not_lt.1 hl) he),fun _ => by decide⟩

section
variable {a b c : CBORValue}

theorem ctapLess_of_type_ne (h : a.type ≠ b.type) : CTAPLess a b ↔ a.type.toInt < b.type.toInt := by
  unfold CTAPLess
  rw [if_pos h,decide_eq_true_iff]

theorem ctapLess_integer {a b : Int64} (h : 0 ≤ a ↔ 0 ≤ b) :
    CTAPLess (.integer a) (.integer b) ↔ if 0 ≤ a then a < b else b < a := by
  have ht : (CBORValue.integer a).type = (CBORValue.integer b).type := if_congr h rfl rfl
  rw [CTAPLess,if_neg (not_not.2 ht)]
  split_ifs <;> exact decide_eq_true_iff

theorem ctapLess_string {a b : List UInt16} : CTAPLess (.string a) (.string b) ↔
    a.length < b.length ∨ a.length = b.length ∧ a < b := by
  have ht : (CBORValue.string a).type = (CBORValue.string b).type := rfl
  rw [CTAPLess,if_neg (not_not.2 ht),← codePointCompareLessThan_iff]
  split_ifs with hl
  · rw [decide_eq_true_iff]
    exact ⟨.inl,fun h => h.resolve_right fun h => hl h.1⟩
  · rw [not_not] at hl
    exact ⟨fun h => .inr ⟨hl,h⟩,fun h => (h.resolve_left (by omega)).2⟩

/-- Values of one type are in order as integers or as strings. -/
theorem ctapLess_cases (h : a.type = b.type) (hl : CTAPLess a b) :
    (∃ m n, a = .integer m ∧ b = .integer n ∧ (0 ≤ m ↔ 0 ≤ n)) ∨ ∃ s t, a = .string s ∧ b = .string t := by
  unfold CTAPLess at hl
  rw [if_neg (not_not.2 h)] at hl
  split at hl
  next m n =>
    refine .inl ⟨m,n,rfl,rfl,?_⟩
    change (if 0 ≤ m then ValueType.unsigned else .negative) = if 0 ≤ n then ValueType.unsigned else .negative at h
    split_ifs at h with hm hn hn
    · exact ⟨fun _ => hn,fun _ => hm⟩
    · exact ⟨fun h => absurd h hm,fun h => absurd h hn⟩
  next s t => exact .inr ⟨s,t,rfl,rfl⟩
  · cases hl

theorem ctapLess_trans (ha : CTAPLess a b) (hb : CTAPLess b c) : CTAPLess a c := by
  by_cases h1 : a.type = b.type <;> by_cases h2 : b.type = c.type
  · obtain ⟨m,n,rfl,rfl,hmn⟩ | ⟨s,t,rfl,rfl⟩ := ctapLess_cases h1 ha
    · obtain ⟨_,k,hn,rfl,hnk⟩ | ⟨_,_,h,_⟩ := ctapLess_cases h2 hb
      · obtain rfl := CBORValue.integer.inj hn
        rw [ctapLess_integer hmn] at ha
        rw [ctapLess_integer hnk] at hb
        rw [ctapLess_integer (hmn.trans hnk)]
        by_cases hm : 0 ≤ m
        · rw [if_pos hm] at ha ⊢
          rw [if_pos (hmn.1 hm)] at hb
          exact Int64.lt_trans ha hb
        · rw [if_neg hm] at ha ⊢
          rw [if_neg (mt hmn.2 hm)] at hb
          exact Int64.lt_trans hb ha
      · cases h
    · obtain ⟨_,_,h,_⟩ | ⟨_,u,ht,rfl⟩ := ctapLess_cases h2 hb
      · cases h
      · rw [ctapLess_string] at ha hb ⊢
        obtain ha | ⟨ha,hl⟩ := ha <;> obtain hb | ⟨hb,hl'⟩ := hb
        · exact .inl (by omega)
        · exact .inl (by omega)
        · exact .inl (by omega)
        · exact .inr ⟨by omega,List.lt_trans hl hl'⟩
  · rw [ctapLess_of_type_ne h2] at hb
    rwa [ctapLess_of_type_ne (h1 ▸ h2),h1]
  · rw [ctapLess_of_type_ne h1] at ha
    rwa [ctapLess_of_type_ne (h2 ▸ h1),← h2]
  · rw [ctapLess_of_type_ne h1] at ha
    rw [ctapLess_of_type_ne h2] at hb
    have hl := Int.lt_trans ha hb
    exact (ctapLess_of_type_ne fun h => absurd hl (by rw [h]; exact Int.lt_irrefl _)).2 hl

private theorem ctapLess_irrefl : ¬ CTAPLess a a := by
  intro h
  obtain ⟨m,n,rfl,hn,hm⟩ | ⟨s,t,rfl,ht⟩ := ctapLess_cases rfl h
  · rw [ctapLess_integer Iff.rfl] at h
    split_ifs at h <;> exact Int64.lt_irrefl h
  · rw [ctapLess_string] at h
    obtain h | ⟨-,h⟩ := h
    · exact Nat.lt_irrefl _ h
    · exact List.lt_irrefl _ h

theorem ctapLess_asymm (ha : CTAPLess a b) : ¬ CTAPLess b a :=
  fun hb => ctapLess_irrefl (ctapLess_trans ha hb)

end
end WebKit.WebAuthn
