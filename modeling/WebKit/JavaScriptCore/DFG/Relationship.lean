import Mathlib.Algebra.Group.Int.Defs
import Mathlib.Data.Option.Basic
import Mathlib.Tactic.SplitIfs

/-! Relationships between the integers of two nodes of a data flow graph, and their conjunction. -/
namespace WebKit.JavaScriptCore.DFG
open Option

abbrev FitsInt32 (x : Int) : Prop := -2^31 ≤ x ∧ x < 2^31

def wrap (x : Int) : Int := (x+2^31)%2^32 - 2^31

theorem wrap_fits (x : Int) : FitsInt32 (wrap x) := by
  rw [wrap]
  omega

theorem wrap_of_fits {x : Int} (h : FitsInt32 x) : wrap x = x := by
  rw [wrap]
  omega

namespace Relationship

inductive Kind where
  | lessThan
  | equal
  | notEqual
  | greaterThan
  deriving DecidableEq

namespace Kind

def vagueness : Kind → Nat
  | equal => 0
  | lessThan => 1
  | greaterThan => 1
  | notEqual => 2

def flipped : Kind → Kind
  | lessThan => greaterThan
  | equal => equal
  | notEqual => notEqual
  | greaterThan => lessThan

/-- What a kind says about a value and a bound, in exact arithmetic. -/
def Relates : Kind → Int → Int → Prop
  | lessThan, x, bound => x < bound
  | equal, x, bound => x = bound
  | notEqual, x, bound => x ≠ bound
  | greaterThan, x, bound => bound < x

end Kind
end Relationship

open Relationship

/-- The left node compared with the right node plus an offset. -/
structure Relationship (ν : Type) where
  left : ν
  right : ν
  kind : Kind
  offset : Int
  distinct : left ≠ right
  fits : FitsInt32 offset
  deriving DecidableEq

/-- The nodes that are int32 constants. -/
structure Constants (ν : Type) where
  asInt32 : ν → Option Int
  fits : ∀ node c, asInt32 node = some c → FitsInt32 c

structure Assignment {ν : Type} (constants : Constants ν) where
  value : ν → Int
  fits : ∀ node, FitsInt32 (value node)
  constant : ∀ node c, constants.asInt32 node = some c → value node = c

namespace Relationship
variable {ν : Type} (constants : Constants ν) (r other : Relationship ν)

/-- The relationship of the same nodes with another kind and offset. -/
def withKind (kind : Kind) (offset : Int) : Relationship ν :=
  { r with kind, offset := wrap offset, fits := wrap_fits offset }

def flipped : Option (Relationship ν) :=
  if r.offset = -2^31 then none
  else some ⟨r.right,r.left,r.kind.flipped,wrap (-r.offset),r.distinct.symm,wrap_fits _⟩

/-- Filters the flipped relationships and flips back, or returns the first if one cannot be flipped. -/
def filterFlipped (filter : ∀ a b, r.flipped = some a → other.flipped = some b → Option (Relationship ν)) :
    Option (Relationship ν) :=
  match ha : r.flipped, hb : other.flipped with
  | some a, some b => (filter a b ha hb).map fun result => result.flipped.getD r
  | _, _ => some r

/-- How often the filter calls itself. -/
def rank : Kind → Kind → Nat
  | .notEqual, .greaterThan => 1
  | .notEqual, _ => 0
  | _, .notEqual => 2
  | .greaterThan, _ => 1
  | _, _ => 0

variable {r other} in
theorem eq_of_flipped {a : Relationship ν} (h : r.flipped = some a) :
    (a.left = r.right ∧ a.right = r.left) ∧ a.kind = r.kind.flipped ∧ a.offset = -r.offset := by
  have hf := r.fits
  rw [flipped] at h
  split_ifs at h
  cases h
  exact ⟨⟨rfl,rfl⟩,rfl,wrap_of_fits (by omega)⟩

variable [DecidableEq ν]

def filter (r other : Relationship ν) : Option (Relationship ν) :=
  if r = other then some r
  else if r.kind = .equal then some r
  else if other.kind = .equal then some other
  else if r.kind = .notEqual then
    if other.kind = .notEqual then some r
    else if other.kind = .greaterThan then r.filterFlipped other fun a b _ _ => filter a b
    else if r.offset = wrap (other.offset-1) then some (r.withKind .lessThan r.offset)
    else some other
  else if other.kind = .notEqual then filter other r
  else if r.kind = .lessThan then
    if other.kind = .lessThan then some (r.withKind .lessThan (min r.offset other.offset))
    else if ¬ FitsInt32 (r.offset-1) then none
    else if ¬ FitsInt32 (other.offset+1) then none
    else if r.offset - 1 = other.offset + 1 then some (r.withKind .equal (r.offset-1))
    else none
  else r.filterFlipped other fun a b _ _ => filter a b
termination_by rank r.kind other.kind
decreasing_by
  · rename_i hkind _ hkind' ha hb
    rw [(eq_of_flipped ha).2.1,(eq_of_flipped hb).2.1,hkind,hkind']
    decide
  · rename_i hkind hkind'
    rw [hkind']
    revert hkind
    cases r.kind <;> decide
  · rename_i ha hb
    rw [(eq_of_flipped ha).2.1,(eq_of_flipped hb).2.1]
    generalize r.kind = kind at *
    generalize other.kind = kind' at *
    cases kind <;> cases kind' <;> first | contradiction | decide

/-- Crashes if a right node is no constant or the first relationship less vague. -/
def filterConstant : Option (Relationship ν) := do
  let thisRight ← constants.asInt32 r.right
  let otherRight ← constants.asInt32 other.right
  if r.kind.vagueness = other.kind.vagueness then some r
  else if ¬ FitsInt32 (otherRight+other.offset) then some r
  else match other.kind with
    | .equal => some (r.withKind .equal (otherRight+other.offset-thisRight))
    | .notEqual => none
    | _ => some r

def isEquivalentTo : Bool :=
  if r.left ≠ other.left ∨ r.kind ≠ other.kind then false
  else if r = other then true
  else match constants.asInt32 r.right, constants.asInt32 other.right with
    | some c, some d => wrap (c+r.offset) = wrap (d+other.offset)
    | _, _ => false

variable {constants r other} (v : Assignment constants)

def Holds (r : Relationship ν) : Prop := r.kind.Relates (v.value r.left) (v.value r.right+r.offset)

omit [DecidableEq ν] in
private theorem holds_flipped {a : Relationship ν} (h : r.flipped = some a) : a.Holds v ↔ r.Holds v := by
  obtain ⟨⟨hl,hr⟩,hkind,ho⟩ := eq_of_flipped h
  rw [Holds,Holds,hl,hr,hkind,ho]
  cases r.kind <;> simp only [Kind.flipped,Kind.Relates] <;> omega

omit [DecidableEq ν] in
private theorem filterFlipped_holds {f : ∀ a b, r.flipped = some a → other.flipped = some b → Option (Relationship ν)}
    (hf : ∀ a b ha hb, a.Holds v → b.Holds v → ∀ rs ∈ f a b ha hb, rs.Holds v) (h : r.Holds v) (h' : other.Holds v) :
    ∀ rs ∈ r.filterFlipped other f, rs.Holds v := by
  intro rs hr
  rw [filterFlipped] at hr
  split at hr
  next a b ha hb =>
    obtain ⟨fn,hfn,rfl⟩ := map_eq_some_iff.1 hr
    have hh := hf a b ha hb ((holds_flipped v ha).2 h) ((holds_flipped v hb).2 h') fn hfn
    cases hfl : fn.flipped with
    | none => exact h
    | some fl => exact (holds_flipped v hfl).2 hh
  · cases hr
    exact h

private theorem filter_holds {rs : Relationship ν} (hn : r.left = other.left ∧ r.right = other.right) (h : r.Holds v)
    (h' : other.Holds v) (hrs : r.filter other = some rs) : rs.Holds v := by
  fun_induction filter r other generalizing rs with
  | case1 | case2 | case4 => exact some_inj.1 hrs ▸ h
  | case3 | case7 => exact some_inj.1 hrs ▸ h'
  | case5 r other _ _ _ _ _ _ ih | case14 r other _ _ _ _ _ _ ih =>
    refine filterFlipped_holds v (fun a b ha hb hA hB rs hrs => ih a b ha hb ?_ hA hB hrs) h h' rs hrs
    obtain ⟨⟨hlf,hrg⟩,-⟩ := eq_of_flipped ha
    obtain ⟨⟨hlf',hrg'⟩,-⟩ := eq_of_flipped hb
    exact ⟨by rw [hlf,hlf',hn.2],by rw [hrg,hrg',hn.1]⟩
  | case8 r other _ _ _ _ _ ih => exact ih ⟨hn.1.symm,hn.2.symm⟩ h' h hrs
  | case10 | case11 | case13 => cases hrs
  | case6 r other _ _ he hk hnt hg ho =>
    have hl : other.kind = .lessThan := by
      generalize other.kind = kind at *
      cases kind <;> trivial
    cases hrs
    simp only [Holds,withKind,wrap_of_fits r.fits,hk,hl,Kind.Relates,← hn.1,← hn.2] at *
    have hf := other.fits
    rw [wrap] at ho
    omega
  | case9 r other _ _ _ _ _ hk hk' =>
    cases hrs
    have hr := r.fits
    have hot := other.fits
    have hf : FitsInt32 (min r.offset other.offset) := by omega
    simp only [Holds,withKind,wrap_of_fits hf,hk,hk',Kind.Relates,← hn.1,← hn.2] at *
    omega
  | case12 r other _ he _ _ hnt hk hl hf hf' heq =>
    have hg : other.kind = .greaterThan := by
      generalize other.kind = kind at *
      cases kind <;> trivial
    cases hrs
    simp only [Holds,withKind,wrap_of_fits (not_not.1 hf),hk,hg,Kind.Relates,← hn.1,← hn.2] at *
    omega

omit [DecidableEq ν] in
/-- The offset of the refined relationship must not wrap around. -/
theorem filterConstant_holds_iff {c d : Int} (hc : constants.asInt32 r.right = some c) (hd : constants.asInt32 other.right = some d)
    (hl : r.left = other.left) (hv : other.kind.vagueness ≤ r.kind.vagueness) (h : r.Holds v) (h' : other.Holds v) :
    (∀ rs ∈ filterConstant constants r other, rs.Holds v) ↔
      (other.kind = .equal → r.kind ≠ .equal → FitsInt32 (d+other.offset) → FitsInt32 (d+other.offset-c)) := by
  have hr := v.constant _ c hc
  have ho := v.constant _ d hd
  simp only [filterConstant,hc,hd,bind_eq_bind,bind_some]
  split_ifs with he hf
  · refine iff_of_true (by simpa using h) fun hk hn => ?_
    rw [hk] at he
    revert hn he
    cases r.kind <;> simp [Kind.vagueness]
  · cases hk : other.kind with
    | equal =>
      have hn : r.kind ≠ .equal := fun heq => he (by rw [heq,hk])
      rw [Holds,hk,Kind.Relates,ho,← hl] at h'
      refine Iff.trans ?_ (⟨fun hd _ _ _ => hd,fun hal => hal rfl hn hf⟩ : FitsInt32 (d+other.offset-c) ↔ _)
      simp only [mem_some_iff,forall_eq',Holds,withKind,Kind.Relates,hr,h',wrap]
      omega
    | notEqual =>
      revert hv he
      cases r.kind <;> simp [Kind.vagueness]
    | lessThan | greaterThan => exact iff_of_true (by simpa using h) fun heq => nomatch heq
  · exact iff_of_true (by simpa using h) fun _ _ hs => absurd hs hf

/-- Two bounds that are the same for machine arithmetic differ for some int32. -/
theorem exists_not_relates_iff (kind : Kind) {s t : Int} (hw : wrap s = wrap t) (hn : s ≠ t) (hs : -2^32 ≤ s ∧ s < 2^32 - 1)
    (ht : -2^32 ≤ t ∧ t < 2^32 - 1) : ∃ x, FitsInt32 x ∧ ¬ (kind.Relates x s ↔ kind.Relates x t) := by
  rw [wrap,wrap] at hw
  cases kind <;> simp only [Kind.Relates]
  · exact ⟨max (min s t) (-2^31),by omega,by omega⟩
  · by_cases h : FitsInt32 s
    · exact ⟨s,h,by omega⟩
    · exact ⟨t,by omega,by omega⟩
  · by_cases h : FitsInt32 s
    · exact ⟨s,h,by omega⟩
    · exact ⟨t,by omega,by omega⟩
  · exact ⟨min (max s t) (2^31-1),by omega,by omega⟩

theorem exists_assignment (constants : Constants ν) (node : ν) {x : Int} (hx : FitsInt32 x)
    (h : ∀ c, constants.asInt32 node = some c → c = x) : ∃ v : Assignment constants, v.value node = x := by
  refine ⟨⟨fun n => if n = node then x else (constants.asInt32 n).getD 0,fun n => ?_,fun n c hc => ?_⟩,if_pos rfl⟩
  · split_ifs
    · exact hx
    · cases hn : constants.asInt32 n with
      | none => decide
      | some c => exact constants.fits n c hn
  · split_ifs with hn
    · exact (h c (hn ▸ hc)).symm
    · rw [hc,getD_some]

/-- Such bounds are the same for all assignments only if they are equal or the left node is a constant on one side of both. -/
theorem forall_holds_iff {c d : Int} (hc : constants.asInt32 r.right = some c) (hd : constants.asInt32 other.right = some d)
    (hl : r.left = other.left) (hk : r.kind = other.kind) (hw : wrap (c+r.offset) = wrap (d+other.offset)) :
    (∀ v : Assignment constants, r.Holds v ↔ other.Holds v) ↔ c + r.offset = d + other.offset ∨
      ∃ x, constants.asInt32 r.left = some x ∧ (r.kind.Relates x (c+r.offset) ↔ r.kind.Relates x (d+other.offset)) := by
  have hi (v : Assignment constants) : (r.Holds v ↔ other.Holds v) ↔
      (r.kind.Relates (v.value r.left) (c+r.offset) ↔ r.kind.Relates (v.value r.left) (d+other.offset)) := by
    rw [Holds,Holds,v.constant _ c hc,v.constant _ d hd,hl,hk]
  simp only [hi]
  constructor
  · intro h
    cases hx : constants.asInt32 r.left with
    | none =>
      by_contra hn
      have := constants.fits _ c hc
      have := constants.fits _ d hd
      have := r.fits
      have := other.fits
      obtain ⟨x,hf,hx'⟩ := exists_not_relates_iff r.kind hw (fun he => hn (.inl he)) (by omega) (by omega)
      obtain ⟨v,rfl⟩ := exists_assignment constants r.left hf (by simp [hx])
      exact hx' (h v)
    | some x =>
      obtain ⟨v,rfl⟩ := exists_assignment constants r.left (constants.fits _ x hx) (by simp [hx])
      exact .inr ⟨_,rfl,h v⟩
  · rintro (he | ⟨x,hx,h⟩) v
    · rw [he]
    · rwa [v.constant _ x hx]

/-- What the conjunction of two relationships and their equivalence are used for. -/
def Sound (constants : Constants ν) (r other : Relationship ν) : Prop :=
  ∀ v : Assignment constants,
    (r.left = other.left ∧ r.right = other.right → r.Holds v → other.Holds v → ∀ result ∈ r.filter other, result.Holds v) ∧
    (r.left = other.left ∧ other.kind.vagueness ≤ r.kind.vagueness → r.Holds v → other.Holds v →
      ∀ result ∈ filterConstant constants r other, result.Holds v) ∧
    (isEquivalentTo constants r other → (r.Holds v ↔ other.Holds v))

theorem sound_iff (constants : Constants ν) (r other : Relationship ν) : Sound constants r other ↔
    ∀ c d, constants.asInt32 r.right = some c → constants.asInt32 other.right = some d → r.left = other.left →
      (other.kind = .equal → r.kind ≠ .equal → FitsInt32 (d+other.offset) → ¬ FitsInt32 (d+other.offset-c) →
        ∀ v : Assignment constants, ¬ (r.Holds v ∧ other.Holds v)) ∧
      (r.kind = other.kind → wrap (c+r.offset) = wrap (d+other.offset) → c + r.offset = d + other.offset ∨
        ∃ x, constants.asInt32 r.left = some x ∧ (r.kind.Relates x (c+r.offset) ↔ r.kind.Relates x (d+other.offset))) := by
  constructor
  · intro h c d hc hd hl
    refine ⟨fun he hn hs ho v ⟨hr,hr'⟩ => ho ?_,fun hk hw => (forall_holds_iff hc hd hl hk hw).1 fun v => (h v).2.2 ?_⟩
    · have hv : other.kind.vagueness ≤ r.kind.vagueness := he ▸ Nat.zero_le _
      exact (filterConstant_holds_iff v hc hd hl hv hr hr').1 ((h v).2.1 ⟨hl,hv⟩ hr hr') he hn hs
    · simp [isEquivalentTo,hl,hk,hc,hd,hw]
  · intro h v
    refine ⟨fun hn hr hr' result hrs => filter_holds v hn hr hr' hrs,fun ⟨hl,hv⟩ hr hr' => ?_,fun he => ?_⟩
    · cases hc : constants.asInt32 r.right with
      | none => simp [filterConstant,hc]
      | some c =>
        cases hd : constants.asInt32 other.right with
        | none => simp [filterConstant,hc,hd]
        | some d =>
          refine (filterConstant_holds_iff v hc hd hl hv hr hr').2 fun he hn hs => ?_
          exact not_not.1 fun ho => (h c d hc hd hl).1 he hn hs ho v ⟨hr,hr'⟩
    · rw [isEquivalentTo] at he
      split_ifs at he with hn heq
      · rw [heq]
      · obtain ⟨hl,hk⟩ : r.left = other.left ∧ r.kind = other.kind := by simpa [not_or] using hn
        split at he
        next c d hc hd =>
          have hw := of_decide_eq_true he
          exact (forall_holds_iff hc hd hl hk hw).2 ((h c d hc hd hl).2 hk hw) v
        · cases he

def exampleConstants : Constants (Fin 3) where
  asInt32 node := if node = 0 then none else if node = 1 then some (-1) else some (2^31-1)
  fits := by decide

theorem filterConstant_wraps :
    ¬ Sound exampleConstants ⟨0,1,.notEqual,0,by decide,by decide⟩ ⟨0,2,.equal,0,by decide,by decide⟩ := by
  intro h
  obtain ⟨v,hv⟩ := @exists_assignment _ _ exampleConstants 0 (2^31-1) (by decide) (by decide)
  have ho := v.constant 1 (-1) rfl
  have ht := v.constant 2 (2^31-1) rfl
  have hr := (h v).2.1 (by decide) (by simp only [Holds,hv,ho,Kind.Relates]; decide)
    (by simp only [Holds,hv,ht,Kind.Relates]; decide) _ rfl
  simp only [Holds,withKind,hv,ho,Kind.Relates] at hr
  revert hr
  decide

end Relationship
end WebKit.JavaScriptCore.DFG
