import Mathlib.Data.List.Forall2

/-! A sorted chain of character ranges with data, and its merge with another sorted sequence of ranges. -/
namespace WebKit.ContentExtensions
open List
open Option hiding map_map

structure MutableRange (δ : Type*) where
  first : Nat
  last : Nat
  data : δ
  deriving DecidableEq, Repr

/-- How the other sequence's data enters a range list, and how its own is copied. -/
structure DataConverter (δ ε : Type*) where
  convert : ε → δ
  extend : δ → ε → δ
  copy : δ → δ

namespace MutableRangeList
variable {δ ε : Type*}

def initializeFrom (converter : DataConverter δ ε) (other : List (MutableRange ε)) : List (MutableRange δ) :=
  other.map fun range => ⟨range.first,range.last,converter.convert range.data⟩

/-- The merge loop. The offset counts the characters of the other's current range that are already merged. -/
def extendLoop (converter : DataConverter δ ε) :
    List (MutableRange δ) → List (MutableRange ε) → Nat → List (MutableRange δ)
  | self, [], _ => self
  | [], other::others, offset =>
    ⟨other.first + offset,other.last,converter.convert other.data⟩ :: initializeFrom converter others
  | active::self, other::others, offset =>
    if active.last < other.first + offset then active :: extendLoop converter self (other::others) offset
    else if other.last < active.first then
      ⟨other.first + offset,other.last,converter.convert other.data⟩ ::
        extendLoop converter (active::self) others 0
    else
      -- A part on the left of one side becomes a range of its own; then both start together.
      let left : List (MutableRange δ) :=
        if active.first < other.first + offset then
          [⟨active.first,other.first + offset - 1,converter.copy active.data⟩]
        else if other.first + offset < active.first then
          [⟨other.first + offset,active.first - 1,converter.convert other.data⟩]
        else []
      let start := if active.first < other.first + offset then other.first + offset else active.first
      left ++
        if active.last = other.last then
          ⟨start,active.last,converter.extend active.data other.data⟩ :: extendLoop converter self others 0
        else if other.last < active.last then
          ⟨start,other.last,converter.extend (converter.copy active.data) other.data⟩ ::
            extendLoop converter (⟨other.last + 1,active.last,active.data⟩ :: self) others 0
        else
          ⟨start,active.last,converter.extend active.data other.data⟩ ::
            extendLoop converter self (other::others) (active.last-other.first+1)
  termination_by self other _ => self.length + other.length

def extend (converter : DataConverter δ ε) (self : List (MutableRange δ)) (other : List (MutableRange ε)) :
    List (MutableRange δ) :=
  if other.isEmpty then self
  else if self.isEmpty then initializeFrom converter other
  else extendLoop converter self other 0

/-- Sorted, disjoint and nonempty ranges from a character on. -/
def OrderedFrom : Nat → List (MutableRange δ) → Prop
  | _, [] => True
  | low, range::ranges => low ≤ range.first ∧ range.first ≤ range.last ∧ OrderedFrom (range.last+1) ranges

def dataAt : List (MutableRange δ) → Nat → Option δ
  | [], _ => none
  | range::ranges, c => if range.first ≤ c ∧ c ≤ range.last then some range.data else dataAt ranges c

/-- The merged data at a character, from that of the two sides. -/
def merged (converter : DataConverter δ ε) : Option δ → Option ε → Option δ
  | none, none => none
  | some d, none => some d
  | none, some e => some (converter.convert e)
  | some d, some e => some (converter.extend d e)

/-- What is left of the other side after the first characters of its current range. -/
def advance : List (MutableRange ε) → Nat → List (MutableRange ε)
  | [], _ => []
  | other::others, offset => ⟨other.first + offset,other.last,other.data⟩ :: others

section
variable {S : Type*} (sem : δ → S) (converter : DataConverter δ ε)

/-- The converter respects what data means: copies mean the same, also when extended. -/
structure Lawful : Prop where
  copy : ∀ d, sem (converter.copy d) = sem d
  extend_copy : ∀ d e, sem (converter.extend (converter.copy d) e) = sem (converter.extend d e)

/-- A sorted list with the merged data of both sides. -/
def Merges (low : Nat) (self : List (MutableRange δ)) (other : List (MutableRange ε))
    (result : List (MutableRange δ)) : Prop :=
  OrderedFrom low result ∧
    ∀ c, (dataAt result c).map sem = (merged converter (dataAt self c) (dataAt other c)).map sem

end

variable {low c : Nat} {ranges : List (MutableRange δ)} {r : MutableRange δ}

theorem OrderedFrom.mono {low' : Nat} (h : OrderedFrom low ranges) (hl : low' ≤ low) : OrderedFrom low' ranges := by
  cases ranges with
  | nil => trivial
  | cons rn ranges => exact ⟨Nat.le_trans hl h.1,h.2⟩

theorem OrderedFrom.dataAt_eq_none (h : OrderedFrom low ranges) (hc : c < low) : dataAt ranges c = none := by
  induction ranges generalizing low with
  | nil => rfl
  | cons rn ranges ih =>
    obtain ⟨h1,h2,h3⟩ := h
    rw [dataAt,if_neg (by omega)]
    exact ih h3 (by omega)

theorem dataAt_cons_of_lt {fr l : Nat} {d : δ}
    (h : c < fr ∨ l < c) : dataAt (⟨fr,l,d⟩ :: ranges) c = dataAt ranges c :=
  if_neg (by dsimp only; omega)

theorem dataAt_cons_of_mem {fr l : Nat} {data : δ}
    (h : fr ≤ c) (h' : c ≤ l) : dataAt (⟨fr,l,data⟩ :: ranges) c = some data :=
  if_pos ⟨h,h'⟩

section
variable {S : Type*} {sem : δ → S} {converter : DataConverter δ ε}

theorem merged_none_right (d : Option δ) : merged converter d none = d := by
  cases d <;> rfl

private theorem merged_none_left (e : Option ε) : merged converter none e = e.map converter.convert := by
  cases e <;> rfl

variable {other : List (MutableRange ε)} {self : List (MutableRange δ)}

theorem initializeFrom_spec {low : Nat} (ho : OrderedFrom low other) :
    Merges sem converter low [] other (initializeFrom converter other) := by
  induction other generalizing low with
  | nil => exact ⟨trivial,fun _ => rfl⟩
  | cons rn os ih =>
    obtain ⟨h1,h2,h3⟩ := ho
    obtain ⟨io,id⟩ := ih h3
    refine ⟨⟨h1,h2,io⟩,fun c => ?_⟩
    have hc := id c
    simp only [initializeFrom,map_cons,dataAt,merged_none_left] at hc ⊢
    split_ifs
    · rfl
    · exact hc

variable {result : List (MutableRange δ)}

theorem Merges.mono {low low' : Nat}
    (h : Merges sem converter low self other result) (hl : low' ≤ low) :
    Merges sem converter low' self other result :=
  ⟨h.1.mono hl,h.2⟩

/-- A range before the merge of what remains above it. -/
theorem Merges.cons {low fr l : Nat} {d : δ} {self' : List (MutableRange δ)}
    {other' : List (MutableRange ε)}
    (hrs : Merges sem converter (l+1) self' other' result) (hl : low ≤ fr) (hrn : fr ≤ l)
    (hb : ∀ c, c < fr → dataAt self c = none ∧ dataAt other c = none)
    (hi : ∀ c, fr ≤ c → c ≤ l →
      some (sem d) = (merged converter (dataAt self c) (dataAt other c)).map sem)
    (hsl : ∀ c, l < c → dataAt self' c = dataAt self c)
    (hot : ∀ c, l < c → dataAt other' c = dataAt other c) :
    Merges sem converter low self other (⟨fr,l,d⟩ :: result) := by
  refine ⟨⟨hl,hrn,hrs.1⟩,fun c => ?_⟩
  rcases Nat.lt_or_ge c fr with h | h
  · obtain ⟨hs,ho⟩ := hb c h
    rw [dataAt_cons_of_lt (.inl h),hrs.1.dataAt_eq_none (by omega),hs,ho]
    rfl
  rcases Nat.lt_or_ge l c with h' | h'
  · rw [dataAt_cons_of_lt (.inr h'),hrs.2 c,hsl c h',hot c h']
  · rw [dataAt_cons_of_mem h h',map_some]
    exact hi c h h'

theorem advance_zero (other : List (MutableRange ε)) : advance other 0 = other := by
  cases other <;> rfl

section
variable (h : Lawful sem converter)
include h

/-- From the same character on: the shorter range decides where the merged one ends. -/
theorem aligned_spec (s l l' : Nat) (d : δ) (e : ε)
    {os : List (MutableRange ε)} {sm a b : List (MutableRange δ)}
    (hs : OrderedFrom s (⟨s,l,d⟩ :: self)) (ho : OrderedFrom s (⟨s,l',e⟩ :: os))
    (hsm : l = l' → Merges sem converter (l+1) self os sm)
    (ha : l' < l → Merges sem converter (l'+1) (⟨l' + 1,l,d⟩ :: self) os a)
    (hby : l < l' → Merges sem converter (l+1) self (⟨l + 1,l',e⟩ :: os) b) :
    Merges sem converter s (⟨s,l,d⟩ :: self) (⟨s,l',e⟩ :: os)
      (if l = l' then ⟨s,l,converter.extend d e⟩ :: sm
        else if l' < l then ⟨s,l',converter.extend (converter.copy d) e⟩ :: a
        else ⟨s,l,converter.extend d e⟩ :: b) := by
  have hb (c : Nat) (hc : c < s) :
      dataAt (⟨s,l,d⟩ :: self) c = none ∧ dataAt (⟨s,l',e⟩ :: os) c = none :=
    ⟨hs.dataAt_eq_none hc,ho.dataAt_eq_none hc⟩
  obtain ⟨-,hl,-⟩ := hs
  obtain ⟨-,hl',-⟩ := ho
  dsimp only at hl hl'
  have hi (c : Nat) (h1 : s ≤ c) (h2 : c ≤ l) (h3 : c ≤ l') :
      merged converter (dataAt (⟨s,l,d⟩ :: self) c) (dataAt (⟨s,l',e⟩ :: os) c) =
        some (converter.extend d e) := by
    rw [dataAt_cons_of_mem h1 h2,dataAt_cons_of_mem h1 h3]
    rfl
  split_ifs with he hlt
  · subst he
    refine (hsm rfl).cons (Nat.le_refl _) hl hb (fun c h1 h2 => ?_) (fun c hc => ?_) (fun c hc => ?_)
    · rw [hi c h1 h2 h2]
      rfl
    · exact (dataAt_cons_of_lt (.inr hc)).symm
    · exact (dataAt_cons_of_lt (.inr hc)).symm
  · refine (ha hlt).cons (Nat.le_refl _) hl' hb (fun c h1 h2 => ?_) (fun c hc => ?_) (fun c hc => ?_)
    · rw [hi c h1 (by omega) h2,map_some,h.extend_copy]
    · simp only [dataAt]
      split_ifs <;> first | rfl | omega
    · exact (dataAt_cons_of_lt (.inr hc)).symm
  · refine (hby (by omega)).cons (Nat.le_refl _) hl hb (fun c h1 h2 => ?_) (fun c hc => ?_) (fun c hc => ?_)
    · rw [hi c h1 h2 (by omega)]
      rfl
    · exact (dataAt_cons_of_lt (.inr hc)).symm
    · simp only [dataAt]
      split_ifs <;> first | rfl | omega

private theorem extendLoop_spec (self : List (MutableRange δ)) (other : List (MutableRange ε))
    (o low : Nat) (hs : OrderedFrom low self) (ho : OrderedFrom low (advance other o)) :
    Merges sem converter low self (advance other o) (extendLoop converter self other o) := by
  induction self, other, o using extendLoop.induct converter generalizing low with
  | case1 self o =>
    rw [extendLoop]
    exact ⟨hs,fun c => by rw [advance,dataAt,merged_none_right]⟩
  | case2 other os o =>
    rw [extendLoop]
    exact initializeFrom_spec ho
  | case3 a self other os o hbf ih =>
    rw [extendLoop,if_pos hbf]
    obtain ⟨hs1,hs2,hs3⟩ := hs
    have ho' : OrderedFrom (a.last+1) (advance (other::os) o) := ⟨hbf,ho.2⟩
    refine (ih _ hs3 ho').cons hs1 hs2 (fun c hc => ⟨?_,?_⟩) (fun c h1 h2 => ?_) (fun c hc => ?_) (fun c hc => rfl)
    · rw [dataAt_cons_of_lt (.inl hc),hs3.dataAt_eq_none (by omega)]
    · exact ho'.dataAt_eq_none (by omega)
    · rw [dataAt_cons_of_mem h1 h2,ho'.dataAt_eq_none (by omega)]
      rfl
    · exact (dataAt_cons_of_lt (.inr hc)).symm
  | case4 a self other os o hn ha ih =>
    rw [extendLoop,if_neg hn,if_pos ha]
    obtain ⟨ho1,ho2,ho3⟩ := ho
    dsimp only at ho1 ho2 ho3
    rw [advance_zero] at ih
    have hs' : OrderedFrom (other.last+1) (a::self) := ⟨ha,hs.2⟩
    refine (ih _ hs' ho3).cons ho1 ho2 (fun c hc => ⟨?_,?_⟩) (fun c h1 h2 => ?_) (fun c hc => rfl) (fun c hc => ?_)
    · exact hs'.dataAt_eq_none (by omega)
    · rw [advance,dataAt_cons_of_lt (.inl hc),ho3.dataAt_eq_none (by omega)]
    · rw [hs'.dataAt_eq_none (by omega),advance,dataAt_cons_of_mem h1 h2]
      rfl
    · exact (dataAt_cons_of_lt (.inr hc)).symm
  | case5 a self other os o hn hn' ihs i ihb =>
    rw [extendLoop,if_neg hn,if_neg hn']
    rw [advance_zero] at ihs i
    obtain ⟨hs1,hs2,hs3⟩ := hs
    obtain ⟨ho1,ho2,ho3⟩ := ho
    dsimp only at ho1 ho2 ho3
    have hsl : OrderedFrom a.first (a::self) := ⟨Nat.le_refl _,hs2,hs3⟩
    have hmd (start : Nat) (h1 : start ≤ a.last) (h2 : start ≤ other.last)
        (h3 : other.first ≤ a.last) :=
      aligned_spec h start a.last other.last a.data other.data
        ⟨Nat.le_refl _,h1,hs3⟩ ⟨Nat.le_refl _,h2,ho3⟩ (fun he => ihs _ hs3 (he ▸ ho3))
        (fun hlt => i _ ⟨Nat.le_refl _,hlt,hs3⟩ ho3)
        (fun hlt => by
          have hb := ihb (a.last+1) hs3 (by
            rw [advance,show other.first + (a.last-other.first+1) = a.last + 1 by omega]
            exact ⟨Nat.le_refl _,hlt,ho3⟩)
          rwa [advance,show other.first + (a.last-other.first+1) = a.last + 1 by omega] at hb)
    rcases Nat.lt_trichotomy a.first (other.first+o) with hl | hl | hl
    · rw [if_pos hl,if_pos hl]
      have hm := (hmd (other.first+o) (by omega) ho2 (by omega)).mono
        (show other.first + o - 1 + 1 ≤ other.first + o by omega)
      refine hm.cons hs1 (by omega) (fun c hc => ⟨?_,?_⟩) (fun c h1 h2 => ?_) (fun c hc => ?_) (fun c hc => rfl)
      · exact hsl.dataAt_eq_none hc
      · rw [advance,dataAt_cons_of_lt (by omega),ho3.dataAt_eq_none (by omega)]
      · rw [dataAt_cons_of_mem h1 (by omega),advance,dataAt_cons_of_lt (by omega),ho3.dataAt_eq_none (by omega),
          merged_none_right,map_some,h.copy]
      · simp only [dataAt]
        split_ifs <;> first | rfl | omega
    · rw [if_neg (by omega),if_neg (by omega),if_neg (by omega)]
      have hm := (hmd a.first hs2 (by omega) (by omega)).mono hs1
      rw [advance,← hl]
      exact hm
    · rw [if_neg (by omega),if_pos hl,if_neg (by omega)]
      have hm := (hmd a.first hs2 (by omega) (by omega)).mono
        (show a.first - 1 + 1 ≤ a.first by omega)
      refine hm.cons ho1 (by omega) (fun c hc => ⟨?_,?_⟩) (fun c h1 h2 => ?_) (fun c hc => rfl) (fun c hc => ?_)
      · exact hsl.dataAt_eq_none (by omega)
      · rw [advance,dataAt_cons_of_lt (by omega),ho3.dataAt_eq_none (by omega)]
      · rw [hsl.dataAt_eq_none (by omega),advance,
          dataAt_cons_of_mem h1 (by omega)]
        rfl
      · simp only [advance,dataAt]
        split_ifs <;> first | rfl | omega

theorem extend_spec
    (hs : OrderedFrom 0 self) (ho : OrderedFrom 0 other) :
    Merges sem converter 0 self other (extend converter self other) := by
  unfold extend
  split
  next he =>
    rw [List.isEmpty_iff] at he
    subst he
    exact ⟨hs,fun c => by rw [dataAt,merged_none_right]⟩
  · split
    next he =>
      rw [List.isEmpty_iff] at he
      subst he
      exact initializeFrom_spec ho
    · have hl := extendLoop_spec h self other 0 0 hs (by rwa [advance_zero])
      rwa [advance_zero] at hl

end

private theorem extendLoop_forall {P : δ → Prop} (hcp : ∀ d, P d → P (converter.copy d))
    (self : List (MutableRange δ)) (other : List (MutableRange ε)) (of : Nat)
    (hc : ∀ r ∈ other, P (converter.convert r.data))
    (he : ∀ r ∈ other, ∀ d, P d → P (converter.extend d r.data)) (hs : ∀ r ∈ self, P r.data) :
    ∀ r ∈ extendLoop converter self other of, P r.data := by
  induction self, other, of using extendLoop.induct converter with
  | case1 self of => rwa [extendLoop]
  | case2 other os of =>
    rw [extendLoop,forall_mem_cons] at *
    refine ⟨hc.1,fun r hr => ?_⟩
    obtain ⟨o,ho,rfl⟩ := mem_map.1 hr
    exact hc.2 o ho
  | case3 a self other os of hbf ih =>
    rw [extendLoop,if_pos hbf]
    rw [forall_mem_cons] at hs ⊢
    exact ⟨hs.1,ih hc he hs.2⟩
  | case4 a self other os of hn ha ih =>
    rw [extendLoop,if_neg hn,if_pos ha]
    rw [forall_mem_cons] at hc he ⊢
    exact ⟨hc.1,ih hc.2 he.2 hs⟩
  | case5 a self other os of hn hn' ihs ihb i =>
    rw [extendLoop,if_neg hn,if_neg hn']
    have hal := i hc he (forall_mem_cons.1 hs).2
    rw [forall_mem_cons] at hc he hs
    refine forall_mem_append.2 ⟨?_,?_⟩
    · split_ifs
      · exact forall_mem_singleton.2 (hcp _ hs.1)
      · exact forall_mem_singleton.2 hc.1
      · simp
    · have hb := he.1 _ hs.1
      generalize (if a.first < other.first + of then other.first + of else a.first) = s
      split_ifs
      · exact forall_mem_cons.2 ⟨hb,ihs hc.2 he.2 hs.2⟩
      · exact forall_mem_cons.2 ⟨he.1 _ (hcp _ hs.1),ihb hc.2 he.2
          (forall_mem_cons.2 hs)⟩
      · exact forall_mem_cons.2 ⟨hb,hal⟩

/-- What the converter keeps holds of all data of the merge. -/
theorem extend_forall {P : δ → Prop}
    (hcp : ∀ d, P d → P (converter.copy d)) (hc : ∀ r ∈ other, P (converter.convert r.data))
    (he : ∀ r ∈ other, ∀ d, P d → P (converter.extend d r.data)) (hs : ∀ r ∈ self, P r.data) :
    ∀ r ∈ extend converter self other, P r.data := by
  unfold extend
  split
  · exact hs
  · split
    · intro r hr
      obtain ⟨o,ho,rfl⟩ := mem_map.1 hr
      exact hc o ho
    · exact extendLoop_forall hcp self other 0 hc he hs

end

theorem mem_of_dataAt {d : δ} (h : dataAt ranges c = some d) : ∃ r ∈ ranges, r.first ≤ c ∧ c ≤ r.last ∧ r.data = d := by
  induction ranges with
  | nil => cases h
  | cons rn ranges ih =>
    rw [dataAt] at h
    split_ifs at h with hc
    · exact ⟨rn,mem_cons_self,hc.1,hc.2,some.inj h⟩
    · obtain ⟨r,hr,hrs⟩ := ih h
      exact ⟨r,mem_cons_of_mem _ hr,hrs⟩

section
variable (h : OrderedFrom low ranges) (hr : r ∈ ranges)
include h hr

theorem OrderedFrom.dataAt_of_mem (h1 : r.first ≤ c) (h2 : c ≤ r.last) : dataAt ranges c = some r.data := by
  induction ranges generalizing low with
  | nil => cases hr
  | cons rn ranges ih =>
    obtain ⟨-,-,h3⟩ := h
    rcases mem_cons.1 hr with rfl | hm
    · exact if_pos ⟨h1,h2⟩
    · have hrs := ih h3 hm
      rw [dataAt,if_neg,hrs]
      rintro ⟨-,hl⟩
      rw [h3.dataAt_eq_none (by omega)] at hrs
      cases hrs

theorem OrderedFrom.first_le_last : r.first ≤ r.last := by
  induction ranges generalizing low with
  | nil => cases hr
  | cons rn ranges ih =>
    obtain ⟨-,h2,h3⟩ := h
    rcases mem_cons.1 hr with rfl | hm
    · exact h2
    · exact ih h3 hm

theorem OrderedFrom.le_first : low ≤ r.first := by
  induction ranges generalizing low with
  | nil => cases hr
  | cons rn ranges ih =>
    rcases mem_cons.1 hr with rfl | hm
    · exact h.1
    · have hrs := ih h.2.2 hm
      have hl := h.1
      have hrn := h.2.1
      omega

end

theorem Merges.last_le {S : Type*} {sem : δ → S} {converter : DataConverter δ ε} {bound : Nat}
    {self result : List (MutableRange δ)} {other : List (MutableRange ε)} (h : Merges sem converter low self other result)
    (hsl : ∀ r ∈ self, r.last ≤ bound) (hot : ∀ r ∈ other, r.last ≤ bound) : ∀ r ∈ result, r.last ≤ bound := by
  intro r hr
  have hdt := h.1.dataAt_of_mem hr (h.1.first_le_last hr) (Nat.le_refl _)
  have hm := h.2 r.last
  rw [hdt,map_some] at hm
  cases hs : dataAt self r.last with
  | some d =>
    obtain ⟨r',hr',-,hl,-⟩ := mem_of_dataAt hs
    exact Nat.le_trans hl (hsl r' hr')
  | none =>
    cases ho : dataAt other r.last with
    | some e =>
      obtain ⟨r',hr',-,hl,-⟩ := mem_of_dataAt ho
      exact Nat.le_trans hl (hot r' hr')
    | none =>
      rw [hs,ho] at hm
      cases hm

def SameRanges (R : δ → ε → Prop) (ranges : List (MutableRange δ)) (ranges' : List (MutableRange ε)) : Prop :=
  List.Forall₂ (fun r r' => r.first = r'.first ∧ r.last = r'.last ∧ R r.data r'.data) ranges ranges'

namespace SameRanges
variable {R : δ → ε → Prop} {ranges : List (MutableRange δ)} {ranges' : List (MutableRange ε)}

section
variable (h : SameRanges R ranges ranges')
include h

theorem dataAt_rel (c : Nat) : Option.Rel R (dataAt ranges c) (dataAt ranges' c) := by
  induction h with
  | nil => exact .none
  | cons hr _ ih =>
    obtain ⟨hf,hl,hdt⟩ := hr
    rw [dataAt,dataAt,hf,hl]
    split
    · exact .some hdt
    · exact ih

theorem ordered {low : Nat} (ho : OrderedFrom low ranges') : OrderedFrom low ranges := by
  induction h generalizing low with
  | nil => trivial
  | cons hr _ ih =>
    obtain ⟨hf,hl,-⟩ := hr
    obtain ⟨hlw,hrn,hrs⟩ := ho
    refine ⟨?_,?_,ih ?_⟩
    · rw [hf]
      exact hlw
    · rw [hf,hl]
      exact hrn
    · rw [hl]
      exact hrs

theorem exists_of_mem {r : MutableRange δ} (hr : r ∈ ranges) :
    ∃ r' ∈ ranges', r.first = r'.first ∧ r.last = r'.last ∧ R r.data r'.data := by
  induction h with
  | nil => cases hr
  | cons hh _ ih =>
    rcases mem_cons.1 hr with rfl | hr
    · exact ⟨_,mem_cons_self,hh⟩
    · obtain ⟨r',hm,hrl⟩ := ih hr
      exact ⟨r',mem_cons_of_mem _ hm,hrl⟩

end

theorem mono {R' : δ → ε → Prop} (hR : ∀ d e, R d e → R' d e) (h : SameRanges R ranges ranges') :
    SameRanges R' ranges ranges' :=
  h.imp fun _ _ hr => ⟨hr.1,hr.2.1,hR _ _ hr.2.2⟩

end SameRanges

theorem OrderedFrom.length_le {b : Nat} (h : OrderedFrom low ranges)
    (hb : ∀ r ∈ ranges, r.last ≤ b) : ranges.length ≤ b + 1 - low := by
  induction ranges generalizing low with
  | nil => exact Nat.zero_le _
  | cons rn ranges ih =>
    obtain ⟨hl,hrs⟩ := forall_mem_cons.1 hb
    have hln := ih h.2.2 hrs
    have hlw := h.1
    have hrn := h.2.1
    rw [length_cons]
    omega

section
variable {δ' ε' : Type*} {converter : DataConverter δ ε} {converter' : DataConverter δ' ε'} {f : δ → δ'} {g : ε → ε'}

def mapData (f : δ → ε) (ranges : List (MutableRange δ)) : List (MutableRange ε) :=
  ranges.map fun r => ⟨r.first,r.last,f r.data⟩

/-- Functions of the data that the converters commute with. -/
structure Natural (converter : DataConverter δ ε) (converter' : DataConverter δ' ε') (f : δ → δ') (g : ε → ε') : Prop where
  convert : ∀ e, f (converter.convert e) = converter'.convert (g e)
  extend : ∀ d e, f (converter.extend d e) = converter'.extend (f d) (g e)
  copy : ∀ d, f (converter.copy d) = converter'.copy (f d)

theorem dataAt_mapData (f : δ → ε) (ranges : List (MutableRange δ)) (c : Nat) :
    dataAt (mapData f ranges) c = (dataAt ranges c).map f := by
  induction ranges with
  | nil => rfl
  | cons rn ranges ih =>
    change (if _ then _ else dataAt (mapData f ranges) c) = (if _ then _ else _ : Option δ).map f
    rw [ih]
    split <;> rfl

theorem orderedFrom_mapData {f : δ → ε} {low : Nat} {ranges : List (MutableRange δ)} :
    OrderedFrom low (mapData f ranges) ↔ OrderedFrom low ranges := by
  induction ranges generalizing low with
  | nil => exact Iff.rfl
  | cons rn ranges ih => exact and_congr_right fun _ => and_congr_right fun _ => ih

section
variable (h : Natural converter converter' f g)
include h

theorem initializeFrom_mapData (other : List (MutableRange ε)) :
    initializeFrom converter' (mapData g other) = mapData f (initializeFrom converter other) := by
  simp [initializeFrom,mapData,h.convert]

private theorem extendLoop_mapData (self : List (MutableRange δ))
    (other : List (MutableRange ε)) (o : Nat) :
    extendLoop converter' (mapData f self) (mapData g other) o = mapData f (extendLoop converter self other o) := by
  induction self, other, o using extendLoop.induct converter with
  | case1 self o =>
    simp [mapData,extendLoop]
  | case2 other os o =>
    have hi := initializeFrom_mapData h os
    simp only [mapData,map_cons,map_nil,extendLoop] at hi ⊢
    rw [hi,h.convert]
  | case3 a self other os o hb ih =>
    rw [extendLoop,if_pos hb]
    simp only [mapData,map_cons] at ih ⊢
    rw [extendLoop,if_pos hb,ih]
  | case4 a self other os o hn ha ih =>
    rw [extendLoop,if_neg hn,if_pos ha]
    simp only [mapData,map_cons] at ih ⊢
    rw [extendLoop,if_neg hn,if_pos ha,ih,h.convert]
  | case5 a self other os o hn hn' ihs ihb i =>
    rw [extendLoop,if_neg hn,if_neg hn']
    simp only [mapData,map_cons] at ihs ihb i ⊢
    rw [extendLoop,if_neg hn,if_neg hn',ihs,ihb,i,map_append]
    split_ifs <;> simp [h.copy,h.convert,h.extend]

/-- The ranges of a merge do not depend on the data. -/
theorem extend_mapData (self : List (MutableRange δ))
    (other : List (MutableRange ε)) :
    extend converter' (mapData f self) (mapData g other) = mapData f (extend converter self other) := by
  unfold extend
  rw [show (mapData g other).isEmpty = other.isEmpty from isEmpty_map,
    show (mapData f self).isEmpty = self.isEmpty from isEmpty_map]
  split_ifs
  · rfl
  · exact initializeFrom_mapData h other
  · exact extendLoop_mapData h self other 0

end

end

/-- The bounds of the range at a character. -/
def rangeAt : List (MutableRange δ) → Nat → Option (Nat × Nat)
  | [], _ => none
  | range::ranges, c => if range.first ≤ c ∧ c ≤ range.last then some (range.first, range.last) else rangeAt ranges c

section
variable {converter : DataConverter δ ε} {self : List (MutableRange δ)} {other : List (MutableRange ε)}

/-- A converter that also records the ranges which its data comes from. -/
def tracking (converter : DataConverter δ ε) :
    DataConverter (δ × Option (Nat × Nat) × Option (Nat × Nat)) (ε × Nat × Nat) where
  convert e := (converter.convert e.1, none, some e.2)
  extend d e := (converter.extend d.1 e.1, d.2.1, some e.2)
  copy d := (converter.copy d.1, d.2)

def tracked {α : Type*} (data : δ → Nat × Nat → α) (ranges : List (MutableRange δ)) : List (MutableRange α) :=
  ranges.map fun r => ⟨r.first,r.last,data r.data (r.first, r.last)⟩

private theorem tracked_ordered {α : Type*} (d : δ → Nat × Nat → α) {ranges : List (MutableRange δ)} {low : Nat}
    (h : OrderedFrom low ranges) : OrderedFrom low (tracked d ranges) := by
  induction ranges generalizing low with
  | nil => trivial
  | cons rn ranges ih => exact ⟨h.1,h.2.1,ih h.2.2⟩

private theorem dataAt_tracked {α : Type*} (dt : δ → Nat × Nat → α) (ranges : List (MutableRange δ)) (c : Nat) :
    (dataAt (tracked dt ranges) c = none ∧ rangeAt ranges c = none) ∨
      ∃ d bounds, dataAt (tracked dt ranges) c = some (dt d bounds) ∧ rangeAt ranges c = some bounds := by
  induction ranges with
  | nil => exact .inl ⟨rfl,rfl⟩
  | cons rn ranges ih =>
    by_cases hc : rn.first ≤ c ∧ c ≤ rn.last
    · exact .inr ⟨rn.data,(rn.first, rn.last),if_pos hc,if_pos hc⟩
    · rcases ih with ⟨h1,h2⟩ | ⟨d,bounds,h1,h2⟩
      · exact .inl ⟨(if_neg hc).trans h1,(if_neg hc).trans h2⟩
      · exact .inr ⟨d,bounds,(if_neg hc).trans h1,(if_neg hc).trans h2⟩

/-- A range of a merge lies inside one range of each side, or outside of all. -/
theorem extend_aligned (hs : OrderedFrom 0 self) (ho : OrderedFrom 0 other) {r : MutableRange δ}
    (hr : r ∈ extend converter self other) {c : Nat} (hf : r.first ≤ c) (hls : c ≤ r.last) :
    rangeAt self c = rangeAt self r.first ∧ rangeAt other c = rangeAt other r.first := by
  have hn : Natural (tracking converter) converter Prod.fst Prod.fst := ⟨fun _ => rfl,fun _ _ => rfl,fun _ => rfl⟩
  have hl : Lawful Prod.snd (tracking converter) := ⟨fun _ => rfl,fun _ _ => rfl⟩
  have hsl : mapData Prod.fst (tracked (fun d bs => (d, some bs, (none : Option (Nat × Nat)))) self) = self := by
    rw [mapData,tracked,map_map]
    exact map_id _
  have hot : mapData Prod.fst (tracked Prod.mk other) = other := by
    rw [mapData,tracked,map_map]
    exact map_id _
  have hm := extend_mapData hn (tracked (fun d bs => (d, some bs, none)) self) (tracked Prod.mk other)
  rw [hsl,hot] at hm
  obtain ⟨hor,hdt⟩ := extend_spec hl (tracked_ordered (fun d bs => (d, some bs, none)) hs)
    (tracked_ordered Prod.mk ho)
  rw [hm] at hr
  obtain ⟨r',hr',rfl⟩ := mem_map.1 hr
  have hat : ∀ x, r'.first ≤ x → x ≤ r'.last → rangeAt self x = r'.data.2.1 ∧ rangeAt other x = r'.data.2.2 := by
    intro x h1 h2
    have hx := hdt x
    rw [hor.dataAt_of_mem hr' h1 h2,map_some] at hx
    obtain ⟨hd,ha⟩ | ⟨d,a,hd,ha⟩ := dataAt_tracked (fun d bs => (d, some bs, (none : Option (Nat × Nat)))) self x <;>
    obtain ⟨he,hb⟩ | ⟨e,b,he,hb⟩ := dataAt_tracked Prod.mk other x <;>
    rw [hd,he] at hx <;>
    rw [ha,hb]
    · cases hx
    · exact Prod.ext_iff.1 (some.inj hx).symm
    · exact Prod.ext_iff.1 (some.inj hx).symm
    · exact Prod.ext_iff.1 (some.inj hx).symm
  have hle := hor.first_le_last hr'
  obtain ⟨h1,h2⟩ := hat c hf hls
  obtain ⟨h1',h2'⟩ := hat r'.first (Nat.le_refl _) hle
  exact ⟨h1.trans h1'.symm,h2.trans h2'.symm⟩

end

theorem rangeAt_eq_none_iff : rangeAt ranges c = none ↔ dataAt ranges c = none := by
  induction ranges with
  | nil => exact iff_of_true rfl rfl
  | cons rn ranges ih =>
    rw [rangeAt,dataAt]
    split
    · simp
    · exact ih

theorem OrderedFrom.rangeAt_of_mem (h : OrderedFrom low ranges)
    (hr : r ∈ ranges) (h1 : r.first ≤ c) (h2 : c ≤ r.last) : rangeAt ranges c = some (r.first, r.last) := by
  induction ranges generalizing low with
  | nil => cases hr
  | cons rn ranges ih =>
    rcases mem_cons.1 hr with rfl | hm
    · exact if_pos ⟨h1,h2⟩
    · have hl := h.2.2.le_first hm
      rw [rangeAt,if_neg (by omega)]
      exact ih h.2.2 hm

theorem mem_of_rangeAt {bs : Nat × Nat} (h : rangeAt ranges c = some bs) :
    ∃ r ∈ ranges, r.first ≤ c ∧ c ≤ r.last ∧ bs = (r.first, r.last) := by
  induction ranges with
  | nil => cases h
  | cons rn ranges ih =>
    rw [rangeAt] at h
    split at h
    next hc => exact ⟨rn,mem_cons_self,hc.1,hc.2,(some.inj h).symm⟩
    · obtain ⟨r,hr,hrs⟩ := ih h
      exact ⟨r,mem_cons_of_mem _ hr,hrs⟩

theorem OrderedFrom.dataAt_congr {c' : Nat} (h : OrderedFrom low ranges)
    (he : rangeAt ranges c = rangeAt ranges c') : dataAt ranges c = dataAt ranges c' := by
  cases hc : rangeAt ranges c with
  | none => rw [rangeAt_eq_none_iff.1 hc,rangeAt_eq_none_iff.1 (he.symm.trans hc)]
  | some bs =>
    obtain ⟨r,hr,h1,h2,hb⟩ := mem_of_rangeAt hc
    obtain ⟨r',hr',h1',h2',hb'⟩ := mem_of_rangeAt (he.symm.trans hc)
    have hl := h.first_le_last hr
    have hf : r'.first = r.first := congrArg Prod.fst (hb'.symm.trans hb)
    have hdt := h.dataAt_of_mem hr (Nat.le_refl _) hl
    rw [h.dataAt_of_mem hr' (c := r.first) (by omega) (by omega)] at hdt
    rw [h.dataAt_of_mem hr h1 h2,h.dataAt_of_mem hr' h1' h2',hdt]

end MutableRangeList
end WebKit.ContentExtensions
