import Mathlib.Data.List.Nodup
import Mathlib.Data.List.Perm.Subperm
import WebKit.Base.Arrays

/-! The partition of the automaton minimizer. Its sets are intervals of one array with the marked elements first, which
refining splits off. -/
namespace WebKit.ContentExtensions
open WebKit.Base List Function Nat

structure SetDescriptor where
  start : Nat
  size : Nat
  markedCount : Nat
  deriving DecidableEq, Repr, Inhabited

namespace SetDescriptor

def indexAfterMarkedElements (set : SetDescriptor) : Nat := set.start + set.markedCount

def stop (set : SetDescriptor) : Nat := set.start + set.size

end SetDescriptor

/-- Arrays are functions of the index; the sets are counted. -/
structure Partition where
  size : Nat := 0
  sets : Nat → SetDescriptor := fun _ => default
  partitionedElements : Nat → Nat := fun _ => 0
  elementPositionInPartitionedNodes : Nat → Nat := fun _ => 0
  elementToSetMap : Nat → Nat := fun _ => 0
  setsMarkedInCurrentGeneration : List Nat := []

namespace Partition

def initializeWithSize (size : Nat) : Partition :=
  if size = 0 then {}
  else {
    size := 1
    sets := fun _ => ⟨0,size,0⟩
    partitionedElements := fun i => i
    elementPositionInPartitionedNodes := fun i => i
    elementToSetMap := fun _ => 0 }

def addSetUnchecked (p : Partition) (start size : Nat) : Partition :=
  { p with size := p.size + 1, sets := update p.sets p.size ⟨start,size,0⟩ }

def setElementUnchecked (p : Partition) (element position setIndex : Nat) : Partition :=
  { p with
    partitionedElements := update p.partitionedElements position element
    elementPositionInPartitionedNodes := update p.elementPositionInPartitionedNodes element position
    elementToSetMap := update p.elementToSetMap element setIndex }

def startOffsetOfSet (p : Partition) (setIndex : Nat) : Nat := (p.sets setIndex).start

/-- Swap an element with the first unmarked element of its set. -/
def markElementInCurrentGeneration (p : Partition) (element : Nat) : Partition :=
  let setIndex := p.elementToSetMap element
  let set := p.sets setIndex
  let position := p.elementPositionInPartitionedNodes element
  let firstUnmarkedPosition := set.indexAfterMarkedElements
  let firstUnmarked := p.partitionedElements firstUnmarkedPosition
  { p with
    partitionedElements :=
      update (update p.partitionedElements firstUnmarkedPosition element) position firstUnmarked
    elementPositionInPartitionedNodes :=
      update (update p.elementPositionInPartitionedNodes element firstUnmarkedPosition)
        firstUnmarked position
    setsMarkedInCurrentGeneration :=
      if set.markedCount = 0 then p.setsMarkedInCurrentGeneration ++ [setIndex] else p.setsMarkedInCurrentGeneration
    sets := update p.sets setIndex { set with markedCount := set.markedCount + 1 } }

def elementsOfSet (p : Partition) (setIndex : Nat) : List Nat :=
  (range' (p.sets setIndex).start (p.sets setIndex).size).map p.partitionedElements

/-- The set split off: the marked elements, if at most half of the set. -/
def newSet (set : SetDescriptor) : SetDescriptor :=
  if set.markedCount*2 ≤ set.size then ⟨set.start,set.markedCount,0⟩
  else ⟨set.start + set.markedCount,set.size - set.markedCount,0⟩

def remainingSet (set : SetDescriptor) : SetDescriptor :=
  if set.markedCount*2 ≤ set.size then ⟨set.start + set.markedCount,set.size - (newSet set).size,0⟩
  else ⟨set.start,set.size - (newSet set).size,0⟩

/-- Split one marked set; the new set's index, if there is one. -/
def refineSet (p : Partition) (setIndex : Nat) : Partition × Option Nat :=
  let set := p.sets setIndex
  if set.markedCount = set.size then
    ({ p with sets := update p.sets setIndex { set with markedCount := 0 } }, none)
  else
    let split := { p with
      size := p.size + 1
      sets := update (update p.sets setIndex (remainingSet set)) p.size (newSet set) }
    ({ split with elementToSetMap :=
        (split.elementsOfSet p.size).foldl (fun map element => update map element p.size) p.elementToSetMap },
      some p.size)

def refineSets {σ : Type*} (function : Partition → Nat → σ → σ) : List Nat → Partition → σ → Partition × σ
  | [], p, s => (p, s)
  | setIndex::rest, p, s =>
    match p.refineSet setIndex with
    | (p, none) => refineSets function rest p s
    | (p, some newSetIndex) => refineSets function rest p (function p newSetIndex s)

def refineGeneration {σ : Type*} (function : Partition → Nat → σ → σ) (p : Partition) (s : σ) : Partition × σ :=
  let (p, s) := refineSets function p.setsMarkedInCurrentGeneration p s
  ({ p with setsMarkedInCurrentGeneration := [] }, s)

def setIndex (p : Partition) (element : Nat) : Nat := p.elementToSetMap element

def firstElementInSet (p : Partition) (setIndex : Nat) : Nat := p.partitionedElements (p.sets setIndex).start

/-- Every element is in the interval of its set, and the sets with marked elements are listed. -/
structure Valid (p : Partition) (n : Nat) (markedSets : List Nat) : Prop extends
    InverseArrays p.partitionedElements p.elementPositionInPartitionedNodes n where
  set_lt : ∀ e < n, p.setIndex e < p.size
  start_le : ∀ e < n, (p.sets (p.setIndex e)).start ≤ p.elementPositionInPartitionedNodes e
  lt_stop : ∀ e < n, p.elementPositionInPartitionedNodes e < (p.sets (p.setIndex e)).stop
  stop_le : ∀ j < p.size, (p.sets j).stop ≤ n
  set_eq : ∀ j < p.size, ∀ i, (p.sets j).start ≤ i → i < (p.sets j).stop → p.setIndex (p.partitionedElements i) = j
  size_pos : ∀ j < p.size, 0 < (p.sets j).size
  marked_le : ∀ j < p.size, (p.sets j).markedCount ≤ (p.sets j).size
  nodup : markedSets.Nodup
  mem_marked : ∀ j, j ∈ markedSets ↔ j < p.size ∧ 0 < (p.sets j).markedCount

/-- An element among the marked ones of its set. -/
def Marked (p : Partition) (e : Nat) : Prop :=
  p.elementPositionInPartitionedNodes e < (p.sets (p.setIndex e)).indexAfterMarkedElements

section
variable {p : Partition} {n : Nat} {markedSets : List Nat}

/-- Marking does not move the interval of a set. -/
theorem start_update (p : Partition) (j c k : Nat) :
    (update p.sets j { p.sets j with markedCount := c } k).start = (p.sets k).start := by
  rw [update_apply]
  split
  next h => rw [h]
  · rfl

theorem size_update (p : Partition) (j c k : Nat) :
    (update p.sets j { p.sets j with markedCount := c } k).size = (p.sets k).size := by
  rw [update_apply]
  split
  next h => rw [h]
  · rfl

theorem stop_update (p : Partition) (j c k : Nat) :
    (update p.sets j { p.sets j with markedCount := c } k).stop = (p.sets k).stop := by
  rw [SetDescriptor.stop,SetDescriptor.stop,start_update,size_update]

variable {j x : Nat} {rest : List Nat} {new left : SetDescriptor}

theorem Valid.element_of_set (h : p.Valid n markedSets) {i : Nat} (hj : j < p.size) (hs : (p.sets j).start ≤ i)
    (hst : i < (p.sets j).stop) : i < n ∧ p.partitionedElements i < n ∧ p.setIndex (p.partitionedElements i) = j := by
  have hi : i < n := Nat.lt_of_lt_of_le hst (h.stop_le j hj)
  exact ⟨hi,h.element_lt i hi,h.set_eq j hj i hs hst⟩

/-- The position that an element moves to when it is marked. -/
def firstUnmarkedPosition (p : Partition) (e : Nat) : Nat := (p.sets (p.setIndex e)).indexAfterMarkedElements

theorem position_mark (p : Partition) (e x : Nat) :
    (p.markElementInCurrentGeneration e).elementPositionInPartitionedNodes x =
      if x = p.partitionedElements (p.firstUnmarkedPosition e) then p.elementPositionInPartitionedNodes e
      else if x = e then p.firstUnmarkedPosition e else p.elementPositionInPartitionedNodes x :=
  InverseArrays.position_swap _ _ _ _ _

private theorem element_mark (p : Partition) (e i : Nat) : (p.markElementInCurrentGeneration e).partitionedElements i =
    if i = p.elementPositionInPartitionedNodes e then p.partitionedElements (p.firstUnmarkedPosition e)
    else if i = p.firstUnmarkedPosition e then e else p.partitionedElements i := by
  change update (update _ _ _) _ _ i = _
  rw [update_apply,update_apply]
  rfl

theorem markedCount_mark (p : Partition) (e k : Nat) : ((p.markElementInCurrentGeneration e).sets k).markedCount =
    if k = p.setIndex e then (p.sets k).markedCount + 1 else (p.sets k).markedCount := by
  change (update p.sets (p.setIndex e) _ k).markedCount = _
  rw [update_apply]
  split
  next hk => rw [hk]; rfl
  · rfl

private theorem marked_mark (p : Partition) (e : Nat) : (p.markElementInCurrentGeneration e).setsMarkedInCurrentGeneration =
    if (p.sets (p.setIndex e)).markedCount = 0 then p.setsMarkedInCurrentGeneration ++ [p.setIndex e]
    else p.setsMarkedInCurrentGeneration := rfl

theorem start_mark (p : Partition) (e k : Nat) :
    ((p.markElementInCurrentGeneration e).sets k).start = (p.sets k).start := start_update p _ _ k

private theorem size_mark (p : Partition) (e k : Nat) :
    ((p.markElementInCurrentGeneration e).sets k).size = (p.sets k).size := size_update p _ _ k

private theorem stop_mark (p : Partition) (e k : Nat) :
    ((p.markElementInCurrentGeneration e).sets k).stop = (p.sets k).stop := stop_update p _ _ k

variable {e : Nat}

theorem Valid.firstUnmarked (h : p.Valid n markedSets) (he : e < n) (hun : ¬p.Marked e) :
    (p.sets (p.setIndex e)).start ≤ p.firstUnmarkedPosition e ∧
      p.firstUnmarkedPosition e < (p.sets (p.setIndex e)).stop ∧
      p.firstUnmarkedPosition e ≤ p.elementPositionInPartitionedNodes e ∧ p.firstUnmarkedPosition e < n ∧
      p.partitionedElements (p.firstUnmarkedPosition e) < n ∧
      p.setIndex (p.partitionedElements (p.firstUnmarkedPosition e)) = p.setIndex e := by
  have hl : p.firstUnmarkedPosition e ≤ p.elementPositionInPartitionedNodes e := Nat.le_of_not_lt hun
  have hs : (p.sets (p.setIndex e)).start ≤ p.firstUnmarkedPosition e := le_add_right _ _
  have hst := Nat.lt_of_le_of_lt hl (h.lt_stop e he)
  obtain ⟨hi,hu,hse⟩ := h.element_of_set (h.set_lt e he) hs hst
  exact ⟨hs,hst,hl,hi,hu,hse⟩

private theorem mark_marked (h : p.Valid n markedSets) (he : e < n) (hun : ¬p.Marked e)
    (hx : x < n) : (p.markElementInCurrentGeneration e).Marked x ↔ p.Marked x ∨ x = e := by
  obtain ⟨hs,hst,hle,hi,hu,hse⟩ := h.firstUnmarked he hun
  have hp := h.position_element _ hi
  have hf : p.firstUnmarkedPosition e = (p.sets (p.setIndex e)).start + (p.sets (p.setIndex e)).markedCount := rfl
  have hsm : (p.markElementInCurrentGeneration e).setIndex x = p.setIndex x := rfl
  unfold Marked SetDescriptor.indexAfterMarkedElements
  rw [hsm,start_mark,markedCount_mark,position_mark]
  by_cases hxu : x = p.partitionedElements (p.firstUnmarkedPosition e)
  · rw [if_pos hxu,hxu,hse,if_pos rfl,hp]
    constructor
    · intro hl
      refine .inr (h.position_inj hu he ?_)
      omega
    · rintro (hl | heq)
      · omega
      · rw [heq] at hp
        omega
  · rw [if_neg hxu]
    by_cases hxe : x = e
    · rw [if_pos hxe,hxe,if_pos rfl]
      constructor
      · exact fun _ => .inr rfl
      · intro _
        omega
    · rw [if_neg hxe]
      have hn : p.elementPositionInPartitionedNodes x ≠ p.firstUnmarkedPosition e := by
        intro heq
        exact hxu (by rw [← heq,h.element_position x hx])
      simp only [hxe,or_false]
      split
      next hk =>
        rw [hk]
        omega
      · rfl

section
variable (h : p.Valid n p.setsMarkedInCurrentGeneration)
include h

private theorem mark_valid (he : e < n) (hun : ¬p.Marked e) :
    (p.markElementInCurrentGeneration e).Valid n (p.markElementInCurrentGeneration e).setsMarkedInCurrentGeneration := by
  obtain ⟨hs,hst,hle,hi,hu,hse⟩ := h.firstUnmarked he hun
  have hsm : ∀ x, (p.markElementInCurrentGeneration e).setIndex x = p.setIndex x := fun _ => rfl
  have hf : p.firstUnmarkedPosition e = (p.sets (p.setIndex e)).start + (p.sets (p.setIndex e)).markedCount := rfl
  have hl : (p.sets (p.setIndex e)).stop = (p.sets (p.setIndex e)).start + (p.sets (p.setIndex e)).size := rfl
  refine ⟨h.swap he hi,h.set_lt,?_,?_,?_,?_,?_,?_,?_,?_⟩
  · intro x hx
    rw [hsm,start_mark,position_mark]
    split_ifs with hxu hxe
    · rw [hxu,hse]
      exact h.start_le e he
    · rw [hxe]
      exact hs
    · exact h.start_le x hx
  · intro x hx
    rw [hsm,stop_mark,position_mark]
    split_ifs with hxu hxe
    · rw [hxu,hse]
      exact h.lt_stop e he
    · rw [hxe]
      exact hst
    · exact h.lt_stop x hx
  · intro j hj
    rw [stop_mark]
    exact h.stop_le j hj
  · intro j hj i hji hij
    rw [start_mark] at hji
    rw [stop_mark] at hij
    have ho := h.set_eq j hj i hji hij
    rw [hsm,element_mark]
    split_ifs with hie hif
    · rw [hse,← ho,hie,h.element_position e he]
    · rw [← ho,hif,hse]
    · exact ho
  · intro j hj
    rw [size_mark]
    exact h.size_pos j hj
  · intro j hj
    rw [size_mark,markedCount_mark]
    split
    next hk =>
      rw [hk]
      omega
    · exact h.marked_le j hj
  · rw [marked_mark]
    split
    next hz =>
      refine nodup_append.2 ⟨h.nodup,nodup_singleton _,?_⟩
      intro a ha b hb heq
      have hp := ((h.mem_marked a).1 ha).2
      rw [heq,mem_singleton.1 hb] at hp
      omega
    · exact h.nodup
  · intro j
    have hj := h.set_lt e he
    have ho := h.mem_marked j
    rw [marked_mark,markedCount_mark]
    change _ ↔ j < p.size ∧ _
    by_cases hje : j = p.setIndex e
    · split
      next hz =>
        rw [hje,mem_append,mem_singleton]
        exact ⟨fun _ => ⟨hj,succ_pos _⟩,fun _ => .inr rfl⟩
      next hz =>
        rw [ho,hje]
        exact ⟨fun _ => ⟨hj,Nat.succ_pos _⟩,fun _ => ⟨hj,Nat.pos_of_ne_zero hz⟩⟩
    · split
      · rw [mem_append,mem_singleton,ho]
        simp [hje]
      · exact ho

private theorem mark_spec (he : e < n) (hu : ¬p.Marked e) :
    let p' := p.markElementInCurrentGeneration e
    p'.Valid n p'.setsMarkedInCurrentGeneration ∧ p'.size = p.size ∧ (∀ x, p'.setIndex x = p.setIndex x) ∧
      ∀ x < n, (p'.Marked x ↔ p.Marked x ∨ x = e) :=
  ⟨mark_valid h he hu,rfl,fun _ => rfl,fun _ hx => mark_marked h he hu hx⟩

theorem markAll_spec (es : List Nat) (hn : es.Nodup)
    (hes : ∀ e ∈ es, e < n ∧ ¬p.Marked e) :
    let p' := es.foldl markElementInCurrentGeneration p
    p'.Valid n p'.setsMarkedInCurrentGeneration ∧ p'.size = p.size ∧ (∀ x, p'.setIndex x = p.setIndex x) ∧
      ∀ x < n, (p'.Marked x ↔ p.Marked x ∨ x ∈ es) := by
  induction es generalizing p with
  | nil => exact ⟨h,rfl,fun _ => rfl,by simp⟩
  | cons e es ih =>
    obtain ⟨⟨he,hu⟩,hes⟩ := forall_mem_cons.1 hes
    obtain ⟨hmm,hn⟩ := nodup_cons.1 hn
    obtain ⟨hv,hs,hst,hmr⟩ := mark_spec h he hu
    have hr : ∀ x ∈ es, x < n ∧ ¬(p.markElementInCurrentGeneration e).Marked x := by
      intro x hx
      refine ⟨(hes x hx).1,?_⟩
      rw [hmr x (hes x hx).1]
      rintro (hm | rfl)
      · exact (hes x hx).2 hm
      · exact hmm hx
    obtain ⟨hv',hs',hst',hmr'⟩ := ih hv hn hr
    refine ⟨hv',hs'.trans hs,fun x => (hst' x).trans (hst x),fun x hx => ?_⟩
    rw [foldl_cons,hmr' x hx,hmr x hx,mem_cons,or_assoc]

end

def Covers (set : SetDescriptor) (i : Nat) : Prop := set.start ≤ i ∧ i < set.stop

theorem mem_elementsOfSet (h : InverseArrays p.partitionedElements p.elementPositionInPartitionedNodes n)
    (hj : (p.sets j).stop ≤ n) (hx : x < n) :
    x ∈ p.elementsOfSet j ↔ Covers (p.sets j) (p.elementPositionInPartitionedNodes x) := by
  unfold elementsOfSet Covers SetDescriptor.stop at *
  simp only [mem_map,mem_range'_1]
  constructor
  · rintro ⟨i,hi,rfl⟩
    rw [h.position_element i (by omega)]
    exact hi
  · intro hi
    exact ⟨_,hi,h.element_position x hx⟩

private theorem foldl_update (l : List Nat) (f : Nat → Nat) (k x : Nat) :
    l.foldl (fun m el => update m el k) f x = if x ∈ l then k else f x := by
  induction l generalizing f with
  | nil => simp
  | cons e l ih =>
    rw [foldl_cons,ih,update_apply]
    by_cases hl : x ∈ l
    · simp [hl]
    · by_cases he : x = e <;> simp [hl,he]

/-- The marked elements of a set are split off, or the unmarked ones. -/
theorem newSet_cases {set : SetDescriptor} (hl : set.markedCount < set.size) :
    (newSet set = ⟨set.start,set.markedCount,0⟩ ∧
      remainingSet set = ⟨set.start + set.markedCount,set.size - set.markedCount,0⟩) ∨
    (newSet set = ⟨set.start + set.markedCount,set.size - set.markedCount,0⟩ ∧
      remainingSet set = ⟨set.start,set.markedCount,0⟩) := by
  unfold remainingSet newSet
  split
  · exact .inl ⟨rfl,rfl⟩
  · refine .inr ⟨rfl,?_⟩
    dsimp only
    congr 1
    omega

/-- What a split needs to know of the two parts. -/
structure Splits (set new remaining : SetDescriptor) : Prop where
  size_pos : 0 < new.size ∧ 0 < remaining.size
  count : new.markedCount = 0 ∧ remaining.markedCount = 0
  covers : ∀ i, Covers set i ↔ Covers new i ∨ Covers remaining i
  disjoint : ∀ i, Covers new i → ¬Covers remaining i
  marked : (∀ i, Covers set i → (Covers new i ↔ i < set.indexAfterMarkedElements)) ∨
    (∀ i, Covers set i → (Covers new i ↔ ¬i < set.indexAfterMarkedElements))

private theorem splits_newSet {set : SetDescriptor} (hp : 0 < set.markedCount) (hl : set.markedCount < set.size) :
    Splits set (newSet set) (remainingSet set) := by
  rcases newSet_cases hl with ⟨hn,hr⟩ | ⟨hn,hr⟩
  all_goals
    rw [hn,hr]
    refine ⟨⟨?_,?_⟩,⟨rfl,rfl⟩,fun i => ?_,fun i => ?_,?_⟩
    · dsimp only
      omega
    · dsimp only
      omega
    · simp only [Covers,SetDescriptor.stop]
      omega
    · simp only [Covers,SetDescriptor.stop]
      omega
  · refine .inl fun i => ?_
    simp only [Covers,SetDescriptor.stop,SetDescriptor.indexAfterMarkedElements]
    omega
  · refine .inr fun i => ?_
    simp only [Covers,SetDescriptor.stop,SetDescriptor.indexAfterMarkedElements]
    omega

/-- Refining a set separates its marked elements and clears their marks. -/
structure RefinesSet (p : Partition) (n j : Nat) (p' : Partition) : Prop where
  same_iff : ∀ x < n, ∀ y < n, (p'.setIndex x = p'.setIndex y ↔
    p.setIndex x = p.setIndex y ∧ (p.setIndex x = j → (p.Marked x ↔ p.Marked y)))
  old_or_new : ∀ x < n, p'.setIndex x = p.setIndex x ∨ p.setIndex x = j ∧ p'.setIndex x = p.size
  marked_iff : ∀ x < n, p'.Marked x ↔ p.setIndex x ≠ j ∧ p.Marked x

theorem Valid.covers (h : p.Valid n markedSets) (hx : x < n) :
    Covers (p.sets (p.setIndex x)) (p.elementPositionInPartitionedNodes x) :=
  ⟨h.start_le x hx,h.lt_stop x hx⟩

theorem Valid.set_unique (h : p.Valid n markedSets) (hj : j < p.size) (hx : x < n)
    (hc : Covers (p.sets j) (p.elementPositionInPartitionedNodes x)) : p.setIndex x = j := by
  have hs := h.set_eq j hj _ hc.1 hc.2
  rwa [h.element_position x hx] at hs

theorem Valid.head_spec (h : p.Valid n (j::rest)) :
    j < p.size ∧ 0 < (p.sets j).markedCount ∧ j ∉ rest ∧ ∀ k, k ≠ j → (k ∈ rest ↔ k < p.size ∧ 0 < (p.sets k).markedCount) := by
  obtain ⟨hj,hp⟩ := (h.mem_marked j).1 mem_cons_self
  refine ⟨hj,hp,(nodup_cons.1 h.nodup).1,fun k hk => ?_⟩
  rw [← h.mem_marked,mem_cons,or_iff_right hk]

private theorem refineSet_full (h : p.Valid n (j::rest)) (hf : (p.sets j).markedCount = (p.sets j).size) :
    let p' := { p with sets := update p.sets j { p.sets j with markedCount := 0 } }
    p'.Valid n rest ∧ RefinesSet p n j p' := by
  intro p'
  obtain ⟨hj,hp,hmm,ho⟩ := h.head_spec
  have hc : ∀ k, (p'.sets k).markedCount = if k = j then 0 else (p.sets k).markedCount := by
    intro k
    change (update p.sets j _ k).markedCount = _
    rw [update_apply]
    split <;> rfl
  have hs : ∀ k, (p'.sets k).start = (p.sets k).start := start_update p _ _
  have hsz : ∀ k, (p'.sets k).size = (p.sets k).size := size_update p _ _
  have hst : ∀ k, (p'.sets k).stop = (p.sets k).stop := stop_update p _ _
  have hm : ∀ x < n, p.setIndex x = j → p.Marked x := by
    intro x hx hse
    have := h.lt_stop x hx
    unfold Marked SetDescriptor.indexAfterMarkedElements
    rw [hse] at this ⊢
    rw [hf]
    exact this
  refine ⟨⟨h.toInverseArrays,h.set_lt,?_,?_,?_,?_,?_,?_,(nodup_cons.1 h.nodup).2,?_⟩,⟨?_,?_,?_⟩⟩
  · exact fun x hx => (hs _).symm ▸ h.start_le x hx
  · exact fun x hx => (hst _).symm ▸ h.lt_stop x hx
  · exact fun k hk => (hst k).symm ▸ h.stop_le k hk
  · intro k hk i hki hi
    rw [hs] at hki
    rw [hst] at hi
    exact h.set_eq k hk i hki hi
  · exact fun k hk => (hsz k).symm ▸ h.size_pos k hk
  · intro k hk
    rw [hc,hsz]
    split
    · exact zero_le _
    · exact h.marked_le k hk
  · intro k
    rw [hc]
    split
    next hk =>
      rw [hk]
      simp [hmm]
    next hk => exact ho k hk
  · intro x hx y hy
    refine ⟨fun he => ⟨he,fun hse => ?_⟩,fun he => he.1⟩
    exact iff_of_true (hm x hx hse) (hm y hy (he.symm.trans hse))
  · exact fun x _ => .inl rfl
  · intro x hx
    have hl := h.start_le x hx
    unfold Marked SetDescriptor.indexAfterMarkedElements
    change p.elementPositionInPartitionedNodes x < (p'.sets (p.setIndex x)).start + (p'.sets (p.setIndex x)).markedCount ↔ _
    rw [hs,hc]
    split
    next hse => simp [hse]; rw [hse] at hl; exact hl
    next hse => simp [hse]

/-- The partition after one set is split in two. -/
def splitSet (p : Partition) (j : Nat) (new remaining : SetDescriptor) : Partition :=
  let split := { p with
    size := p.size + 1
    sets := update (update p.sets j remaining) p.size new }
  { split with elementToSetMap :=
    (split.elementsOfSet p.size).foldl (fun map element => update map element p.size) p.elementToSetMap }

theorem sets_splitSet (k : Nat) : (p.splitSet j new left).sets k =
      if k = p.size then new else if k = j then left else p.sets k := by
  change update (update p.sets j left) p.size new k = _
  rw [update_apply,update_apply]

open Classical in
theorem setIndex_splitSet (h : InverseArrays p.partitionedElements p.elementPositionInPartitionedNodes n) (j : Nat)
    (new left : SetDescriptor) (hs : new.stop ≤ n) (hx : x < n) :
    (p.splitSet j new left).setIndex x =
      if Covers new (p.elementPositionInPartitionedNodes x) then p.size else p.setIndex x := by
  change foldl _ p.elementToSetMap _ x = _
  rw [foldl_update]
  have hn : ({ p with
      size := p.size + 1
      sets := update (update p.sets j left) p.size new } : Partition).sets p.size = new :=
    update_self _ _ _
  have hm := mem_elementsOfSet (p := { p with
    size := p.size + 1
    sets := update (update p.sets j left) p.size new }) (j := p.size) h (by rw [hn]; exact hs) hx
  rw [hn] at hm
  simp only [hm]
  rfl

section
variable (h : p.Valid n (j::rest)) (hsp : Splits (p.sets j) new left)
include h hsp

theorem splitSet_cases
    (hs : new.stop ≤ n) (hx : x < n) :
    (p.setIndex x = j ∧ (p.splitSet j new left).setIndex x = p.size ∧
      Covers new (p.elementPositionInPartitionedNodes x)) ∨
    (p.setIndex x = j ∧ (p.splitSet j new left).setIndex x = j ∧
      ¬Covers new (p.elementPositionInPartitionedNodes x) ∧ Covers left (p.elementPositionInPartitionedNodes x)) ∨
    (p.setIndex x ≠ j ∧ (p.splitSet j new left).setIndex x = p.setIndex x) := by
  obtain ⟨hj,-,-,-⟩ := h.head_spec
  rw [setIndex_splitSet h.toInverseArrays j new left hs hx]
  by_cases hst : p.setIndex x = j
  · have hc := h.covers hx
    rw [hst,hsp.covers] at hc
    by_cases hn : Covers new (p.elementPositionInPartitionedNodes x)
    · exact .inl ⟨hst,if_pos hn,hn⟩
    · exact .inr (.inl ⟨hst,(if_neg hn).trans hst,hn,hc.resolve_left hn⟩)
  · refine .inr (.inr ⟨hst,if_neg fun hn => hst ?_⟩)
    exact h.set_unique hj hx ((hsp.covers _).2 (.inl hn))

private theorem splitSet_valid (hn : new.stop ≤ n) (hr : left.stop ≤ n) : (p.splitSet j new left).Valid n rest := by
  obtain ⟨hj,hp,hm,ho⟩ := h.head_spec
  have hne : j ≠ p.size := Nat.ne_of_lt hj
  have hco : ∀ x < n, Covers ((p.splitSet j new left).sets ((p.splitSet j new left).setIndex x))
      (p.elementPositionInPartitionedNodes x) := by
    intro x hx
    rw [sets_splitSet]
    rcases splitSet_cases h hsp hn hx with ⟨-,he,hc⟩ | ⟨-,he,-,hc⟩ | ⟨hs,he⟩
    · rw [he,if_pos rfl]
      exact hc
    · rw [he,if_neg hne,if_pos rfl]
      exact hc
    · rw [he,if_neg (Nat.ne_of_lt (h.set_lt x hx)),if_neg hs]
      exact h.covers hx
  refine ⟨h.toInverseArrays,?_,fun x hx => (hco x hx).1,fun x hx => (hco x hx).2,?_,?_,?_,?_,
    (nodup_cons.1 h.nodup).2,?_⟩
  · intro x hx
    change _ < p.size + 1
    have hl := h.set_lt x hx
    rcases splitSet_cases h hsp hn hx with ⟨-,he,-⟩ | ⟨-,he,-⟩ | ⟨-,he⟩ <;> omega
  · intro k hk
    rw [sets_splitSet]
    split_ifs with hks hkj
    · exact hn
    · exact hr
    · exact h.stop_le k (by change k < p.size + 1 at hk; omega)
  · intro k hk i hki hik
    have hcv : Covers ((p.splitSet j new left).sets k) i := ⟨hki,hik⟩
    rw [sets_splitSet] at hcv
    have hi : i < n := by
      split_ifs at hcv with hks hkj
      · exact Nat.lt_of_lt_of_le hcv.2 hn
      · exact Nat.lt_of_lt_of_le hcv.2 hr
      · exact Nat.lt_of_lt_of_le hcv.2 (h.stop_le k (by change k < p.size + 1 at hk; omega))
    have hs : ∀ {k' : Nat}, k' < p.size → Covers (p.sets k') i → p.setIndex (p.partitionedElements i) = k' := by
      intro k' hk' hc
      exact h.set_eq k' hk' i hc.1 hc.2
    have hin := setIndex_splitSet h.toInverseArrays j new left hn (h.element_lt i hi)
    rw [h.position_element i hi] at hin
    change (p.splitSet j new left).setIndex (p.partitionedElements i) = k
    rw [hin]
    split_ifs at hcv with hks hkj
    · rw [if_pos hcv,hks]
    · rw [if_neg fun hc => hsp.disjoint i hc hcv,hkj]
      exact hs hj ((hsp.covers i).2 (.inr hcv))
    · have hk' : k < p.size := by change k < p.size + 1 at hk; omega
      have he := hs hk' hcv
      rw [if_neg fun hc => hkj (he.symm.trans (hs hj ((hsp.covers i).2 (.inl hc)))),he]
  · intro k hk
    rw [sets_splitSet]
    split_ifs with hks hkj
    · exact hsp.size_pos.1
    · exact hsp.size_pos.2
    · exact h.size_pos k (by change k < p.size + 1 at hk; omega)
  · intro k hk
    rw [sets_splitSet]
    split_ifs with hks hkj
    · rw [hsp.count.1]
      exact zero_le _
    · rw [hsp.count.2]
      exact zero_le _
    · exact h.marked_le k (by change k < p.size + 1 at hk; omega)
  · intro k
    rw [sets_splitSet]
    change _ ↔ k < p.size + 1 ∧ _
    split_ifs with hks hkj
    · rw [hsp.count.1,hks,ho p.size hne.symm]
      simp
    · rw [hsp.count.2,hkj]
      simp [hm]
    · rw [ho k hkj]
      have : k < p.size ↔ k < p.size + 1 := by omega
      rw [this]

private theorem splitSet_refines (hn : new.stop ≤ n) : RefinesSet p n j (p.splitSet j new left) := by
  obtain ⟨hj,-,-,-⟩ := h.head_spec
  have hmr : ∀ x < n, p.setIndex x = j → ∀ y < n, p.setIndex y = j →
      ((Covers new (p.elementPositionInPartitionedNodes x) ↔ Covers new (p.elementPositionInPartitionedNodes y)) ↔
        (p.Marked x ↔ p.Marked y)) := by
    intro x hx hxj y hy hyj
    have hcx := h.covers hx
    have hcy := h.covers hy
    unfold Marked
    rw [hxj] at hcx ⊢
    rw [hyj] at hcy ⊢
    rcases hsp.marked with hm | hm
    · rw [hm _ hcx,hm _ hcy]
    · rw [hm _ hcx,hm _ hcy,not_iff_not]
  refine ⟨?_,?_,?_⟩
  · intro x hx y hy
    have hxs := h.set_lt x hx
    have hys := h.set_lt y hy
    rcases splitSet_cases h hsp hn hx with ⟨hxj,hx',hcx⟩ | ⟨hxj,hx',hcx,-⟩ | ⟨hxj,hx'⟩ <;>
    rcases splitSet_cases h hsp hn hy with ⟨hyj,hy',hcy⟩ | ⟨hyj,hy',hcy,-⟩ | ⟨hyj,hy'⟩ <;>
    rw [hx',hy']
    · simp [hxj,hyj,← hmr x hx hxj y hy hyj,hcx,hcy]
    · simp only [hxj,hyj,← hmr x hx hxj y hy hyj,hcx,hcy]
      simp
      omega
    · omega
    · simp only [hxj,hyj,← hmr x hx hxj y hy hyj,hcx,hcy]
      simp
      omega
    · simp [hxj,hyj,← hmr x hx hxj y hy hyj,hcx,hcy]
    · omega
    · omega
    · omega
    · simp [hxj]
  · intro x hx
    rcases splitSet_cases h hsp hn hx with ⟨hxj,hx',-⟩ | ⟨hxj,hx',-⟩ | ⟨-,hx'⟩
    · exact .inr ⟨hxj,hx'⟩
    · exact .inl (hx'.trans hxj.symm)
    · exact .inl hx'
  · intro x hx
    unfold Marked SetDescriptor.indexAfterMarkedElements
    change p.elementPositionInPartitionedNodes x < _ ↔ _
    rw [sets_splitSet]
    rcases splitSet_cases h hsp hn hx with ⟨hxj,hx',hc⟩ | ⟨hxj,hx',-,hc⟩ | ⟨hxj,hx'⟩
    · rw [hx',if_pos rfl,hsp.count.1]
      have := hc.1
      omega
    · rw [hx',if_neg (Nat.ne_of_lt hj),if_pos rfl,hsp.count.2]
      have := hc.1
      omega
    · rw [hx',if_neg (Nat.ne_of_lt (h.set_lt x hx)),if_neg hxj]
      simp [hxj]

end

/-- Refining one marked set. The new set, if there is one, is the last. -/
theorem refineSet_spec (h : p.Valid n (j::rest)) : (p.refineSet j).1.Valid n rest ∧ RefinesSet p n j (p.refineSet j).1 ∧
      (((p.refineSet j).2 = none ∧ (p.refineSet j).1.size = p.size ∧ ∀ x, (p.refineSet j).1.setIndex x = p.setIndex x) ∨
        ((p.refineSet j).2 = some p.size ∧ (p.refineSet j).1.size = p.size + 1)) := by
  obtain ⟨hj,hps,-,-⟩ := h.head_spec
  unfold refineSet
  dsimp only
  split
  next hf =>
    obtain ⟨hv,hrf⟩ := refineSet_full h hf
    exact ⟨hv,hrf,.inl ⟨rfl,rfl,fun _ => rfl⟩⟩
  next hp =>
    have hl := Nat.lt_of_le_of_ne (h.marked_le j hj) hp
    have hsp := splits_newSet hps hl
    have hst := h.stop_le j hj
    have hs : (newSet (p.sets j)).stop ≤ n ∧ (remainingSet (p.sets j)).stop ≤ n := by
      unfold SetDescriptor.stop at hst ⊢
      rcases newSet_cases hl with ⟨hn,hr⟩ | ⟨hn,hr⟩ <;>
      · rw [hn,hr]
        dsimp only
        omega
    exact ⟨splitSet_valid h hsp hs.1 hs.2,splitSet_refines h hsp hs.1,.inr ⟨rfl,rfl⟩⟩

section
variable (h : p.Valid n markedSets) (hj : j < p.size)
include h hj

theorem Valid.mem_elementsOfSet_iff : x ∈ p.elementsOfSet j ↔ x < n ∧ p.setIndex x = j := by
  constructor
  · intro hm
    have hx : x < n := by
      obtain ⟨i,hi,rfl⟩ := mem_map.1 hm
      rw [mem_range'_1] at hi
      exact h.element_lt i (Nat.lt_of_lt_of_le hi.2 (h.stop_le j hj))
    exact ⟨hx,h.set_unique hj hx ((mem_elementsOfSet h.toInverseArrays (h.stop_le j hj) hx).1 hm)⟩
  · rintro ⟨hx,rfl⟩
    exact (mem_elementsOfSet h.toInverseArrays (h.stop_le _ hj) hx).2 (h.covers hx)

theorem Valid.nodup_elementsOfSet : (p.elementsOfSet j).Nodup := by
  have hl : ∀ i ∈ range' (p.sets j).start (p.sets j).size, i < n := by
    intro i hi
    rw [mem_range'_1] at hi
    exact Nat.lt_of_lt_of_le hi.2 (h.stop_le j hj)
  refine List.Nodup.map_on ?_ nodup_range'
  intro i hi k hk he
  rw [← h.position_element i (hl i hi),he,h.position_element k (hl k hk)]

theorem Valid.firstElementInSet_spec : p.firstElementInSet j < n ∧ p.setIndex (p.firstElementInSet j) = j := by
  obtain ⟨-,hl,hs⟩ := h.element_of_set hj (Nat.le_refl _) (Nat.lt_add_of_pos_right (h.size_pos j hj))
  exact ⟨hl,hs⟩

end

/-- No more sets than elements, as their first elements are distinct. -/
theorem Valid.size_le (h : p.Valid n markedSets) : p.size ≤ n := by
  have hn : ((range p.size).map p.firstElementInSet).Nodup := by
    refine List.Nodup.map_on ?_ nodup_range
    intro j hj k hk he
    rw [mem_range] at hj hk
    rw [← (h.firstElementInSet_spec hj).2,he,(h.firstElementInSet_spec hk).2]
  have hs : (range p.size).map p.firstElementInSet ⊆ range n := by
    intro x hx
    obtain ⟨j,hj,rfl⟩ := mem_map.1 hx
    exact mem_range.2 (h.firstElementInSet_spec (mem_range.1 hj)).1
  have hl := (hn.subperm hs).length_le
  rwa [length_map,length_range,length_range] at hl

theorem Valid.not_marked (h : p.Valid n []) (hx : x < n) : ¬p.Marked x := by
  have hz : (p.sets (p.setIndex x)).markedCount = 0 := by
    by_contra hn
    have hm := (h.mem_marked (p.setIndex x)).2 ⟨h.set_lt x hx,Nat.pos_of_ne_zero hn⟩
    exact not_mem_nil hm
  have hl := h.start_le x hx
  unfold Marked SetDescriptor.indexAfterMarkedElements
  omega

/-- The marked elements of every set are separated, and new sets come last. -/
structure Refines (p : Partition) (n : Nat) (p' : Partition) : Prop where
  same_iff : ∀ x < n, ∀ y < n, (p'.setIndex x = p'.setIndex y ↔ p.setIndex x = p.setIndex y ∧ (p.Marked x ↔ p.Marked y))
  old_or_new : ∀ x < n, p'.setIndex x = p.setIndex x ∨ p.size ≤ p'.setIndex x
  size_le : p.size ≤ p'.size

theorem Refines.of_refinesSet {p₁ p₂ : Partition} (h : RefinesSet p n j p₁) (hs : p.size ≤ p₁.size)
    (h' : Refines p₁ n p₂) : Refines p n p₂ where
  same_iff := by
    intro x hx y hy
    rw [h'.same_iff x hx y hy,h.same_iff x hx y hy,h.marked_iff x hx,h.marked_iff y hy,and_assoc,and_congr_right_iff]
    intro hst
    rw [← hst]
    by_cases hxj : p.setIndex x = j <;> simp [hxj]
  old_or_new := by
    intro x hx
    rcases h'.old_or_new x hx with he | hg
    · rcases h.old_or_new x hx with he' | ⟨-,hn⟩
      · exact .inl (he.trans he')
      · exact .inr (Nat.le_of_eq (hn.symm.trans he.symm))
    · exact .inr (Nat.le_trans hs hg)
  size_le := Nat.le_trans hs h'.size_le

theorem Valid.refines_refl (h : p.Valid n []) : Refines p n p where
  same_iff x hx y hy := by simp [h.not_marked hx,h.not_marked hy]
  old_or_new _ _ := .inl rfl
  size_le := Nat.le_refl _

/-- Refining without a function to call. -/
theorem refineGeneration_spec (h : p.Valid n p.setsMarkedInCurrentGeneration) :
    let p' := (p.refineGeneration (fun _ _ (s : Unit) => s) ()).1
    p'.Valid n p'.setsMarkedInCurrentGeneration ∧ p'.setsMarkedInCurrentGeneration = [] ∧ Refines p n p' := by
  have hs : ∀ (l : List Nat) (p : Partition), p.Valid n l →
      (refineSets (fun _ _ (s : Unit) => s) l p ()).1.Valid n [] ∧
        Refines p n (refineSets (fun _ _ (s : Unit) => s) l p ()).1 := by
    intro l
    induction l with
    | nil =>
      intro p hp
      exact ⟨hp,hp.refines_refl⟩
    | cons j rest ih =>
      intro p hp
      obtain ⟨hv,hr,hc⟩ := refineSet_spec hp
      rw [refineSets]
      generalize p.refineSet j = r at hv hr hc
      obtain ⟨p₁,new⟩ := r
      obtain ⟨hv',hr'⟩ := ih p₁ hv
      rcases hc with ⟨rfl,hsz,-⟩ | ⟨rfl,hsz⟩
      · exact ⟨hv',.of_refinesSet hr (Nat.le_of_eq hsz.symm) hr'⟩
      · exact ⟨hv',.of_refinesSet hr (by omega) hr'⟩
  obtain ⟨hv,hr⟩ := hs _ p h
  exact ⟨{ hv with },rfl,⟨hr.same_iff,hr.old_or_new,hr.size_le⟩⟩

theorem initializeWithSize_valid (n : Nat) : (initializeWithSize n).Valid n (initializeWithSize n).setsMarkedInCurrentGeneration ∧
    (initializeWithSize n).setsMarkedInCurrentGeneration = [] ∧ ∀ x, (initializeWithSize n).setIndex x = 0 := by
  unfold initializeWithSize
  split
  next hz =>
    subst hz
    refine ⟨⟨⟨?_,?_,?_,?_⟩,?_,?_,?_,?_,?_,?_,?_,nodup_nil,?_⟩,rfl,fun _ => rfl⟩ <;>
      simp
  next hp =>
    refine ⟨⟨⟨fun _ h => h,fun _ _ => rfl,fun _ h => h,fun _ _ => rfl⟩,fun _ _ => Nat.one_pos,fun _ _ => Nat.zero_le _,
      fun x h => ?_,fun _ _ => ?_,fun j hj _ _ _ => ?_,fun _ _ => Nat.pos_of_ne_zero hp,fun _ _ => Nat.zero_le _,
      nodup_nil,?_⟩,rfl,fun _ => rfl⟩
    · change x < 0 + n
      omega
    · exact Nat.le_of_eq (Nat.zero_add n)
    · exact (lt_one_iff.1 hj).symm
    · simp

end
end Partition
end WebKit.ContentExtensions
