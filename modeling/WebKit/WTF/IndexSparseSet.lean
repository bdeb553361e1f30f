import Mathlib.Data.Finset.Card
import Mathlib.Data.List.Sort

/-! Sets of indices as a list of their elements, with a table of the positions in this list that is never initialised and that
sorting does not keep up to date. -/
namespace WebKit.WTF
open List Function

structure IndexSparseSet where
  map : Nat → Nat
  values : List Nat

namespace IndexSparseSet

def contains (set : IndexSparseSet) (value : Nat) : Bool :=
  match set.values[set.map value]? with
  | none => false
  | some entry => entry == value

def add (set : IndexSparseSet) (value : Nat) : IndexSparseSet :=
  if set.contains value then set
  else
    let newPosition := set.values.length
    ⟨update set.map value newPosition,set.values ++ [value]⟩

def remove (set : IndexSparseSet) (value : Nat) : IndexSparseSet :=
  let position := set.map value
  match set.values[position]? with
  | none => set
  | some entry =>
    if entry = value then
      let lastValue := set.values.getLastD value
      ⟨update set.map lastValue position,(set.values.set position lastValue).dropLast⟩
    else set

def clear (set : IndexSparseSet) : IndexSparseSet := { set with values := [] }

def size (set : IndexSparseSet) : Nat := set.values.length

def isEmpty (set : IndexSparseSet) : Bool := set.size == 0

def sort (set : IndexSparseSet) : IndexSparseSet := { set with values := set.values.mergeSort }

/-- The table holds the positions of the elements. -/
def Coherent (set : IndexSparseSet) : Prop := ∀ position value, set.values[position]? = some value → set.map value = position

section
variable {set : IndexSparseSet} {value other : Nat}

theorem coherent_clear : set.clear.Coherent := nofun

section
variable (h : set.Coherent)
include h

theorem Coherent.contains_iff : set.contains value ↔ value ∈ set.values := by
  rw [contains,mem_iff_getElem?]
  constructor
  · intro hc
    split at hc
    · cases hc
    next e he => exact ⟨_,(beq_iff_eq.1 hc) ▸ he⟩
  · rintro ⟨p,hp⟩
    rw [h p value hp,hp]
    exact beq_self_eq_true value

theorem Coherent.nodup : set.values.Nodup := by
  rw [nodup_iff_getElem?_ne_getElem?]
  intro i j hij hj he
  have hi := h i _ (he.trans (getElem?_eq_getElem hj))
  have hj' := h j _ (getElem?_eq_getElem hj)
  omega

theorem Coherent.mem_add : other ∈ (set.add value).values ↔ other ∈ set.values ∨ other = value := by
  rw [add]
  split_ifs with hc
  · refine ⟨.inl,?_⟩
    rintro (ho | rfl)
    · exact ho
    · exact h.contains_iff.1 hc
  · rw [mem_append,mem_singleton]

theorem Coherent.add : (set.add value).Coherent := by
  rw [IndexSparseSet.add]
  split_ifs with hc
  · exact h
  intro p e he
  rw [h.contains_iff] at hc
  dsimp only at he ⊢
  rw [getElem?_append] at he
  split_ifs at he with hl
  · rw [update_of_ne,h p e he]
    rintro rfl
    exact hc (mem_of_getElem? he)
  · rw [getElem?_singleton] at he
    split_ifs at he with hz
    cases he
    rw [update_self]
    omega

end

theorem getElem?_removed {l : List Nat} {p i : Nat} (hp : p < l.length) :
    ((l.set p (l.getLastD value)).dropLast)[i]? =
      if i + 1 < l.length then if i = p then l[l.length - 1]? else l[i]? else none := by
  rw [getElem?_dropLast,length_set]
  by_cases hi : i + 1 < l.length
  · rw [if_pos (by omega),if_pos hi,getElem?_set]
    by_cases he : p = i
    · rw [if_pos he,if_pos (by omega),if_pos he.symm,getLastD_eq_getLast?,getLast?_eq_getElem?,
        getElem?_eq_getElem (by omega),Option.getD_some]
    · rw [if_neg he,if_neg (Ne.symm he)]
  · rw [if_neg (by omega),if_neg hi]

section
variable (h : set.Coherent)
include h

theorem Coherent.remove : (set.remove value).Coherent := by
  rw [IndexSparseSet.remove]
  split
  · exact h
  next e he =>
  split_ifs with heq
  · subst heq
    have hp := (List.getElem?_eq_some_iff.1 he).1
    intro i other ho
    dsimp only at ho ⊢
    rw [getElem?_removed hp] at ho
    split_ifs at ho with hi heq
    · rw [heq]
      have hl : set.values.getLastD e = other := by
        rw [getLastD_eq_getLast?,getLast?_eq_getElem?,ho,Option.getD_some]
      rw [hl,update_self]
    · rw [update_of_ne,h i other ho]
      rintro rfl
      have hl := h (set.values.length-1) (set.values.getLastD e) (by
        rw [getLastD_eq_getLast?,getLast?_eq_getElem?,getElem?_eq_getElem (by omega),Option.getD_some])
      rw [h i _ ho] at hl
      omega
  · exact h

theorem Coherent.mem_remove : other ∈ (set.remove value).values ↔ other ∈ set.values ∧ other ≠ value := by
  rw [IndexSparseSet.remove]
  split
  next hn =>
    refine ⟨fun ho => ⟨ho,?_⟩,And.left⟩
    rintro rfl
    obtain ⟨i,hi⟩ := mem_iff_getElem?.1 ho
    rw [h i other hi,hi] at hn
    cases hn
  next entry he =>
  split_ifs with heq
  · subst heq
    have hp := (List.getElem?_eq_some_iff.1 he).1
    simp only [mem_iff_getElem?,getElem?_removed hp]
    constructor
    · rintro ⟨i,hi⟩
      split_ifs at hi with hlt heq
      · refine ⟨⟨_,hi⟩,?_⟩
        rintro rfl
        have := h _ _ hi
        omega
      · refine ⟨⟨i,hi⟩,?_⟩
        rintro rfl
        exact heq (h i other hi).symm
    · rintro ⟨⟨i,hi⟩,hne⟩
      have hlt := (List.getElem?_eq_some_iff.1 hi).1
      have hi' : i ≠ set.map entry := by
        rintro rfl
        rw [hi] at he
        cases he
        exact hne rfl
      by_cases hl : i + 1 < set.values.length
      · exact ⟨i,by rw [if_pos hl,if_neg hi',hi]⟩
      · refine ⟨set.map entry,?_⟩
        rw [if_pos (by omega),if_pos rfl,← hi]
        congr 1
        omega
  · refine ⟨fun ho => ⟨ho,?_⟩,And.left⟩
    rintro rfl
    obtain ⟨i,hi⟩ := mem_iff_getElem?.1 ho
    rw [h i other hi,hi] at he
    cases he
    exact heq rfl

theorem Coherent.addAll (list : List Nat) : (list.foldl IndexSparseSet.add set).Coherent ∧
      ∀ other, other ∈ (list.foldl IndexSparseSet.add set).values ↔ other ∈ set.values ∨ other ∈ list := by
  induction list generalizing set with
  | nil => exact ⟨h,by simp⟩
  | cons value list ih =>
    obtain ⟨hc,hm⟩ := ih (h.add : (set.add value).Coherent)
    refine ⟨hc,fun other => ?_⟩
    rw [foldl_cons,hm,h.mem_add,mem_cons,or_assoc]

theorem Coherent.removeAll (list : List Nat) : (list.foldl IndexSparseSet.remove set).Coherent ∧
      ∀ other, other ∈ (list.foldl IndexSparseSet.remove set).values ↔ other ∈ set.values ∧ other ∉ list := by
  induction list generalizing set with
  | nil => exact ⟨h,by simp⟩
  | cons value list ih =>
    obtain ⟨hc,hm⟩ := ih (h.remove : (set.remove value).Coherent)
    refine ⟨hc,fun other => ?_⟩
    rw [foldl_cons,hm,h.mem_remove,mem_cons,not_or,and_assoc]

end

theorem mem_sort : other ∈ set.sort.values ↔ other ∈ set.values := mem_mergeSort

theorem Coherent.sorted_sort (h : set.Coherent) : set.sort.values.Pairwise (· < ·) := by
  exact ((pairwise_mergeSort' (· ≤ ·) set.values).and (nodup_mergeSort.2 h.nodup)).imp fun ⟨hl,hn⟩ => Nat.lt_of_le_of_ne hl hn

end

inductive Operation where
  | add (value : Nat)
  | remove (value : Nat)
  | clear

def perform (set : IndexSparseSet) : Operation → IndexSparseSet
  | .add value => set.add value
  | .remove value => set.remove value
  | .clear => set.clear

/-- The same operation on a finite set. -/
def performOn (elements : Finset Nat) : Operation → Finset Nat
  | .add value => insert value elements
  | .remove value => elements.erase value
  | .clear => ∅

/-- The sparse set has the elements of a finite set. -/
def Represents (set : IndexSparseSet) (elements : Finset Nat) : Prop :=
  set.Coherent ∧ ∀ value, value ∈ set.values ↔ value ∈ elements

theorem Represents.perform {set : IndexSparseSet} {elements : Finset Nat} (h : set.Represents elements) (operation : Operation) :
    (set.perform operation).Represents (performOn elements operation) := by
  obtain ⟨hc,hm⟩ := h
  cases operation with
  | add value =>
    refine ⟨hc.add,fun other => hc.mem_add.trans ?_⟩
    rw [hm,performOn,Finset.mem_insert,or_comm]
  | remove value =>
    refine ⟨hc.remove,fun other => hc.mem_remove.trans ?_⟩
    rw [hm,performOn,Finset.mem_erase,and_comm]
  | clear => exact ⟨coherent_clear,fun other => iff_of_false not_mem_nil (Finset.notMem_empty other)⟩

theorem Represents.run {set : IndexSparseSet} {elements : Finset Nat} (h : set.Represents elements) (operations : List Operation) :
    (operations.foldl IndexSparseSet.perform set).Represents (operations.foldl performOn elements) := by
  induction operations generalizing set elements with
  | nil => exact h
  | cons operation operations ih => exact ih (h.perform operation)

/-- Whatever the table holds at first, after any operations the set contains the elements of the finite set, and as many. -/
theorem run_represents (map : Nat → Nat) (operations : List Operation) :
    let set := operations.foldl perform ⟨map,[]⟩
    let elements := operations.foldl performOn ∅
    (∀ value, set.contains value ↔ value ∈ elements) ∧ set.size = elements.card := by
  have h : Represents ⟨map,[]⟩ ∅ := ⟨nofun,by simp⟩
  obtain ⟨hc,hm⟩ := h.run operations
  refine ⟨fun value => hc.contains_iff.trans (hm value),?_⟩
  rw [size,← toFinset_card_of_nodup hc.nodup]
  congr 1
  ext value
  rw [mem_toFinset,hm]

end IndexSparseSet
end WebKit.WTF
