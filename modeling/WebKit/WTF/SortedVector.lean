import Mathlib.Data.List.Sort

/-! Vectors kept sorted and free of repetitions as sets. -/
namespace WebKit.WTF
open List

variable {α : Type*} [LinearOrder α]

/-- The first element of every run of equal elements. -/
def removeRepeatedElements : List α → List α
  | [] => []
  | [a] => [a]
  | a::b::vector => if a = b then removeRepeatedElements (b::vector) else a :: removeRepeatedElements (b::vector)

def mergeDeduplicatedSorted : List α → List α → List α
  | left::lefts, right::rights =>
    if left < right then left :: mergeDeduplicatedSorted lefts (right::rights)
    else if left = right then left :: mergeDeduplicatedSorted lefts rights
    else right :: mergeDeduplicatedSorted (left::lefts) rights
  | lefts, rights => lefts ++ rights
termination_by lefts rights => lefts.length + rights.length

theorem mem_removeRepeatedElements {vector : List α} {x : α} : x ∈ removeRepeatedElements vector ↔ x ∈ vector := by
  fun_induction removeRepeatedElements vector with
  | case1 => rfl
  | case2 a => rfl
  | case3 b vector ih =>
    simp only [ih,mem_cons,or_self_left]
  | case4 a b vector hn ih => rw [mem_cons,ih,mem_cons (b := a)]

theorem sorted_removeRepeatedElements {v : List α} (h : v.Pairwise (· ≤ ·)) :
    (removeRepeatedElements v).Pairwise (· < ·) := by
  fun_induction removeRepeatedElements v with
  | case1 => exact List.Pairwise.nil
  | case2 a => exact pairwise_singleton _ a
  | case3 b v ih => exact ih h.of_cons
  | case4 a b v hn ih =>
    refine pairwise_cons.2 ⟨fun x hx => ?_,ih h.of_cons⟩
    obtain ⟨ha,hb⟩ := pairwise_cons.1 h
    rw [mem_removeRepeatedElements] at hx
    have hl : a < b := lt_of_le_of_ne (ha b mem_cons_self) hn
    rcases mem_cons.1 hx with rfl | hx
    · exact hl
    · exact hl.trans_le ((pairwise_cons.1 hb).1 x hx)

theorem mem_mergeDeduplicatedSorted {ls rights : List α} {x : α} :
    x ∈ mergeDeduplicatedSorted ls rights ↔ x ∈ ls ∨ x ∈ rights := by
  fun_induction mergeDeduplicatedSorted ls rights with
  | case1 left ls right rights hl ih => simp only [mem_cons,ih,or_assoc]
  | case2 ls right rights hl ih =>
    simp only [mem_cons,ih]
    tauto
  | case3 left ls right rights hl hn ih =>
    simp only [mem_cons,ih]
    tauto
  | case4 ls rights h => exact mem_append

theorem sorted_mergeDeduplicatedSorted {ls rs : List α} (hl : ls.Pairwise (· < ·))
    (hr : rs.Pairwise (· < ·)) : (mergeDeduplicatedSorted ls rs).Pairwise (· < ·) := by
  fun_induction mergeDeduplicatedSorted ls rs with
  | case1 left ls right rs hlt ih =>
    refine pairwise_cons.2 ⟨fun x hx => ?_,ih hl.of_cons hr⟩
    rw [mem_mergeDeduplicatedSorted,mem_cons] at hx
    obtain hx | rfl | hx := hx
    · exact (pairwise_cons.1 hl).1 x hx
    · exact hlt
    · exact hlt.trans ((pairwise_cons.1 hr).1 x hx)
  | case2 ls right rs hlt ih =>
    refine pairwise_cons.2 ⟨fun x hx => ?_,ih hl.of_cons hr.of_cons⟩
    rw [mem_mergeDeduplicatedSorted] at hx
    obtain hx | hx := hx
    · exact (pairwise_cons.1 hl).1 x hx
    · exact (pairwise_cons.1 hr).1 x hx
  | case3 left ls right rs hlt hn ih =>
    refine pairwise_cons.2 ⟨fun x hx => ?_,ih hl hr.of_cons⟩
    have hg : right < left := lt_of_le_of_ne (not_lt.1 hlt) (Ne.symm hn)
    rw [mem_mergeDeduplicatedSorted,mem_cons] at hx
    obtain (rfl | hx) | hx := hx
    · exact hg
    · exact hg.trans ((pairwise_cons.1 hl).1 x hx)
    · exact (pairwise_cons.1 hr).1 x hx
  | case4 ls rs h =>
    cases ls with
    | nil => exact hr
    | cons left ls =>
      cases rs with
      | nil => rwa [append_nil]
      | cons right rs => exact absurd rfl (h left ls right rs rfl)

end WebKit.WTF
