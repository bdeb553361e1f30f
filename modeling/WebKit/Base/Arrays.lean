import Mathlib.Tactic.Common

/-! Arrays as functions of the index: two arrays that are inverse to each other below a bound. -/
namespace WebKit.Base
open Function

/-- An arrangement of the numbers below a bound, and its inverse. -/
structure InverseArrays (elements positions : Nat → Nat) (n : Nat) : Prop where
  position_lt : ∀ e < n, positions e < n
  element_position : ∀ e < n, elements (positions e) = e
  element_lt : ∀ i < n, elements i < n
  position_element : ∀ i < n, positions (elements i) = i

namespace InverseArrays
variable {elements positions : Nat → Nat} {n : Nat}

theorem position_inj (h : InverseArrays elements positions n) {e f : Nat} (he : e < n) (hf : f < n)
    (heq : positions e = positions f) : e = f := by
  rw [← h.element_position e he,heq,h.element_position f hf]

theorem position_swap (elements positions : Nat → Nat) (e i x : Nat) :
    update (update positions e i) (elements i) (positions e) x =
      if x = elements i then positions e else if x = e then i else positions x := by
  rw [update_apply,update_apply]

theorem swap (h : InverseArrays elements positions n) {e i : Nat} (he : e < n) (hi : i < n) :
    InverseArrays (update (update elements i e) (positions e) (elements i))
      (update (update positions e i) (elements i) (positions e)) n where
  position_lt := by
    intro x hx
    rw [position_swap elements positions]
    split_ifs
    · exact h.position_lt e he
    · exact hi
    · exact h.position_lt x hx
  element_position := by
    intro x hx
    rw [position_swap elements positions]
    split_ifs with hxi hxe
    · rw [update_self,hxi]
    · have hn : i ≠ positions e := by
        intro heq
        exact hxi (by rw [hxe,heq,h.element_position e he])
      rw [update_of_ne hn,update_self,hxe]
    · rw [update_of_ne (fun heq => hxe (h.position_inj hx he heq)),update_of_ne,
        h.element_position x hx]
      intro heq
      exact hxi (by rw [← heq,h.element_position x hx])
  element_lt := by
    intro k hk
    rw [update_apply,update_apply]
    split_ifs
    · exact h.element_lt i hi
    · exact he
    · exact h.element_lt k hk
  position_element := by
    intro k hk
    rw [position_swap elements positions,update_apply,update_apply]
    by_cases hke : k = positions e
    · rw [if_pos hke,if_pos rfl,hke]
    · rw [if_neg hke]
      by_cases hki : k = i
      · rw [if_pos hki,if_neg,if_pos rfl,hki]
        intro heq
        exact hke (by rw [heq,h.position_element i hi,hki])
      · rw [if_neg hki,if_neg,if_neg,h.position_element k hk]
        · intro heq
          exact hke (by rw [← heq,h.position_element k hk])
        · intro heq
          exact hki (by rw [← h.position_element k hk,heq,h.position_element i hi])

end InverseArrays
end WebKit.Base
