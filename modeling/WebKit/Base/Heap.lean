import Mathlib.Algebra.Order.Group.Multiset
import Mathlib.Tactic.Abel

/-! Memory as a function from addresses, and assertions about it as the cells they own. Adding two assertions separates them. -/
namespace WebKit.Base
open Multiset Function

variable {α β : Type*} {heap : α → β} {cells cells' : Multiset (α × β)} {a a' : α} {b b' : β}

structure Holds (heap : α → β) (cells : Multiset (α × β)) : Prop where
  distinct : (cells.map Prod.fst).Nodup
  value : ∀ cell ∈ cells, heap cell.1 = cell.2

theorem Holds.move (h : Holds heap cells) (he : cells' = cells) : Holds heap cells' := he ▸ h

theorem Holds.read (h : Holds heap ({(a, b)} + cells)) : heap a = b :=
  h.value (a, b) (mem_add.2 (.inl (mem_singleton_self _)))

theorem Holds.drop (h : Holds heap (cells+cells')) : Holds heap cells' := by
  refine ⟨?_,fun c hc => h.value c (mem_add.2 (.inr hc))⟩
  have hds := h.distinct
  rw [map_add] at hds
  exact (nodup_add.1 hds).2.1

theorem Holds.not_mem (h : Holds heap ({(a, b)} + cells)) : a ∉ cells.map Prod.fst := by
  have hds := h.distinct
  rw [singleton_add,map_cons] at hds
  exact (nodup_cons.1 hds).1

theorem Holds.ne (h : Holds heap ({(a, b)} + ({(a', b')} + cells))) : a ≠ a' := by
  rintro rfl
  apply h.not_mem
  rw [singleton_add,map_cons]
  exact mem_cons_self _ _

variable [DecidableEq α]

theorem Holds.alloc (h : Holds heap cells) (ha : a ∉ cells.map Prod.fst) (b : β) :
    Holds (update heap a b) ({(a, b)} + cells) := by
  refine ⟨?_,fun c hc => ?_⟩
  · rw [singleton_add,map_cons]
    exact nodup_cons.2 ⟨ha,h.distinct⟩
  · rw [singleton_add,mem_cons] at hc
    obtain rfl | hc := hc
    · exact update_self _ _ _
    · rw [update_of_ne,h.value c hc]
      rintro he
      exact ha (he ▸ mem_map_of_mem Prod.fst hc)

theorem Holds.write (h : Holds heap ({(a, b)} + cells)) (b' : β) :
    Holds (update heap a b') ({(a, b')} + cells) := h.drop.alloc h.not_mem b'

def modify (heap : α → β) (a : α) (f : β → β) : α → β := update heap a (f (heap a))

theorem Holds.modify (h : Holds heap ({(a, b)} + cells)) (f : β → β) : Holds (modify heap a f) ({(a, f b)} + cells) := by
  rw [Base.modify,h.read]
  exact h.write (f b)

end WebKit.Base
