import Mathlib.Data.List.Perm.Basic
import Mathlib.Data.List.Nodup

/-! Hash sets as lists in insertion order. The order of iteration is an arbitrary function of the insertion history. -/
namespace WebKit.Base
open List

/-- The order in which a table filled in a given order is iterated. -/
structure IterationOrder (α : Type*) where
  visit : List α → List α
  visit_perm : ∀ s, (visit s).Perm s

def IterationOrder.insertion (α : Type*) : IterationOrder α := ⟨id,fun _ => .refl _⟩

namespace HashSet
variable {α : Type*} [DecidableEq α]

def add (s : List α) (a : α) : List α := if a ∈ s then s else s ++ [a]

def addAll (s : List α) (as : List α) : List α := as.foldl add s

variable {s : List α}

theorem mem_add {a b : α} : b ∈ add s a ↔ b ∈ s ∨ b = a := by
  unfold add
  split
  next h =>
    constructor
    · exact .inl
    · rintro (hb | rfl)
      · exact hb
      · exact h
  · simp

theorem nodup_add {a : α} (h : s.Nodup) : (add s a).Nodup := by
  unfold add
  split
  · exact h
  next ha => exact nodup_append.2 ⟨h,nodup_singleton a,by
      intro x hx y hy
      rw [mem_singleton] at hy
      rintro rfl
      exact ha (hy ▸ hx)⟩

theorem mem_addAll {as : List α} {b : α} : b ∈ addAll s as ↔ b ∈ s ∨ b ∈ as := by
  induction as generalizing s with
  | nil => simp [addAll]
  | cons a as ih =>
    change b ∈ addAll (add s a) as ↔ _
    rw [ih,mem_add,mem_cons,or_assoc]

theorem nodup_addAll {as : List α} (h : s.Nodup) : (addAll s as).Nodup := by
  induction as generalizing s with
  | nil => exact h
  | cons a as ih => exact ih (nodup_add h)

end HashSet

namespace IterationOrder
variable {α : Type*} (order : IterationOrder α) {s : List α}

@[simp] theorem mem_visit {a : α} : a ∈ order.visit s ↔ a ∈ s := (order.visit_perm s).mem_iff

theorem nodup_visit : (order.visit s).Nodup ↔ s.Nodup := (order.visit_perm s).nodup_iff

@[simp] theorem length_visit (s : List α) : (order.visit s).length = s.length := (order.visit_perm s).length_eq

theorem visit_eq_nil : order.visit s = [] ↔ s = [] := by
  rw [← length_eq_zero_iff,length_visit,length_eq_zero_iff]

end IterationOrder
end WebKit.Base
