import Mathlib.Algebra.Order.BigOperators.Group.List
import Mathlib.Algebra.Order.Ring.Nat
import Mathlib.Data.Fintype.EquivFin
import Mathlib.Data.List.GetD

/-! Placing items into buckets by key: each item goes behind the earlier ones of its bucket. -/
namespace WebKit.Base.Buckets
open List Nat

/-- Where each bucket starts, from the sizes. -/
def starts (sizes : Nat → Nat) : Nat → Nat
  | 0 => 0
  | q + 1 => starts sizes q + sizes q

theorem starts_le (ss : Nat → Nat) {q r : Nat} (h : q < r) : starts ss q + ss q ≤ starts ss r := by
  induction r with
  | zero => omega
  | succ r ih =>
    rcases Nat.lt_succ_iff_lt_or_eq.1 h with hl | rfl
    · exact (ih hl).trans (le_add_right _ _)
    · exact le_rfl

variable (keys : List Nat)

/-- The number of earlier items of the same bucket. -/
def rank (k : Nat) : Nat := (keys.take k).count (keys.getD k 0)

/-- The place of an item. -/
def slot (k : Nat) : Nat := starts (fun q => keys.count q) (keys.getD k 0) + rank keys k

variable {keys} {k : Nat}

theorem rank_lt (hk : k < keys.length) : rank keys k < keys.count (keys.getD k 0) := by
  have hs : keys = keys.take k ++ keys.getD k 0 :: keys.drop (k+1) := by
    rw [getD_eq_getElem _ _ hk,getElem_cons_drop,take_append_drop]
  have hc := congrArg (List.count (keys.getD k 0)) hs
  rw [count_append,count_cons_self] at hc
  unfold rank
  omega

theorem starts_le_slot (keys : List Nat) (k : Nat) : starts (fun q => keys.count q) (keys.getD k 0) ≤ slot keys k := le_add_right _ _

theorem slot_lt_starts (hk : k < keys.length) :
    slot keys k < starts (fun q => keys.count q) (keys.getD k 0) + keys.count (keys.getD k 0) :=
  Nat.add_lt_add_left (rank_lt hk) _

private theorem rank_lt_rank {j : Nat} (hjk : j < k) (hj : j < keys.length) (hk : keys.getD j 0 = keys.getD k 0) :
    rank keys j < rank keys k := by
  have ht : keys.take k = keys.take j ++ keys.getD j 0 :: (keys.take k).drop (j+1) := by
    have hj' : j < (keys.take k).length := by rw [length_take]; omega
    have hg : (keys.take k)[j] = keys.getD j 0 := by rw [getElem_take,getD_eq_getElem _ _ hj]
    rw [← hg,getElem_cons_drop]
    conv_lhs => rw [← take_append_drop j (keys.take k)]
    rw [take_take,min_eq_left (le_of_lt hjk)]
  unfold rank
  rw [ht,← hk,count_append,count_cons_self]
  omega

theorem slot_injective {j : Nat} (hj : j < keys.length) (hk : k < keys.length) (h : slot keys j = slot keys k) : j = k := by
  have hjs := slot_lt_starts hj
  have hks := slot_lt_starts hk
  have hje := starts_le_slot keys j
  have hke := starts_le_slot keys k
  rcases lt_trichotomy (keys.getD j 0) (keys.getD k 0) with hl | he | hg
  · have := starts_le (fun q => keys.count q) hl
    omega
  · rcases lt_trichotomy j k with hjk | hjk | hjk
    · have := rank_lt_rank hjk hj he
      unfold slot at h
      rw [he] at h
      omega
    · exact hjk
    · have := rank_lt_rank hjk hk he.symm
      unfold slot at h
      rw [he] at h
      omega
  · have := starts_le (fun q => keys.count q) hg
    omega

/-- The buckets take as many places as there are items. -/
theorem starts_eq_length {n : Nat} (h : ∀ q ∈ keys, q < n) : starts (fun q => keys.count q) n = keys.length := by
  induction keys with
  | nil =>
    have : ∀ m, starts (fun q => List.count q ([] : List Nat)) m = 0 := by
      intro m
      induction m with
      | zero => rfl
      | succ m ih => rw [starts,ih,count_nil]
    exact this n
  | cons a keys ih =>
    obtain ⟨ha,hk⟩ := forall_mem_cons.1 h
    have had : ∀ m, starts (fun q => (a::keys).count q) m = starts (fun q => keys.count q) m + if a < m then 1 else 0 := by
      intro m
      induction m with
      | zero => rfl
      | succ m ih =>
        rw [starts,starts,ih,count_cons]
        simp only [beq_iff_eq]
        split_ifs <;> omega
    rw [had,ih hk,if_pos ha,length_cons]

theorem slot_lt (hk : k < keys.length) : slot keys k < keys.length := by
  obtain ⟨n,hb⟩ : ∃ n, ∀ q ∈ keys, q < n :=
    ⟨keys.sum + 1,fun q hq => lt_succ_of_le (single_le_sum (fun _ _ => zero_le _) q hq)⟩
  have hky : keys.getD k 0 < n := by
    rw [getD_eq_getElem _ _ hk]
    exact hb _ (getElem_mem hk)
  have := starts_le (fun q => keys.count q) hky
  rw [starts_eq_length hb] at this
  exact (slot_lt_starts hk).trans_le this

theorem exists_slot {i : Nat} (hi : i < keys.length) : ∃ k < keys.length, slot keys k = i := by
  let place : Fin keys.length → Fin keys.length := fun k => ⟨slot keys k,slot_lt k.2⟩
  have hin : Function.Injective place := by
    intro j k h
    exact Fin.ext (slot_injective j.2 k.2 (congrArg Fin.val h))
  obtain ⟨k,hk⟩ := Finite.injective_iff_surjective.1 hin ⟨i,hi⟩
  exact ⟨k,k.2,congrArg Fin.val hk⟩

/-- The places of a bucket hold the items with its key. -/
theorem key_of_slot {q : Nat} (hk : k < keys.length) (hf : starts (fun q => keys.count q) q ≤ slot keys k)
    (hl : slot keys k < starts (fun q => keys.count q) q + keys.count q) : keys.getD k 0 = q := by
  have hks := slot_lt_starts hk
  have hke := starts_le_slot keys k
  rcases lt_trichotomy (keys.getD k 0) q with hlt | he | hg
  · have := starts_le (fun q => keys.count q) hlt
    omega
  · exact he
  · have := starts_le (fun q => keys.count q) hg
    omega

end WebKit.Base.Buckets
