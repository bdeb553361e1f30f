import Mathlib.Data.List.DropRight
import Mathlib.Data.List.GetD
import Mathlib.Data.List.Nodup

/-! Tables as lists: slices, appending an entry and changing one. -/
namespace WebKit.Base
open List

/-- The elements of a table in a half-open index range. -/
def slice {α : Type*} (table : List α) (start stop : Nat) : List α := (table.drop start).take (stop-start)

variable {α : Type*} {l : List α}

theorem slice_append_right (table more : List α) : slice (table ++ more) table.length (table ++ more).length = more := by
  simp [slice]

/-- Change the elements of a table in a half-open index range. -/
def mapSlice {α : Type*} (f : α → α) (table : List α) (start stop : Nat) : List α :=
  table.mapIdx fun k a => if start ≤ k ∧ k < stop then f a else a

@[simp] theorem length_mapSlice (f : α → α) (table : List α) (start stop : Nat) :
    (mapSlice f table start stop).length = table.length := length_mapIdx

theorem getElem?_slice (table : List α) (start stop k : Nat) :
    (slice table start stop)[k]? = if start + k < stop then table[start + k]? else none := by
  rw [slice,getElem?_take]
  by_cases hk : start + k < stop
  · rw [if_pos hk,if_pos (by omega),getElem?_drop]
  · rw [if_neg hk,if_neg (by omega)]

section
variable (f : α → α) (table : List α)
include f table

theorem getElem?_mapSlice (start stop k : Nat) :
    (mapSlice f table start stop)[k]? = table[k]?.map fun a => if start ≤ k ∧ k < stop then f a else a := by
  rw [mapSlice,getElem?_mapIdx]

theorem slice_mapSlice_self (start stop : Nat) :
    slice (mapSlice f table start stop) start stop = (slice table start stop).map f := by
  apply ext_getElem?
  intro k
  rw [getElem?_slice,getElem?_map,getElem?_slice]
  split
  next hk =>
    rw [getElem?_mapSlice]
    congr 1
    funext a
    exact if_pos ⟨Nat.le_add_right _ _,hk⟩
  · rfl

theorem slice_mapSlice_of_disjoint {start stop start' stop' : Nat}
    (h : ∀ k, start' ≤ k → k < stop' → ¬(start ≤ k ∧ k < stop)) :
    slice (mapSlice f table start stop) start' stop' = slice table start' stop' := by
  apply ext_getElem?
  intro k
  rw [getElem?_slice,getElem?_slice]
  split
  next hk =>
    rw [getElem?_mapSlice]
    refine (congrArg (table[start' + k]?.map ·) ?_).trans Option.map_id'
    funext a
    exact if_neg (h _ (Nat.le_add_right _ _) hk)
  · rfl

end

/-- An invariant of a loop over a list that speaks of the number of rounds. -/
theorem foldl_induction {σ : Type*} {f : σ → α → σ} (I : Nat → σ → Prop)
    (hs : ∀ k a s, l[k]? = some a → I k s → I (k+1) (f s a)) {s : σ} (h : I 0 s) : I l.length (l.foldl f s) := by
  induction l generalizing I s with
  | nil => exact h
  | cons a l ih => exact ih (fun k => I (k+1)) (fun k b s hb => hs (k+1) b s hb) (hs 0 a s rfl h)

theorem foldl_range_induction {σ : Type*} {f : σ → Nat → σ} {n : Nat} (I : Nat → σ → Prop)
    (hst : ∀ k < n, ∀ s, I k s → I (k+1) (f s k)) {s : σ} (h : I 0 s) : I n ((range n).foldl f s) := by
  have hl := foldl_induction (f := f) (l := range n) I (fun k i s hi hs => by
    obtain ⟨hk,he⟩ := List.getElem?_eq_some_iff.1 hi
    rw [length_range] at hk
    rw [getElem_range] at he
    exact he ▸ hst k hk s hs) h
  rwa [length_range] at hl

theorem slice_append_left {table m : List α} {start stop : Nat} (h : stop ≤ table.length) :
    slice (table ++ m) start stop = slice table start stop := by
  unfold slice
  rcases Nat.lt_or_ge start table.length with hs | hs
  · rw [drop_append_of_le_length (by omega),take_append_of_le_length]
    rw [length_drop]
    omega
  · rw [show stop - start = 0 by omega,take_zero,take_zero]

variable {i : Nat}

theorem getElem?_concat_cases {a b : α} (h : (l ++ [a])[i]? = some b) : l[i]? = some b ∨ i = l.length ∧ b = a := by
  rcases Nat.lt_or_ge i l.length with hi | hi
  · rw [getElem?_append_left hi] at h
    exact .inl h
  · rw [getElem?_append_right hi] at h
    obtain ⟨hl,he⟩ := List.getElem?_eq_some_iff.1 h
    rw [length_singleton] at hl
    have hz : i - l.length = 0 := by omega
    simp only [hz,getElem_cons_zero] at he
    exact .inr ⟨by omega,he.symm⟩

theorem getElem?_mono {l' : List α} (h : l <+: l') {a : α} (hi : l[i]? = some a) : l'[i]? = some a := by
  obtain ⟨m,rfl⟩ := h
  rw [getElem?_append_left (List.getElem?_eq_some_iff.1 hi).1]
  exact hi

theorem mapM_forall₂ {β : Type*} {f : α → Option β} {Q : α → β → Prop}
    (h : ∀ a ∈ l, ∃ b, f a = some b ∧ Q a b) : ∃ bs, l.mapM f = some bs ∧ List.Forall₂ Q l bs := by
  induction l with
  | nil => exact ⟨[],rfl,.nil⟩
  | cons a l ih =>
    obtain ⟨⟨b,hb,hq⟩,hl⟩ := forall_mem_cons.1 h
    obtain ⟨bs,hbs,hqs⟩ := ih hl
    exact ⟨b::bs,by simp [mapM_cons,hb,hbs],.cons hq hqs⟩

theorem mem_modify {f : α → α} {a : α} (h : a ∈ l.modify i f) : ∃ b ∈ l, a = b ∨ a = f b := by
  obtain ⟨j,hj,rfl⟩ := getElem_of_mem h
  rw [length_modify] at hj
  rw [getElem_modify]
  split
  · exact ⟨l[j],getElem_mem hj,.inr rfl⟩
  · exact ⟨l[j],getElem_mem hj,.inl rfl⟩

theorem pairwise_modify {R : α → α → Prop} (h : l.Pairwise R) {f : α → α}
    (hf : ∀ a ∈ l, ∀ b ∈ l, R a b → R (f a) b ∧ R a (f b)) : (l.modify i f).Pairwise R := by
  rw [pairwise_iff_getElem] at h ⊢
  intro j k hj hk hjk
  rw [length_modify] at hj hk
  have hR := hf l[j] (getElem_mem hj) l[k] (getElem_mem hk) (h j k hj hk hjk)
  rw [getElem_modify,getElem_modify]
  by_cases hi : i = j
  · rw [if_pos hi,if_neg (by omega)]
    exact hR.1
  · rw [if_neg hi]
    split
    · exact hR.2
    · exact h j k hj hk hjk

theorem rdropWhile_append_of_kept {P : α → Bool} {kept : List α} (h : ∀ a ∈ kept, P a = false)
    (l : List α) : (kept ++ l).rdropWhile P = kept ++ l.rdropWhile P := by
  induction l using reverseRecOn with
  | nil =>
    rw [rdropWhile_nil,append_nil,rdropWhile_eq_self_iff]
    intro hn
    rw [h _ (getLast_mem hn)]
    exact Bool.false_ne_true
  | append_singleton l a ih =>
    rw [← append_assoc,rdropWhile_concat,rdropWhile_concat,ih]
    split_ifs
    · rfl
    · rw [append_assoc]

/-- Removing from the front and from the end commute when nothing is removed by both. -/
theorem rdropWhile_dropWhile {P Q : α → Bool} (h : ∀ a, P a → Q a = false) (l : List α) :
    (l.dropWhile P).rdropWhile Q = (l.rdropWhile Q).dropWhile P := by
  have hc (a : α) (l : List α) (ha : Q a = false) : (a::l).rdropWhile Q = a :: l.rdropWhile Q :=
    @rdropWhile_append_of_kept _ Q [a] (by simpa using ha) l
  induction l with
  | nil => rfl
  | cons a l ih =>
    cases ha : P a with
    | true => rw [hc a l (h a ha),dropWhile_cons_of_pos ha,dropWhile_cons_of_pos ha,ih]
    | false =>
      rw [dropWhile_cons_of_neg (by simp [ha])]
      cases hl : (a::l).rdropWhile Q with
      | nil => rfl
      | cons b m =>
        have hab : b = a := (cons_prefix_cons.1 (hl ▸ rdropWhile_prefix Q (a::l))).1
        rw [dropWhile_cons_of_neg (by simp [hab,ha])]

end WebKit.Base
