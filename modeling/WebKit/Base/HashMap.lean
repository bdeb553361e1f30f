import WebKit.Base.HashSet
import WebKit.Base.Lists

/-! Hash maps as lists of entries in insertion order, and grouping by a key. -/
namespace WebKit.Base.HashMap
open List HashSet
variable {α κ ν : Type*} [DecidableEq κ]

def get (key : κ) : List (κ × ν) → Option ν
  | [] => none
  | (k, v) :: entries => if key = k then some v else get key entries

/-- Change the value of a key, first added with an initial value if absent. -/
def update (key : κ) (initial : ν) (f : ν → ν) : List (κ × ν) → List (κ × ν)
  | [] => [(key, f initial)]
  | (k, v) :: entries => if key = k then (k, f v) :: entries else (k, v) :: update key initial f entries

theorem get_update (key : κ) (initial : ν) (f : ν → ν) (es : List (κ × ν)) (k : κ) : get k (update key initial f es) =
      if k = key then some (f ((get key es).getD initial)) else get k es := by
  induction es with
  | nil => rfl
  | cons e es ih =>
    obtain ⟨k',v⟩ := e
    rw [update,get,get]
    by_cases hky : key = k'
    · subst hky
      rw [if_pos rfl,if_pos rfl,get]
      split <;> rfl
    · rw [if_neg hky,if_neg hky,get,ih]
      by_cases hk : k = key
      · rw [if_pos hk,if_pos hk,if_neg (hk ▸ hky)]
      · rw [if_neg hk,if_neg hk]

/-- The keys are a hash set. -/
theorem keys_update (key : κ) (initial : ν) (f : ν → ν) (es : List (κ × ν)) :
    (update key initial f es).map Prod.fst = add (es.map Prod.fst) key := by
  induction es with
  | nil => rfl
  | cons e es ih =>
    obtain ⟨k',v⟩ := e
    rw [update]
    by_cases hk : key = k'
    · rw [if_pos hk,add,if_pos (by rw [hk]; exact mem_cons_self)]
      rfl
    · rw [if_neg hk,map_cons,ih,add,add,map_cons]
      by_cases hm : key ∈ es.map Prod.fst
      · rw [if_pos hm,if_pos (mem_cons_of_mem _ hm)]
      · rw [if_neg hm,if_neg (fun h => (mem_cons.1 h).elim hk hm)]
        rfl

variable {es : List (κ × ν)}

theorem get_eq_some_iff (h : (es.map Prod.fst).Nodup) {k : κ} {v : ν} : get k es = some v ↔ (k, v) ∈ es := by
  induction es with
  | nil => exact iff_of_false (fun h => nomatch h) not_mem_nil
  | cons e es ih =>
    obtain ⟨k',v'⟩ := e
    obtain ⟨hm,hn⟩ := nodup_cons.1 h
    rw [get,mem_cons,← ih hn,Prod.mk.injEq]
    by_cases hk : k = k'
    · subst hk
      rw [if_pos rfl,Option.some.injEq,ih hn]
      constructor
      · exact fun hv => .inl ⟨rfl,hv.symm⟩
      · rintro (⟨-,hv⟩ | hi)
        · exact hv.symm
        · exact absurd (mem_map.2 ⟨_,hi,rfl⟩) hm
    · rw [if_neg hk]
      exact ⟨.inr,fun ho => ho.resolve_left fun he => hk he.1⟩

theorem get_eq_none {k : κ} (h : k ∉ es.map Prod.fst) : get k es = none := by
  induction es with
  | nil => rfl
  | cons e es ih =>
    rw [map_cons,mem_cons,not_or] at h
    rw [get,if_neg h.1,ih h.2]

theorem get_perm {es' : List (κ × ν)} (hp : es.Perm es') (h : (es.map Prod.fst).Nodup)
    (k : κ) : get k es = get k es' := by
  ext v
  rw [get_eq_some_iff h,get_eq_some_iff ((hp.map _).nodup_iff.1 h),hp.mem_iff]

/-- Items collected by key. -/
def group (key : α → κ) (items : List α) : List (κ × List α) :=
  items.foldl (fun entries a => update (key a) [] (· ++ [a]) entries) []

/-- What a grouping holds when some items are collected. -/
private structure Grouped (key : α → κ) (done : List α) (entries : List (κ × List α)) : Prop where
  nodup : (entries.map Prod.fst).Nodup
  get_eq : ∀ k, get k entries = if done.filter (fun a => key a = k) = [] then none else some (done.filter fun a => key a = k)

private theorem Grouped.add {key : α → κ} {done : List α} {es : List (κ × List α)} (h : Grouped key done es)
    (a : α) : Grouped key (done ++ [a]) (update (key a) [] (· ++ [a]) es) where
  nodup := by
    rw [keys_update]
    exact nodup_add h.nodup
  get_eq := by
    intro k
    rw [get_update,filter_append,h.get_eq,h.get_eq]
    by_cases hk : k = key a
    · subst hk
      rw [if_pos rfl,filter_singleton,decide_eq_true rfl,cond_true,
        if_neg (append_ne_nil_of_right_ne_nil _ (cons_ne_nil _ _))]
      split
      next hn => rw [hn,Option.getD_none]
      · rfl
    · rw [if_neg hk,filter_singleton,decide_eq_false (Ne.symm hk),cond_false,append_nil]

private theorem grouped_group (key : α → κ) (it : List α) : Grouped key it (group key it) := by
  have h : Grouped key (it.take it.length) (group key it) := by
    apply foldl_induction fun k => Grouped key (it.take k)
    · intro k a es ha hk
      rw [take_add_one,ha]
      exact hk.add a
    · exact ⟨nodup_nil,fun _ => rfl⟩
  rwa [take_length] at h

/-- The entries of a grouping: for every key that occurs, its items in order. -/
theorem mem_group {key : α → κ} {it : List α} {k : κ} {as : List α} :
    (k, as) ∈ group key it ↔ as = it.filter (fun a => key a = k) ∧ as ≠ [] := by
  have h := grouped_group key it
  rw [← get_eq_some_iff h.nodup,h.get_eq]
  split
  next hn => exact iff_of_false (fun h => nomatch h) fun ⟨he,hne⟩ => hne (he.trans hn)
  next hne =>
    rw [Option.some.injEq]
    constructor
    · rintro rfl
      exact ⟨rfl,hne⟩
    · exact fun ⟨he,_⟩ => he.symm

end WebKit.Base.HashMap
