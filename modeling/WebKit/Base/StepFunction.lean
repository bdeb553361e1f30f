import Mathlib.Data.List.Basic
import Mathlib.Order.Lattice

/-! Step functions on a linear order as an initial value and breaks, and combining two of them in one sweep. -/
namespace WebKit.Base.StepFunction
open List

section
variable {α β γ δ : Type*}

/-- The value behind all breaks. -/
def finalValue (initial : β) : List (α × β) → β
  | [] => initial
  | (_, value) :: breaks => finalValue value breaks

/-- Every break changes the value. -/
def Alternates (initial : β) : List (α × β) → Prop
  | [] => True
  | (_, value) :: breaks => value ≠ initial ∧ Alternates value breaks

/-- Drop the breaks that do not change the value. -/
def coalesce [DecidableEq β] (initial : β) : List (α × β) → List (α × β)
  | [] => []
  | (p, value) :: breaks => if value = initial then coalesce initial breaks else (p, value) :: coalesce value breaks

theorem finalValue_map (e : α → γ) (f : β → δ) (v : β) (l : List (α × β)) :
    finalValue (f v) (l.map fun b => (e b.1, f b.2)) = f (finalValue v l) := by
  induction l generalizing v with
  | nil => rfl
  | cons b l ih => exact ih b.2

theorem finalValue_append (v : β) (l m : List (α × β)) : finalValue v (l ++ m) = finalValue (finalValue v l) m := by
  induction l generalizing v with
  | nil => rfl
  | cons b l ih => exact ih b.2

theorem alternates_map {e : α → γ} {f : β → δ} (hf : Function.Injective f) {v : β} {l : List (α × β)}
    (h : Alternates v l) : Alternates (f v) (l.map fun b => (e b.1, f b.2)) := by
  induction l generalizing v with
  | nil => trivial
  | cons b l ih => exact ⟨hf.ne h.1,ih h.2⟩

theorem alternates_append {v : β} {l m : List (α × β)} :
    Alternates v (l ++ m) ↔ Alternates v l ∧ Alternates (finalValue v l) m := by
  induction l generalizing v with
  | nil => exact ⟨fun h => ⟨trivial,h⟩,And.right⟩
  | cons b l ih => rw [cons_append,Alternates,ih,Alternates,finalValue,and_assoc]

variable [DecidableEq β] {init : β} {breaks : List (α × β)}

theorem coalesce_eq (init : β) (b : α × β) (breaks : List (α × β)) : coalesce init (b::breaks) =
    if b.2 = init then coalesce init breaks else b :: coalesce b.2 breaks := rfl

theorem coalesce_sublist (init : β) (breaks : List (α × β)) : (coalesce init breaks).Sublist breaks := by
  induction breaks generalizing init with
  | nil => exact .slnil
  | cons b breaks ih =>
    rw [coalesce_eq]
    split
    · exact (ih init).cons b
    · exact (ih b.2).cons_cons b

theorem finalValue_coalesce (init : β) (breaks : List (α × β)) :
    finalValue init (coalesce init breaks) = finalValue init breaks := by
  induction breaks generalizing init with
  | nil => rfl
  | cons b breaks ih =>
    rw [coalesce_eq]
    split
    next he => rw [ih,finalValue,he]
    · exact ih b.2

theorem coalesce_cons (init vl : β) (p : α) (breaks : List (α × β)) :
    coalesce init ((p, vl) :: breaks) = coalesce init [(p, vl)] ++ coalesce vl breaks := by
  rw [coalesce_eq,coalesce_eq]
  split
  next he => exact he ▸ rfl
  · rfl

theorem coalesce_alternates (init : β) (breaks : List (α × β)) : Alternates init (coalesce init breaks) := by
  induction breaks generalizing init with
  | nil => trivial
  | cons b breaks ih =>
    rw [coalesce_eq]
    split
    · exact ih init
    next hn => exact ⟨hn,ih b.2⟩

theorem coalesce_of_alternates (h : Alternates init breaks) : coalesce init breaks = breaks := by
  induction breaks generalizing init with
  | nil => rfl
  | cons b breaks ih => rw [coalesce_eq,if_neg h.1,ih h.2]

theorem coalesce_of_constant (h : ∀ b ∈ breaks, b.2 = init) : coalesce init breaks = [] := by
  induction breaks with
  | nil => rfl
  | cons b breaks ih =>
    rw [coalesce_eq,if_pos (h b mem_cons_self),ih fun b' hb' => h b' (mem_cons_of_mem _ hb')]

end

section
variable {α β γ δ : Type*} [LinearOrder α]

/-- The value at a point: that of the last break that is not behind it. -/
def valueAt (initial : β) : List (α × β) → α → β
  | [], _ => initial
  | (p, value) :: breaks, x => if x < p then initial else valueAt value breaks x

abbrev Ascending (breaks : List (α × β)) : Prop := breaks.Pairwise fun a b => a.1 < b.1

/-- The breaks of a combination of two step functions. -/
def combine (g : β → γ → δ) (v : β) (w : γ) : List (α × β) → List (α × γ) → List (α × δ)
  | [], m => m.map fun b => (b.1, g v b.2)
  | l, [] => l.map fun b => (b.1, g b.2 w)
  | (p, v') :: l, (q, w') :: m =>
    if p < q then (p, g v' w) :: combine g v' w l ((q, w') :: m)
    else if q < p then (q, g v w') :: combine g v w' ((p, v') :: l) m
    else (p, g v' w') :: combine g v' w' l m
termination_by l m => l.length + m.length

variable {l breaks : List (α × β)} {v : β} {x : α}

theorem valueAt_cons (v : β) (b : α × β) (l : List (α × β)) (x : α) :
    valueAt v (b::l) x = if x < b.1 then v else valueAt b.2 l x := rfl

theorem valueAt_cons_of_lt {w : β} {p : α} (h : x < p) : valueAt v ((p, w) :: l) x = v :=
  if_pos h

theorem valueAt_cons_of_le {w : β} {p : α} (h : p ≤ x) : valueAt v ((p, w) :: l) x = valueAt w l x :=
  if_neg h.not_gt

variable {init : β}

theorem valueAt_of_lt (h : ∀ b ∈ breaks, x < b.1) : valueAt init breaks x = init := by
  cases breaks with
  | nil => rfl
  | cons b breaks => exact if_pos (h b mem_cons_self)

theorem valueAt_of_le (h : ∀ b ∈ breaks, b.1 ≤ x) : valueAt init breaks x = finalValue init breaks := by
  induction breaks generalizing init with
  | nil => rfl
  | cons b breaks ih =>
    rw [valueAt_cons,if_neg (h b mem_cons_self).not_gt,ih fun b' hb' => h b' (mem_cons_of_mem _ hb')]
    rfl

theorem valueAt_coalesce [DecidableEq β] (h : Ascending breaks) (x : α) :
    valueAt init (coalesce init breaks) x = valueAt init breaks x := by
  induction breaks generalizing init with
  | nil => rfl
  | cons b breaks ih =>
    obtain ⟨hl,ht⟩ := pairwise_cons.1 h
    rw [coalesce_eq,valueAt_cons]
    split_ifs with he hx hx
    · rw [ih ht]
      exact valueAt_of_lt fun b' hb' => hx.trans (hl b' hb')
    · rw [ih ht,he]
    · rw [valueAt_cons,if_pos hx]
    · rw [valueAt_cons,if_neg hx,ih ht]

theorem valueAt_map {κ : Type*} [LinearOrder κ] {e : α → κ} (he : StrictMono e) (f : β → δ) (v : β) (l : List (α × β))
    (x : α) : valueAt (f v) (l.map fun b => (e b.1, f b.2)) (e x) = f (valueAt v l x) := by
  induction l generalizing v with
  | nil => rfl
  | cons b l ih =>
    simp only [map_cons,valueAt_cons,ih,he.lt_iff_lt]
    split <;> rfl

theorem ascending_map {κ : Type*} [LinearOrder κ] {e : α → κ} (he : StrictMono e) {f : β → δ}
    (h : Ascending l) : Ascending (l.map fun b => (e b.1, f b.2)) :=
  pairwise_map.2 (h.imp fun hl => he hl)

theorem valueAt_mem (v : β) (l : List (α × β)) (x : α) : valueAt v l x ∈ v :: l.map Prod.snd := by
  induction l generalizing v with
  | nil => exact mem_cons_self
  | cons b l ih =>
    rw [valueAt_cons]
    split
    · exact mem_cons_self
    · exact mem_cons_of_mem _ (ih b.2)

theorem valueAt_of_mem (h : Ascending l) {b : α × β} (hb : b ∈ l) : valueAt v l b.1 = b.2 := by
  induction l generalizing v with
  | nil => exact absurd hb not_mem_nil
  | cons c l ih =>
    obtain ⟨hc,hl⟩ := pairwise_cons.1 h
    rcases mem_cons.1 hb with rfl | hb
    · rw [valueAt_cons_of_le le_rfl,valueAt_of_lt hc]
    · rw [valueAt_cons_of_le (hc b hb).le,ih hl hb]

theorem valueAt_append_of_le {m : List (α × β)} (h : ∀ b ∈ l, b.1 ≤ x) :
    valueAt v (l ++ m) x = valueAt (finalValue v l) m x := by
  induction l generalizing v with
  | nil => rfl
  | cons b l ih =>
    obtain ⟨hb,hl⟩ := forall_mem_cons.1 h
    rw [cons_append,valueAt_cons_of_le hb,ih hl,finalValue]

variable {g : β → γ → δ} {v : β} {w : γ} {l : List (α × β)} {m : List (α × γ)}

theorem finalValue_combine : finalValue (g v w) (combine g v w l m) = g (finalValue v l) (finalValue w m) := by
  fun_induction combine g v w l m with
  | case1 v w m => exact finalValue_map id (g v) w m
  | case2 v w l _ => exact finalValue_map id (g · w) v l
  | case3 v w p v' l q w' m _ ih => exact ih
  | case4 v w p v' l q w' m _ _ ih => exact ih
  | case5 v w p v' l q w' m _ _ ih => exact ih

/-- A break of a combination is one of a step function, and its value is made of values of both. -/
theorem of_mem_combine {b : α × δ} (h : b ∈ combine g v w l m) : (b.1 ∈ l.map Prod.fst ∨ b.1 ∈ m.map Prod.fst) ∧
    ∃ v' ∈ v :: l.map Prod.snd, ∃ w' ∈ w :: m.map Prod.snd, b.2 = g v' w' := by
  fun_induction combine g v w l m with
  | case1 v w m =>
    obtain ⟨b',hb',rfl⟩ := mem_map.1 h
    exact ⟨.inr (mem_map_of_mem hb'),v,mem_cons_self,b'.2,mem_cons_of_mem _ (mem_map_of_mem hb'),rfl⟩
  | case2 v w l _ =>
    obtain ⟨b',hb',rfl⟩ := mem_map.1 h
    exact ⟨.inl (mem_map_of_mem hb'),b'.2,mem_cons_of_mem _ (mem_map_of_mem hb'),w,mem_cons_self,rfl⟩
  | case3 v w p v' l q w' m _ ih =>
    rcases mem_cons.1 h with rfl | h
    · exact ⟨by simp,v',by simp,w,by simp,rfl⟩
    · obtain ⟨hb,a,ha,c,hc,he⟩ := ih h
      exact ⟨hb.imp_left (mem_cons_of_mem _),a,mem_cons_of_mem _ ha,c,hc,he⟩
  | case4 v w p v' l q w' m _ _ ih =>
    rcases mem_cons.1 h with rfl | h
    · exact ⟨by simp,v,by simp,w',by simp,rfl⟩
    · obtain ⟨hb,a,ha,c,hc,he⟩ := ih h
      exact ⟨hb.imp_right (mem_cons_of_mem _),a,ha,c,mem_cons_of_mem _ hc,he⟩
  | case5 v w p v' l q w' m _ _ ih =>
    rcases mem_cons.1 h with rfl | h
    · exact ⟨by simp,v',by simp,w',by simp,rfl⟩
    · obtain ⟨hb,a,ha,c,hc,he⟩ := ih h
      exact ⟨hb.imp (mem_cons_of_mem _) (mem_cons_of_mem _),a,mem_cons_of_mem _ ha,c,mem_cons_of_mem _ hc,he⟩

private theorem lt_of_mem_combine {p : α} (hl : ∀ b ∈ l, p < b.1) (hm : ∀ b ∈ m, p < b.1) :
    ∀ b ∈ combine g v w l m, p < b.1 := by
  intro b hb
  rcases (of_mem_combine hb).1 with h | h
  · obtain ⟨b',hb',he⟩ := mem_map.1 h
    exact he ▸ hl b' hb'
  · obtain ⟨b',hb',he⟩ := mem_map.1 h
    exact he ▸ hm b' hb'

theorem combine_ascending (hl : Ascending l) (hm : Ascending m) : Ascending (combine g v w l m) := by
  fun_induction combine g v w l m with
  | case1 v w m => exact pairwise_map.2 hm
  | case2 v w l _ => exact pairwise_map.2 hl
  | case3 v w p v' l q w' m hpq ih =>
    obtain ⟨hp,hl⟩ := pairwise_cons.1 hl
    refine pairwise_cons.2 ⟨lt_of_mem_combine hp ?_,ih hl hm⟩
    exact forall_mem_cons.2 ⟨hpq,fun b hb => hpq.trans ((pairwise_cons.1 hm).1 b hb)⟩
  | case4 v w p v' l q w' m _ hqp ih =>
    obtain ⟨hq,hm⟩ := pairwise_cons.1 hm
    refine pairwise_cons.2 ⟨lt_of_mem_combine ?_ hq,ih hl hm⟩
    exact forall_mem_cons.2 ⟨hqp,fun b hb => hqp.trans ((pairwise_cons.1 hl).1 b hb)⟩
  | case5 v w p v' l q w' m hpq hqp ih =>
    obtain rfl : p = q := le_antisymm (not_lt.1 hqp) (not_lt.1 hpq)
    obtain ⟨hp,hl⟩ := pairwise_cons.1 hl
    obtain ⟨hq,hm⟩ := pairwise_cons.1 hm
    exact pairwise_cons.2 ⟨lt_of_mem_combine hp hq,ih hl hm⟩

/-- The sweep computes the combination at every point. -/
theorem valueAt_combine (hl : Ascending l) (hm : Ascending m) (x : α) :
    valueAt (g v w) (combine g v w l m) x = g (valueAt v l x) (valueAt w m x) := by
  fun_induction combine g v w l m with
  | case1 v w m => exact valueAt_map strictMono_id (g v) w m x
  | case2 v w l _ => exact valueAt_map strictMono_id (g · w) v l x
  | case3 v w p v' l q w' m hp ih =>
    rcases lt_or_ge x p with hx | hx
    · rw [valueAt_cons_of_lt hx,valueAt_cons_of_lt hx,valueAt_cons_of_lt (hx.trans hp)]
    · rw [valueAt_cons_of_le hx,valueAt_cons_of_le hx,ih (pairwise_cons.1 hl).2 hm]
  | case4 v w p v' l q w' m _ hq ih =>
    rcases lt_or_ge x q with hx | hx
    · rw [valueAt_cons_of_lt hx,valueAt_cons_of_lt (hx.trans hq),valueAt_cons_of_lt hx]
    · rw [valueAt_cons_of_le hx,valueAt_cons_of_le hx,ih hl (pairwise_cons.1 hm).2]
  | case5 v w p v' l q w' m hp hq ih =>
    obtain rfl : p = q := le_antisymm (not_lt.1 hq) (not_lt.1 hp)
    rcases lt_or_ge x p with hx | hx
    · rw [valueAt_cons_of_lt hx,valueAt_cons_of_lt hx,valueAt_cons_of_lt hx]
    · rw [valueAt_cons_of_le hx,valueAt_cons_of_le hx,valueAt_cons_of_le hx,
        ih (pairwise_cons.1 hl).2 (pairwise_cons.1 hm).2]

end

section
variable {α : Type*}

/-- The breaks of a truth value that changes at each of some points. -/
def toggles (initial : Bool) : List α → List (α × Bool)
  | [] => []
  | x::xs => (x, !initial) :: toggles (!initial) xs

theorem toggles_cons (init : Bool) (x : α) (xs : List α) : toggles init (x::xs) = (x, !init) :: toggles (!init) xs := rfl

@[simp] theorem map_fst_toggles (init : Bool) (xs : List α) : (toggles init xs).map Prod.fst = xs := by
  induction xs generalizing init with
  | nil => rfl
  | cons x xs ih => rw [toggles_cons,map_cons,ih]

theorem toggles_alternates (init : Bool) (xs : List α) : Alternates init (toggles init xs) := by
  induction xs generalizing init with
  | nil => trivial
  | cons x xs ih => exact ⟨by simp,ih _⟩

/-- Truth values that alternate are determined by where they change. -/
theorem toggles_map_fst {init : Bool} {breaks : List (α × Bool)} (h : Alternates init breaks) :
    toggles init (breaks.map Prod.fst) = breaks := by
  induction breaks generalizing init with
  | nil => rfl
  | cons b breaks ih =>
    have hb : b.2 = !init := Bool.eq_not.2 h.1
    rw [map_cons,toggles_cons,← hb,ih h.2]

theorem toggles_map {γ : Type*} (e : α → γ) (init : Bool) (xs : List α) :
    toggles init (xs.map e) = (toggles init xs).map fun b => (e b.1, b.2) := by
  induction xs generalizing init with
  | nil => rfl
  | cons x xs ih => rw [map_cons,toggles_cons,ih,toggles_cons,map_cons]

theorem toggles_ascending [LinearOrder α] {init : Bool} {xs : List α} :
    Ascending (toggles init xs) ↔ xs.Pairwise (· < ·) := by
  conv_rhs => rw [← map_fst_toggles init xs,pairwise_map]

end
end WebKit.Base.StepFunction
