import Mathlib.Computability.EpsilonNFA

/-! Partial deterministic automata: a run is stuck at the first missing transition. -/
namespace WebKit.Base

variable {A P Q : Type*}

/-- Run over a word; none when a transition is missing. -/
def run (step : Q → A → Option Q) : Q → List A → Option Q
  | q, [] => some q
  | q, a::w => (step q a).bind fun q' => run step q' w

theorem run_append (step : Q → A → Option Q) (q : Q) (v w : List A) :
    run step q (v ++ w) = (run step q v).bind fun q' => run step q' w := by
  induction v generalizing q with
  | nil => rfl
  | cons a v ih =>
    change (step q a).bind (fun q' => run step q' (v ++ w)) = ((step q a).bind _).bind _
    rw [Option.bind_assoc]
    congr 1
    funext q'
    exact ih q'

theorem run_append_singleton {step : Q → A → Option Q} {q q' : Q} {w : List A} {a : A}
    (h : run step q w = some q') : run step q (w ++ [a]) = step q' a := by
  rw [run_append,h]
  cases hs : step q' a <;> simp [run,hs]

variable {R : P → Q → Prop} {s : Option P × Option Q} {stepP : P → A → Option P} {stepQ : Q → A → Option Q}

/-- A simulation of one step is one of runs. -/
theorem run_rel (ok : A → Prop)
    (hs : ∀ p q a, R p q → ok a → Option.Rel R (stepP p a) (stepQ q a)) {p : P} {q : Q} (h : R p q) {w : List A}
    (hw : ∀ a ∈ w, ok a) : Option.Rel R (run stepP p w) (run stepQ q w) := by
  induction w generalizing p q with
  | nil => exact .some h
  | cons a w ih =>
    obtain ⟨ha,hw⟩ := List.forall_mem_cons.1 hw
    rw [run,run]
    have hr := hs p q a h ha
    generalize stepP p a = p' at hr ⊢
    generalize stepQ q a = q' at hr ⊢
    cases hr with
    | some h' => exact ih h' hw
    | none => exact .none

variable {q : Option Q}

theorem rel_eq_none_iff {p : Option P} (h : Option.Rel R p q) : p = none ↔ q = none := by
  cases h <;> simp

theorem rel_of_eq_some {p : P} (h : Option.Rel R (some p) q) : ∃ q', q = some q' ∧ R p q' := by
  cases h with
  | some h => exact ⟨_,rfl,h⟩

theorem rel_mono {R' : P → Q → Prop} (hR : ∀ p q, R p q → R' p q) {p : Option P}
    (h : Option.Rel R p q) : Option.Rel R' p q := by
  cases h with
  | some h => exact .some (hR _ _ h)
  | none => exact .none

/-- A pair of runs, unless both are stuck. -/
def unlessStuck : Option P × Option Q → Option (Option P × Option Q)
  | (none, none) => none
  | s => some s

theorem unlessStuck_eq_none : unlessStuck s = none ↔ s = (none, none) := by
  obtain ⟨p,q⟩ := s
  cases p <;> cases q <;> simp [unlessStuck]

theorem unlessStuck_of_ne (h : s ≠ (none, none)) : unlessStuck s = some s := by
  obtain ⟨p,q⟩ := s
  cases p <;> cases q <;> simp_all [unlessStuck]

/-- Two automata side by side, stuck when both are. -/
def productStep (stepP : P → A → Option P) (stepQ : Q → A → Option Q) (s : Option P × Option Q) (a : A) :
    Option (Option P × Option Q) := unlessStuck (s.1.bind fun p => stepP p a, s.2.bind fun q => stepQ q a)

theorem of_productStep {s' : Option P × Option Q} {a : A} (h : productStep stepP stepQ s a = some s') :
    s' = (s.1.bind fun p => stepP p a, s.2.bind fun q => stepQ q a) ∧ s' ≠ (none, none) := by
  unfold productStep at h
  by_cases hs : (s.1.bind fun p => stepP p a, s.2.bind fun q => stepQ q a) = ((none, none) : Option P × Option Q)
  · rw [unlessStuck_eq_none.2 hs] at h
    cases h
  · rw [unlessStuck_of_ne hs] at h
    cases h
    exact ⟨rfl,hs⟩

private theorem bind_run_cons (step : Q → A → Option Q) (q : Option Q) (a : A) (w : List A) :
    (q.bind fun q => step q a).bind (fun q => run step q w) = q.bind fun q => run step q (a::w) := by
  cases q <;> rfl

/-- The product runs both automata. -/
theorem run_productStep (stepP : P → A → Option P) (stepQ : Q → A → Option Q)
    (hs : s ≠ (none, none)) (w : List A) : run (productStep stepP stepQ) s w =
      unlessStuck (s.1.bind fun p => run stepP p w, s.2.bind fun q => run stepQ q w) := by
  induction w generalizing s with
  | nil =>
    obtain ⟨p,q⟩ := s
    cases p <;> cases q <;> simp_all [unlessStuck,run]
  | cons a w ih =>
    rw [run,productStep,← bind_run_cons,← bind_run_cons]
    by_cases hst : (s.1.bind fun p => stepP p a, s.2.bind fun q => stepQ q a) = ((none, none) : Option P × Option Q)
    · rw [unlessStuck_eq_none.2 hst,(Prod.mk.inj hst).1,(Prod.mk.inj hst).2]
      rfl
    · rw [unlessStuck_of_ne hst,Option.bind_some,ih hst]

section
variable {σ : Type*} (M : εNFA A σ)
open Classical

/-- The automaton of state sets, stuck where no state is left. -/
noncomputable def subsetStep (S : Set σ) (a : A) : Option (Set σ) :=
  if M.stepSet S a = ∅ then none else some (M.stepSet S a)

private theorem foldl_stepSet_empty (w : List A) : w.foldl M.stepSet ∅ = ∅ := by
  induction w with
  | nil => rfl
  | cons a w ih => rw [List.foldl_cons,εNFA.stepSet_empty,ih]

/-- Stuck exactly when the nondeterministic automaton has no state left. -/
theorem run_subsetStep {S : Set σ} (hS : S ≠ ∅) (w : List A) :
    run (subsetStep M) S w = if w.foldl M.stepSet S = ∅ then none else some (w.foldl M.stepSet S) := by
  induction w generalizing S with
  | nil => simp [run,hS]
  | cons a w ih =>
    rw [run,subsetStep,List.foldl_cons]
    by_cases h : M.stepSet S a = ∅
    · rw [if_pos h,h,foldl_stepSet_empty]
      simp
    · rw [if_neg h,Option.bind_some,ih h]

end
end WebKit.Base
