import WebKit.ContentExtensions.DFAConstruction
import WebKit.ContentExtensions.NFA

/-! The subset construction of the content extension compiler: epsilon closures, combined transitions
and the table of unique node sets. -/
namespace WebKit.ContentExtensions
open WebKit.Base MutableRangeList List ImmutableNFANodeBuilder HashSet ContentExtensions.NFA

def intHash (key : UInt32) : UInt32 :=
  let key := key + ~~~(key <<< 15)
  let key := key ^^^ (key >>> 10)
  let key := key + (key <<< 3)
  let key := key ^^^ (key >>> 6)
  let key := key + ~~~(key <<< 11)
  key ^^^ (key >>> 16)

namespace NFAToDFA

/-- The search for an epsilon closure, with the last unprocessed node first. -/
structure ClosureSearch where
  closure : List Nat
  unprocessedNodes : List Nat
  output : List Nat

def ClosureSearch.add (s : ClosureSearch) (target : Nat) : ClosureSearch :=
  if target ∈ s.closure then s
  else ⟨HashSet.add s.closure target,target::s.unprocessedNodes,s.output ++ [target]⟩

def epsilonClosureStep (nfa : NFA) (s : ClosureSearch) : ClosureSearch ⊕ List Nat :=
  match s.unprocessedNodes with
  | [] => .inr s.output
  | id::unprocessed => .inl ((nfa.epsilonTargets id).foldl ClosureSearch.add { s with unprocessedNodes := unprocessed })

def epsilonClosureExcludingSelf (fuel : Nat) (nfa : NFA) (id : Nat) : Option (List Nat) :=
  loop (epsilonClosureStep nfa) fuel ⟨[id],[id],[]⟩

def resolveEpsilonClosures (fuel : Nat) (nfa : NFA) : Option (List (List Nat)) :=
  (List.range nfa.nodes.length).mapM (epsilonClosureExcludingSelf fuel nfa)

def addWithClosure (closures : List (List Nat)) (set : List Nat) (id : Nat) : List Nat :=
  addAll (add set id) (closures.getD id [])

/-- A node that is already in the set is not closed again. -/
def extendWithClosure (closures : List (List Nat)) (set : List Nat) (id : Nat) : List Nat :=
  if id ∈ set then set else addWithClosure closures set id

def dataConverterWithEpsilonClosure (order : IterationOrder Nat) (closures : List (List Nat)) :
    DataConverter (List Nat) (List Nat) where
  convert ids := ids.foldl (addWithClosure closures) []
  extend destination ids := ids.foldl (extendWithClosure closures) destination
  copy set := order.visit set

def createCombinedTransition (order : IterationOrder Nat) (closures : List (List Nat)) (nfa : NFA) (buffer : List Nat) :
    List (MutableRange (List Nat)) :=
  buffer.foldl (fun ranges id =>
    extend (dataConverterWithEpsilonClosure order closures) ranges (nfa.transitionsForNode id)) []

structure UniqueNodeIdSet where
  buffer : List Nat
  hash : UInt32

/-- Sets of equal size are equal when one contains the other. -/
def UniqueNodeIdSet.equal (set : UniqueNodeIdSet) (other : List Nat) : Bool :=
  set.buffer.length == other.length && set.buffer.all fun id => decide (id ∈ other)

def nodeIdSetHash (order : IterationOrder Nat) (set : List Nat) : UInt32 :=
  intHash ((order.visit set).foldl (fun hash id => hash + UInt32.ofNat id) 4207445155)

def combinedActions (orders : HashOrders) (nfa : NFA) (set : List Nat) : List Nat :=
  orders.actions.visit (addAll [] ((orders.targets.visit set).flatMap nfa.actionsOf))

/-- A node set becomes a node with at most 65535 actions. -/
def nodeSource (orders : HashOrders) (nfa : NFA) (closures : List (List Nat)) : NodeSource (List Nat) UniqueNodeIdSet where
  same entry set := entry.hash == nodeIdSetHash orders.targets set && entry.equal set
  intern set := ⟨orders.targets.visit set,nodeIdSetHash orders.targets set⟩
  actions set := combinedActions orders nfa set
  storedLength _ length := if length ≤ 65535 then some length else none
  transitions entry := createCombinedTransition orders.targets closures nfa entry.buffer

/-- None when the rounds run out, some none for a crash. -/
def convert (orders : HashOrders) (fuel : Nat) (nfa : NFA) : Option (Option DFA) :=
  match resolveEpsilonClosures fuel nfa with
  | none => none
  | some closures =>
    DFAConstruction.construct (nodeSource orders nfa closures) fuel
      (addAll [root] (closures.getD root []))

variable {nfa : NFA}

private theorem foldl_add (ts : List Nat) (s : ClosureSearch) : ∃ f, ts.foldl ClosureSearch.add s =
        ⟨s.closure ++ f,f.reverse ++ s.unprocessedNodes,s.output ++ f⟩ ∧
      (∀ t, t ∈ s.closure ++ f ↔ t ∈ s.closure ∨ t ∈ ts) ∧ (s.closure.Nodup → (s.closure ++ f).Nodup) := by
  induction ts generalizing s with
  | nil => exact ⟨[],by simp,by simp,by simp⟩
  | cons tr ts ih =>
    rw [foldl_cons]
    by_cases hm : tr ∈ s.closure
    · have ha : s.add tr = s := if_pos hm
      obtain ⟨f,he,hi,hn⟩ := ih s
      rw [ha]
      refine ⟨f,he,fun t => ?_,hn⟩
      rw [hi,mem_cons]
      constructor
      · rintro (h | h)
        · exact .inl h
        · exact .inr (.inr h)
      · rintro (h | rfl | h)
        · exact .inl h
        · exact .inl hm
        · exact .inr h
    · have hc : add s.closure tr = s.closure ++ [tr] := if_neg hm
      have ha : s.add tr = ⟨s.closure ++ [tr],tr::s.unprocessedNodes,s.output ++ [tr]⟩ := by
        rw [ClosureSearch.add,if_neg hm,hc]
      obtain ⟨f,he,hi,hn⟩ := ih (s.add tr)
      rw [ha] at he hi hn ⊢
      refine ⟨tr::f,?_,fun t => ?_,fun h => ?_⟩
      · rw [he]
        simp
      · have := hi t
        simp only [append_assoc,cons_append,nil_append] at this
        rw [this,mem_append,mem_singleton,mem_cons,or_assoc]
      · have := hn (hc ▸ nodup_add h)
        simpa only [append_assoc,cons_append,nil_append] using this

/-- The closure holds reachable nodes, and the targets of those processed. -/
structure ClosureInvariant (nfa : NFA) (id : Nat) (s : ClosureSearch) : Prop where
  nodup : s.closure.Nodup
  lt : ∀ t ∈ s.closure, t < nfa.nodes.length
  closure_eq : s.closure = id::s.output
  reachable : ∀ t ∈ s.closure, t ∈ nfa.automaton.εClosure {id}
  queued : ∀ t ∈ s.unprocessedNodes, t ∈ s.closure
  processed : ∀ t ∈ s.closure, t ∉ s.unprocessedNodes → ∀ u ∈ nfa.epsilonTargets t, u ∈ s.closure

private theorem length_le_of_nodup_lt {l : List Nat} {n : Nat} (hn : l.Nodup) (hl : ∀ t ∈ l, t < n) : l.length ≤ n := by
  have hs : l ⊆ List.range n := fun t ht => mem_range.2 (hl t ht)
  have := (hn.subperm hs).length_le
  rwa [length_range] at this

private theorem closureStep_spec (hw : nfa.WellFormed) {id : Nat} {s s' : ClosureSearch} (h : ClosureInvariant nfa id s)
    (hs : epsilonClosureStep nfa s = .inl s') : ClosureInvariant nfa id s' ∧
      2*(nfa.nodes.length-s'.closure.length) + s'.unprocessedNodes.length <
        2*(nfa.nodes.length-s.closure.length) + s.unprocessedNodes.length := by
  unfold epsilonClosureStep at hs
  cases hq : s.unprocessedNodes with
  | nil =>
    rw [hq] at hs
    cases hs
  | cons node un =>
    rw [hq] at hs
    obtain ⟨f,he,hi,hn⟩ := foldl_add (nfa.epsilonTargets node) { s with unprocessedNodes := un }
    dsimp only at hs
    rw [he] at hs
    cases hs
    have hnd : node ∈ s.closure := h.queued node (by rw [hq]; exact mem_cons_self)
    have hlt : ∀ t ∈ s.closure ++ f, t < nfa.nodes.length := by
      intro t ht
      rcases (hi t).1 ht with ho | htg
      · exact h.lt t ho
      · exact (hw.content node).epsilon_lt t htg
    refine ⟨⟨hn h.nodup,hlt,by rw [h.closure_eq]; rfl,?_,?_,?_⟩,?_⟩
    · intro t ht
      rcases (hi t).1 ht with ho | htg
      · exact h.reachable t ho
      · exact εNFA.εClosure.step node t htg (h.reachable node hnd)
    · intro t ht
      rcases mem_append.1 ht with hf | ho
      · exact mem_append_right _ (mem_reverse.1 hf)
      · exact mem_append_left _ (h.queued t (by rw [hq]; exact mem_cons_of_mem _ ho))
    · intro t ht hun u hu
      rw [mem_append,mem_reverse,not_or] at hun
      have ho : t ∈ s.closure := (mem_append.1 ht).resolve_right hun.1
      by_cases he : t = node
      · subst he
        exact (hi u).2 (.inr hu)
      · refine mem_append_left _ (h.processed t ho ?_ u hu)
        rw [hq,mem_cons,not_or]
        exact ⟨he,hun.2⟩
    · have hl := length_le_of_nodup_lt (hn h.nodup) hlt
      simp only [length_append,length_reverse,length_cons] at hl ⊢
      omega

/-- A node with its epsilon closure is its epsilon closure. -/
theorem epsilonClosureExcludingSelf_spec (hw : nfa.WellFormed) {id : Nat} (hi : id < nfa.nodes.length) {f : Nat}
    (hf : 2*nfa.nodes.length ≤ f) : ∃ o, epsilonClosureExcludingSelf f nfa id = some o ∧
      ∀ t, t ∈ id :: o ↔ t ∈ nfa.automaton.εClosure {id} := by
  refine loop_spec (I := ClosureInvariant nfa id)
    (fun s : ClosureSearch => 2*(nfa.nodes.length-s.closure.length) + s.unprocessedNodes.length)
    (fun s s' h hs => closureStep_spec hw h hs) ?_ f _ ?_ ?_
  · intro s o h hs
    unfold epsilonClosureStep at hs
    cases hq : s.unprocessedNodes with
    | cons node un =>
      rw [hq] at hs
      cases hs
    | nil =>
      rw [hq] at hs
      cases hs
      intro t
      rw [← h.closure_eq]
      constructor
      · exact h.reachable t
      · intro ht
        induction ht with
        | base t ht =>
          rw [Set.mem_singleton_iff.1 ht,h.closure_eq]
          exact mem_cons_self
        | step t u hu _ ih => exact h.processed t ih (by rw [hq]; exact not_mem_nil) u hu
  · refine ⟨nodup_singleton id,?_,rfl,?_,fun t ht => ht,?_⟩
    · intro t ht
      rw [mem_singleton.1 ht]
      exact hi
    · intro t ht
      exact εNFA.εClosure.base t (mem_singleton.1 ht)
    · intro t ht hun
      exact absurd ht hun
  · simp only [length_singleton]
    omega

/-- The table of closures holds the closure of every node. -/
def Resolved (nfa : NFA) (closures : List (List Nat)) : Prop :=
  ∀ id < nfa.nodes.length, ∀ t, t ∈ id :: closures.getD id [] ↔ t ∈ nfa.automaton.εClosure {id}

private theorem resolveEpsilonClosures_spec (hw : nfa.WellFormed) (f : Nat) (hf : 2*nfa.nodes.length ≤ f) :
    ∃ cls, resolveEpsilonClosures f nfa = some cls ∧ Resolved nfa cls := by
  obtain ⟨cls,he,hc⟩ := mapM_forall₂ (fun id hi =>
    epsilonClosureExcludingSelf_spec hw (mem_range.1 hi) hf)
  refine ⟨cls,he,fun id hi => ?_⟩
  have hl := hc.length_eq
  rw [length_range] at hl
  have hg := List.Forall₂.get hc (by rw [length_range]; exact hi) (by rw [← hl]; exact hi)
  rw [getD_eq_getElem _ _ (by rw [← hl]; exact hi)]
  simpa using hg

/-- A set with the epsilon closures of its nodes. -/
def Closed (nfa : NFA) (set : List Nat) : Prop := ∀ s ∈ set, ∀ t ∈ nfa.automaton.εClosure {s}, t ∈ set

private theorem closure_trans {S : Set Nat} {s t : Nat} (hs : s ∈ nfa.automaton.εClosure S)
    (ht : t ∈ nfa.automaton.εClosure {s}) : t ∈ nfa.automaton.εClosure S := by
  induction ht with
  | base t ht =>
    rw [Set.mem_singleton_iff.1 ht]
    exact hs
  | step t u hu _ ih => exact εNFA.εClosure.step t u hu ih

theorem closure_lt (hw : nfa.WellFormed) {s t : Nat} (hs : s < nfa.nodes.length)
    (ht : t ∈ nfa.automaton.εClosure {s}) : t < nfa.nodes.length := by
  induction ht with
  | base t ht =>
    rw [Set.mem_singleton_iff.1 ht]
    exact hs
  | step t u hu _ _ => exact (hw.content t).epsilon_lt u hu

section
variable {cls : List (List Nat)} {order : IterationOrder Nat} {set ids : List Nat} {id : Nat}

theorem mem_addWithClosure (hr : Resolved nfa cls) (hi : id < nfa.nodes.length)
    {t : Nat} : t ∈ addWithClosure cls set id ↔ t ∈ set ∨ t ∈ nfa.automaton.εClosure {id} := by
  rw [← hr id hi,addWithClosure,mem_addAll,mem_add,mem_cons,or_assoc]

private theorem mem_extendWithClosure (hr : Resolved nfa cls) (hi : id < nfa.nodes.length) (hc : Closed nfa set) {t : Nat} :
    t ∈ extendWithClosure cls set id ↔ t ∈ set ∨ t ∈ nfa.automaton.εClosure {id} := by
  unfold extendWithClosure
  split
  next hm =>
    constructor
    · exact .inl
    · rintro (h | h)
      · exact h
      · exact hc id hm t h
  · exact mem_addWithClosure hr hi

theorem nodup_addWithClosure (h : set.Nodup) (id : Nat) : (addWithClosure cls set id).Nodup :=
  nodup_addAll (nodup_add h)

private theorem nodup_extendWithClosure (h : set.Nodup) (id : Nat) : (extendWithClosure cls set id).Nodup := by
  unfold extendWithClosure
  split
  · exact h
  · exact nodup_addWithClosure h id

variable {set' : List Nat}

private theorem closed_of_mem_iff (hc : Closed nfa set)
    (h : ∀ t, t ∈ set' ↔ t ∈ set ∨ t ∈ nfa.automaton.εClosure {id}) : Closed nfa set' := by
  intro s hs t ht
  rw [h] at hs ⊢
  rcases hs with hs | hs
  · exact .inl (hc s hs t ht)
  · exact .inr (closure_trans hs ht)

/-- A node set as the construction keeps it: distinct nodes, closed. -/
structure Good (nfa : NFA) (set : List Nat) : Prop where
  nodup : set.Nodup
  lt : ∀ t ∈ set, t < nfa.nodes.length
  closed : Closed nfa set

theorem Good.visit (h : Good nfa set) (order : IterationOrder Nat) : Good nfa (order.visit set) where
  nodup := order.nodup_visit.2 h.nodup
  lt t ht := h.lt t (order.mem_visit.1 ht)
  closed s hs t ht := order.mem_visit.2 (h.closed s (order.mem_visit.1 hs) t ht)

theorem Good.nil : Good nfa [] := ⟨nodup_nil,by simp,by simp [Closed]⟩

theorem Good.add (hw : nfa.WellFormed) (h : Good nfa set) (hid : id < nfa.nodes.length) (hn : set'.Nodup)
    (hi : ∀ t, t ∈ set' ↔ t ∈ set ∨ t ∈ nfa.automaton.εClosure {id}) : Good nfa set' where
  nodup := hn
  lt := by
    intro t ht
    rcases (hi t).1 ht with ho | hnw
    · exact h.lt t ho
    · exact closure_lt hw hid hnw
  closed := closed_of_mem_iff h.closed hi

variable {op : List Nat → Nat → List Nat}

/-- Adding targets in a way that closes each of them. -/
theorem foldl_good (hw : nfa.WellFormed) (ho : ∀ set id, Good nfa set → id < nfa.nodes.length →
      (op set id).Nodup ∧ ∀ t, t ∈ op set id ↔ t ∈ set ∨ t ∈ nfa.automaton.εClosure {id})
    (hi : ∀ id ∈ ids, id < nfa.nodes.length) (h : Good nfa set) :
    Good nfa (ids.foldl op set) ∧ ∀ t, t ∈ ids.foldl op set ↔ t ∈ set ∨ ∃ id ∈ ids, t ∈ nfa.automaton.εClosure {id} := by
  induction ids generalizing set with
  | nil => exact ⟨h,by simp⟩
  | cons id ids ih =>
    obtain ⟨hid,hi⟩ := forall_mem_cons.1 hi
    obtain ⟨hn,hif⟩ := ho set id h hid
    obtain ⟨hg,hm⟩ := ih hi (h.add hw hid hn hif)
    refine ⟨hg,fun t => ?_⟩
    rw [foldl_cons,hm,hif,or_assoc,exists_mem_cons_iff]

section
variable (hw : nfa.WellFormed) (hr : Resolved nfa cls) (hi : ∀ id ∈ ids, id < nfa.nodes.length)
include hw hr hi

private theorem convert_spec :
    Good nfa (ids.foldl (addWithClosure cls) []) ∧
      ∀ t, t ∈ ids.foldl (addWithClosure cls) [] ↔ ∃ id ∈ ids, t ∈ nfa.automaton.εClosure {id} := by
  have hs := foldl_good hw (fun _ id h hid =>
    ⟨nodup_addWithClosure h.nodup id,fun _ => mem_addWithClosure hr hid⟩) hi Good.nil
  simpa using hs

private theorem extend_good
    (h : Good nfa set) :
    Good nfa (ids.foldl (extendWithClosure cls) set) ∧
      ∀ t, t ∈ ids.foldl (extendWithClosure cls) set ↔ t ∈ set ∨ ∃ id ∈ ids, t ∈ nfa.automaton.εClosure {id} :=
  foldl_good hw (fun _ id h hid =>
    ⟨nodup_extendWithClosure h.nodup id,fun _ => mem_extendWithClosure hr hid h.closed⟩) hi h

end

private theorem extend_congr (ids : List Nat) (h : ∀ t, t ∈ set ↔ t ∈ set') (t : Nat) :
    t ∈ ids.foldl (extendWithClosure cls) set ↔ t ∈ ids.foldl (extendWithClosure cls) set' := by
  induction ids generalizing set set' with
  | nil => exact h t
  | cons id ids ih =>
    refine ih fun u => ?_
    unfold extendWithClosure
    simp only [h id]
    split
    · exact h u
    · rw [addWithClosure,addWithClosure,mem_addAll,mem_addAll,mem_add,mem_add,h u]

private theorem converter_lawful (order : IterationOrder Nat) (cls : List (List Nat)) :
    Lawful targetSet (dataConverterWithEpsilonClosure order cls) where
  copy set := by simp [targetSet,dataConverterWithEpsilonClosure]
  extend_copy set ids := by
    ext t
    exact extend_congr ids (fun u => order.mem_visit) t

/-- The combined transitions of the nodes taken so far. -/
structure Combined (nfa : NFA) (nodes : List Nat) (ranges : List (MutableRange (List Nat))) : Prop where
  ordered : OrderedFrom 0 ranges
  last_le : ∀ r ∈ ranges, r.last ≤ 127
  good : ∀ r ∈ ranges, Good nfa r.data ∧ r.data ≠ []
  mem : ∀ c t, (∃ set, dataAt ranges c = some set ∧ t ∈ set) ↔
    ∃ s ∈ nodes, t ∈ nfa.automaton.εClosure (nfa.automaton.step s (some c))

private theorem mem_closure_step {s c t : Nat} : t ∈ nfa.automaton.εClosure (nfa.automaton.step s (some c)) ↔
    ∃ ts, dataAt (nfa.transitionsForNode s) c = some ts ∧ ∃ id ∈ ts, t ∈ nfa.automaton.εClosure {id} := by
  rw [εNFA.mem_εClosure_iff_exists]
  change (∃ id, id ∈ (nfa.content s).targetsAt c ∧ _) ↔ _
  simp only [mem_targetsAt_iff]
  constructor
  · rintro ⟨id,⟨ts,hdt,hi⟩,ht⟩
    exact ⟨ts,hdt,id,hi,ht⟩
  · rintro ⟨ts,hdt,id,hi,ht⟩
    exact ⟨id,⟨ts,hdt,hi⟩,ht⟩

private theorem foldl_ne_nil (hi : ids ≠ [])
    (hm : ∀ t, t ∈ ids.foldl op set ↔ t ∈ set ∨ ∃ id ∈ ids, t ∈ nfa.automaton.εClosure {id}) : ids.foldl op set ≠ [] := by
  obtain ⟨id,hid⟩ := exists_mem_of_ne_nil ids hi
  exact ne_nil_of_mem ((hm id).2 (.inr ⟨id,hid,εNFA.εClosure.base id rfl⟩))

private theorem exists_mem_congr {x y : Option (List Nat)}
    (h : x.map targetSet = y.map targetSet) (t : Nat) :
    (∃ set, x = some set ∧ t ∈ set) ↔ ∃ set, y = some set ∧ t ∈ set := by
  cases x with
  | none =>
    cases y with
    | none => rfl
    | some set => cases h
  | some set =>
    cases y with
    | none => cases h
    | some set' =>
      have hs : t ∈ set ↔ t ∈ set' := Set.ext_iff.1 (Option.some.inj h) t
      simpa using hs

theorem Combined.extend (hw : nfa.WellFormed) (hr : Resolved nfa cls) {ns : List Nat}
    {rs : List (MutableRange (List Nat))} (h : Combined nfa ns rs) (id : Nat) :
    Combined nfa (ns ++ [id]) (extend (dataConverterWithEpsilonClosure order cls) rs
      (nfa.transitionsForNode id)) := by
  have hn := hw.content id
  have ht : ∀ c ts, dataAt (nfa.transitionsForNode id) c = some ts →
      ts ≠ [] ∧ ∀ t ∈ ts, t < nfa.nodes.length := by
    intro c ts hdt
    obtain ⟨r,hmm,-,-,rfl⟩ := mem_of_dataAt hdt
    exact ⟨hn.targets_ne_nil r hmm,hn.target_lt r hmm⟩
  have ho : OrderedFrom 0 (nfa.transitionsForNode id) := hn.ordered
  have hm := extend_spec (converter_lawful order cls) h.ordered ho
  refine ⟨hm.1,hm.last_le h.last_le hn.last_le,?_,?_⟩
  · apply extend_forall (P := fun set => Good nfa set ∧ set ≠ [])
    · intro set hs
      exact ⟨hs.1.visit order,fun hnl => hs.2 (order.visit_eq_nil.1 hnl)⟩
    · intro r hmm
      obtain ⟨hg,hi⟩ := convert_spec hw hr (hn.target_lt r hmm)
      exact ⟨hg,foldl_ne_nil (hn.targets_ne_nil r hmm) (by simpa using hi)⟩
    · intro r hmm set hs
      obtain ⟨hg,hi⟩ := extend_good hw hr (hn.target_lt r hmm) hs.1
      exact ⟨hg,foldl_ne_nil (hn.targets_ne_nil r hmm) hi⟩
    · exact h.good
  · intro c t
    rw [exists_mem_congr (hm.2 c)]
    simp only [mem_append,mem_singleton,or_and_right,exists_or,exists_eq_left]
    rw [← h.mem,mem_closure_step]
    cases htr : dataAt (nfa.transitionsForNode id) c with
    | none =>
      rw [merged_none_right]
      simp
    | some ts =>
      obtain ⟨-,hl⟩ := ht c ts htr
      cases hrn : dataAt rs c with
      | none => simpa [merged,dataConverterWithEpsilonClosure] using (convert_spec hw hr hl).2 t
      | some set =>
        obtain ⟨r,hmm,-,-,rfl⟩ := mem_of_dataAt hrn
        simpa [merged,dataConverterWithEpsilonClosure] using (extend_good hw hr hl (h.good r hmm).1).2 t

/-- The combined transitions are those of the state set. -/
theorem createCombinedTransition_spec (order : IterationOrder Nat) (hw : nfa.WellFormed) (hr : Resolved nfa cls) (ns : List Nat) :
    Combined nfa ns (createCombinedTransition order cls nfa ns) := by
  induction ns using reverseRecOn with
  | nil => exact ⟨trivial,by simp [createCombinedTransition],by simp [createCombinedTransition],by
      simp [createCombinedTransition,dataAt]⟩
  | append_singleton ns id ih =>
    rw [createCombinedTransition,foldl_append]
    exact ih.extend hw hr id

end

/-- Node sets stand for the state sets of the nondeterministic automaton. -/
noncomputable def setMeaning (nfa : NFA) : NodeMeaning (List Nat) (Set Nat) where
  valid set := set.Nodup ∧ set ≠ [] ∧ ∀ t ∈ set, t < nfa.nodes.length
  state := targetSet
  next := subsetStep nfa.automaton
  actions S := {a | ∃ s ∈ S, a ∈ nfa.actionsOf s}

variable {set : List Nat} {cls : List (List Nat)}

private theorem nodeIdSetHash_perm (order : IterationOrder Nat) {set' : List Nat} (h : set.Perm set') :
    nodeIdSetHash order set = nodeIdSetHash order set' := by
  unfold nodeIdSetHash
  congr 1
  apply List.Perm.foldl_eq' (((order.visit_perm set).trans h).trans (order.visit_perm set').symm)
  intro x _ y _ hs
  rw [UInt32.add_assoc,UInt32.add_assoc,UInt32.add_comm (UInt32.ofNat x)]

private theorem equal_iff {other : List Nat} {h : UInt32} (hst : set.Nodup) :
    UniqueNodeIdSet.equal ⟨set,h⟩ other ↔ set.Perm other := by
  simp only [UniqueNodeIdSet.equal,Bool.and_eq_true,beq_iff_eq,all_eq_true,decide_eq_true_eq]
  constructor
  · rintro ⟨hl,hs⟩
    exact (hst.subperm hs).perm_of_length_le (Nat.le_of_eq hl.symm)
  · intro hp
    exact ⟨hp.length_eq,fun id hi => hp.mem_iff.1 hi⟩

private theorem perm_iff_targetSet {other : List Nat} (hs : set.Nodup) (ho : other.Nodup) :
    set.Perm other ↔ targetSet set = targetSet other := by
  rw [perm_ext_iff_of_nodup hs ho,Set.ext_iff]
  rfl

theorem mem_combinedActions {os : HashOrders} {a : Nat} :
    a ∈ combinedActions os nfa set ↔ ∃ s ∈ set, a ∈ nfa.actionsOf s := by
  simp [combinedActions,mem_addAll]

private theorem next_state {os : HashOrders} (hw : nfa.WellFormed) (hr : Resolved nfa cls) (set : List Nat) (c : Nat) :
    (dataAt (createCombinedTransition os.targets cls nfa (os.targets.visit set)) c).map
      targetSet = subsetStep nfa.automaton (targetSet set) c := by
  have hc := createCombinedTransition_spec os.targets hw hr (os.targets.visit set)
  generalize createCombinedTransition os.targets cls nfa (os.targets.visit set) = rs at hc ⊢
  have hm : ∀ t, t ∈ nfa.automaton.stepSet (targetSet set) c ↔
      ∃ data, dataAt rs c = some data ∧ t ∈ data := by
    intro t
    rw [εNFA.mem_stepSet_iff,hc.mem]
    simp only [IterationOrder.mem_visit]
    rfl
  unfold subsetStep
  cases hdt : dataAt rs c with
  | none =>
    rw [if_pos]
    · rfl
    · apply Set.eq_empty_of_forall_notMem
      intro t ht
      obtain ⟨data,hs,-⟩ := (hm t).1 ht
      rw [hdt] at hs
      cases hs
  | some data =>
    obtain ⟨r,hr,-,-,rfl⟩ := mem_of_dataAt hdt
    have heq : nfa.automaton.stepSet (targetSet set) c =
        targetSet r.data := by
      ext t
      rw [hm,hdt]
      simp [targetSet]
    obtain ⟨t,ht⟩ := exists_mem_of_ne_nil _ (hc.good r hr).2
    rw [heq,if_neg]
    · rfl
    · intro he
      have : t ∈ targetSet r.data := ht
      rw [he] at this
      exact this

private theorem states_length_le (ss : List (Set Nat)) (hn : ss.Nodup)
    (hs : ∀ S ∈ ss, ∃ set, (setMeaning nfa).valid set ∧ (setMeaning nfa).state set = S) :
    ss.length ≤ 2^nfa.nodes.length := by
  classical
  have hsb : ss.toFinset ⊆
      (Finset.range nfa.nodes.length).powerset.image (fun ns : Finset Nat => (ns : Set Nat)) := by
    intro S hS
    obtain ⟨set,⟨-,-,hl⟩,rfl⟩ := hs S (mem_toFinset.1 hS)
    refine Finset.mem_image.2 ⟨set.toFinset,Finset.mem_powerset.2 ?_,?_⟩
    · intro t ht
      exact Finset.mem_range.2 (hl t (mem_toFinset.1 ht))
    · simp [setMeaning,targetSet]
  calc ss.length = ss.toFinset.card := (toFinset_card_of_nodup hn).symm
    _ ≤ _ := Finset.card_le_card hsb
    _ ≤ (Finset.range nfa.nodes.length).powerset.card := Finset.card_image_le
    _ = 2^nfa.nodes.length := by rw [Finset.card_powerset,Finset.card_range]

/-- The node source computes the automaton of state sets. -/
theorem setMeaning_lawful (os : HashOrders) (hw : nfa.WellFormed) (hr : Resolved nfa cls) :
    (setMeaning nfa).Lawful (nodeSource os nfa cls) (2^nfa.nodes.length) where
  same_iff := by
    rintro set set' ⟨hs,-,-⟩ ⟨hs',-,-⟩
    have hv := os.targets.visit_perm set
    simp only [nodeSource,Bool.and_eq_true,beq_iff_eq,equal_iff (hv.nodup_iff.2 hs),setMeaning,
      ← perm_iff_targetSet hs hs']
    constructor
    · rintro ⟨-,hp⟩
      exact hv.symm.trans hp
    · intro hp
      exact ⟨nodeIdSetHash_perm os.targets hp,hv.trans hp⟩
  mem_actions set _ a := mem_combinedActions
  storedLength_eq := by
    intro set n l _ hst
    simp only [nodeSource] at hst
    split at hst
    · exact (Option.some.inj hst).symm
    · cases hst
  ordered set _ := (createCombinedTransition_spec os.targets hw hr _).ordered
  last_le set _ := (createCombinedTransition_spec os.targets hw hr _).last_le
  valid_data set _ range hrn := by
    obtain ⟨hg,hn⟩ := (createCombinedTransition_spec os.targets hw hr _).good range hrn
    exact ⟨hg.nodup,hn,hg.lt⟩
  next_eq set _ c := next_state hw hr set c
  length_le := states_length_le

private theorem actionsOf_subset (id : Nat) : nfa.actionsOf id ⊆ nfa.actions :=
  fun _ ha => mem_of_mem_drop (mem_of_mem_take ha)

/-- A node's actions fit when the automaton's distinct actions do. -/
theorem combinedActions_length_le (nfa : NFA) (os : HashOrders) (set : List Nat) :
    (combinedActions os nfa set).length ≤ nfa.actions.toFinset.card := by
  have hn : (combinedActions os nfa set).Nodup :=
    os.actions.nodup_visit.2 (nodup_addAll nodup_nil)
  rw [← toFinset_card_of_nodup hn]
  apply Finset.card_le_card
  intro a ha
  obtain ⟨s,-,hs⟩ := mem_combinedActions.1 (mem_toFinset.1 ha)
  exact mem_toFinset.2 (actionsOf_subset s hs)

private theorem initialSet_spec (hw : nfa.WellFormed) (hr : Resolved nfa cls) :
    (setMeaning nfa).valid (addAll [root] (cls.getD root [])) ∧
      (setMeaning nfa).state (addAll [root] (cls.getD root [])) =
        nfa.automaton.εClosure nfa.automaton.start := by
  have hrt : root < nfa.nodes.length := length_pos_of_ne_nil hw.nodes_ne_nil
  have hm : ∀ t, t ∈ addAll [root] (cls.getD root []) ↔ t ∈ nfa.automaton.εClosure {root} := by
    intro t
    rw [← hr root hrt,mem_addAll,mem_singleton,mem_cons]
  refine ⟨⟨nodup_addAll (nodup_singleton _),?_,?_⟩,Set.ext hm⟩
  · exact ne_nil_of_mem ((hm root).2 (εNFA.εClosure.base _ rfl))
  · intro t ht
    exact closure_lt hw hrt ((hm t).1 ht)

/-- A well-formed automaton is converted to that of its state sets. -/
theorem convert_constructs (os : HashOrders) (hw : nfa.WellFormed) (ha : nfa.actions.toFinset.card ≤ 65535)
    {f : Nat} (hf : 2^(nfa.nodes.length+1) ≤ f) : ∃ dfa, convert os f nfa = some (some dfa) ∧
      DFAConstruction.Constructs (setMeaning nfa) (nfa.automaton.εClosure nfa.automaton.start)
        (2^nfa.nodes.length) dfa := by
  have hl := Nat.lt_two_pow_self (n := nfa.nodes.length)
  obtain ⟨cls,hcl,hr⟩ := resolveEpsilonClosures_spec hw f (by omega)
  obtain ⟨hv,hs⟩ := initialSet_spec hw hr
  obtain ⟨r,he,hc,hcr⟩ := DFAConstruction.construct_spec
    (setMeaning_lawful os hw hr) hv f (by omega)
  unfold convert
  rw [hcl]
  rw [hs] at hc
  cases r with
  | none =>
    obtain ⟨set,n,-,-,hst⟩ := hcr rfl
    have hln := combinedActions_length_le nfa os set
    simp only [nodeSource] at hst
    rw [if_pos (hln.trans ha)] at hst
    cases hst
  | some dfa => exact ⟨dfa,he,(hc dfa rfl).1⟩

/-- The subset construction: run from its root on a string, the converted automaton is stuck exactly when no
node is reachable on it, and otherwise has the actions of all reachable nodes. -/
theorem convert_reaches_state_sets (orders : HashOrders) (nfa : NFA) (hbuilt : nfa.Built orders)
    (hactions : nfa.actions.toFinset.card ≤ 65535) (fuel : Nat) (hfuel : 2^(nfa.nodes.length+1) ≤ fuel) :
    ∃ dfa, convert orders fuel nfa = some (some dfa) ∧
      (∀ id, OrderedFrom 0 (dfa.transitionsOf id)) ∧
      ∀ w : List Nat, (∀ c ∈ w, c ≤ 127) → (dfa.reach w = none ↔ nfa.automaton.eval w = ∅) ∧
        ∀ id, dfa.reach w = some id → id < dfa.nodes.length ∧
          ∀ a, a ∈ dfa.actionsOf id ↔ ∃ s ∈ nfa.automaton.eval w, a ∈ nfa.actionsOf s := by
  obtain ⟨dfa,he,hc⟩ := convert_constructs orders hbuilt.wellFormed hactions hfuel
  refine ⟨dfa,he,hc.wellFormed.ordered,fun w _ => ?_⟩
  have hs : nfa.automaton.εClosure nfa.automaton.start ≠ ∅ :=
    Set.nonempty_iff_ne_empty.1 ⟨root,εNFA.εClosure.base _ rfl⟩
  have hr := hc.reach_rel w
  have hrn : run (setMeaning nfa).next (nfa.automaton.εClosure nfa.automaton.start) w =
      if nfa.automaton.eval w = ∅ then none else some (nfa.automaton.eval w) := run_subsetStep nfa.automaton hs w
  rw [hrn] at hr
  refine ⟨?_,?_⟩
  · rw [rel_eq_none_iff hr]
    split <;> simp_all
  · intro id hi
    rw [hi] at hr
    obtain ⟨S,hS,hl,ha⟩ := rel_of_eq_some hr
    split at hS
    · cases hS
    · cases hS
      exact ⟨hl,ha⟩

def insertionOrders : HashOrders := ⟨.insertion Nat,.insertion Nat⟩

/-- A letter leads from the root to a node with an action, which leads back without one. -/
def letterLoop : NFAConstruction :=
  ((((({} : NFAConstruction).create.create.modify 0 (·.addTransition insertionOrders.targets 97 122 1)).modify 1
    (·.addEpsilonTransition 0)).modify 1 (·.setActions [7])).finalize insertionOrders 1).finalize insertionOrders 0

private theorem letterLoop_steps : Relation.ReflTransGen (NFAConstruction.Step insertionOrders) {} letterLoop := by
  refine .tail ?_ (.finalize _ (by decide))
  refine .tail ?_ (.finalize _ (by decide))
  refine .tail ?_ (.setActions _ [7] (by decide))
  refine .tail ?_ (.addEpsilonTransition _ (by decide) (by decide))
  refine .tail ?_ (.addTransition _ (by decide) (by decide) (by decide) (by decide))
  exact .tail (.single (.create _)) (.create _)

theorem convert_reaches_letterLoop_state_sets : ∃ dfa, convert insertionOrders 8 letterLoop.nfa = some (some dfa) ∧
      (∀ id, OrderedFrom 0 (dfa.transitionsOf id)) ∧
      ∀ w : List Nat, (∀ c ∈ w, c ≤ 127) → (dfa.reach w = none ↔ letterLoop.nfa.automaton.eval w = ∅) ∧
        ∀ id, dfa.reach w = some id → id < dfa.nodes.length ∧
          ∀ a, a ∈ dfa.actionsOf id ↔ ∃ s ∈ letterLoop.nfa.automaton.eval w, a ∈ letterLoop.nfa.actionsOf s := by
  exact convert_reaches_state_sets insertionOrders letterLoop.nfa
    ⟨letterLoop,letterLoop_steps,by decide,by decide,rfl⟩ (by decide) 8 (by decide)

end NFAToDFA
end WebKit.ContentExtensions
