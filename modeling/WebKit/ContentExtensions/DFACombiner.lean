import Mathlib.Data.Finset.Option
import WebKit.ContentExtensions.DFAConstruction
import WebKit.ContentExtensions.DFAMinimizer

/-! Combining automata: the product of two, on pairs of indices in one word, and the loop that merges small automata. -/
namespace WebKit.ContentExtensions
open WebKit.Base MutableRangeList FullGraphPartition List Option HashSet DFAMinimizer Nat
open Finset hiding filter_cons

/-- The iteration orders of the tables that combining fills. -/
structure CombinerOrders where
  actions : IterationOrder Nat
  finalStates : IterationOrder (List Nat × List Nat)

namespace DFAMerger

inductive WhichDFA where
  | A
  | B

def invalidNodeIndex : Nat := 2^32 - 1

def signatureForIndices (aIndex bIndex : Nat) : Nat := aIndex*2^32 + bIndex

def extractIndexA (signature : Nat) : Nat := signature/2^32

def extractIndexB (signature : Nat) : Nat := signature%2^32

def setHalfSignature (signature value : Nat) : WhichDFA → Nat
  | .A => signatureForIndices value (extractIndexB signature)
  | .B => signatureForIndices (extractIndexA signature) value

def targetConverter (whichDFA : WhichDFA) : DataConverter Nat Nat where
  convert target := setHalfSignature (2^64-1) target whichDFA
  extend destination target := setHalfSignature destination target whichDFA
  copy signature := signature

def extendTransitions (whichDFA : WhichDFA) (dfa : DFA) (index : Nat) (transitions : List (MutableRange Nat)) :
    List (MutableRange Nat) :=
  if index ≠ invalidNodeIndex then MutableRangeList.extend (targetConverter whichDFA) transitions (dfa.transitionsOf index)
  else transitions

def combinedTransitions (a b : DFA) (signature : Nat) : List (MutableRange Nat) :=
  extendTransitions .B b (extractIndexB signature) (extendTransitions .A a (extractIndexA signature) [])

def addActions (dfa : DFA) (index : Nat) (actions : List Nat) : List Nat :=
  if index ≠ invalidNodeIndex then addAll actions (dfa.actionsOf index) else actions

def combinedActions (order : IterationOrder Nat) (a b : DFA) (signature : Nat) : List Nat :=
  order.visit (addActions b (extractIndexB signature) (addActions a (extractIndexA signature) []))

/-- The vector of nodes crashes when it cannot grow. The length of the actions has 16 bits. -/
def nodeSource (order : IterationOrder Nat) (nodeCapacity : Nat) (a b : DFA) : NodeSource Nat Nat where
  same key signature := key == signature
  intern signature := signature
  actions := combinedActions order a b
  storedLength nodes actionsLength := if nodes < nodeCapacity then some (actionsLength%2^16) else none
  transitions := combinedTransitions a b

def merge (order : IterationOrder Nat) (nodeCapacity fuel : Nat) (a b : DFA) : Option (Option DFA) :=
  DFAConstruction.construct (nodeSource order nodeCapacity a b) fuel (signatureForIndices a.root b.root)

end DFAMerger

namespace DFACombiner

/-- The automata are kept with the last one first. -/
def addDFA (orders : CombinerOrders) (fuel : Nat) (dfas : List DFA) (dfa : DFA) : Option (List DFA) :=
  (minimize orders.finalStates fuel dfa).map fun minimized => minimized::dfas

/-- Merge two automata; a large or last result is minimized. -/
def mergeTwo (orders : CombinerOrders) (nodeCapacity fuel minimumSize : Nat) (a b : DFA) (isLast : Bool) :
    Option (Option DFA) :=
  match DFAMerger.merge orders.actions nodeCapacity fuel a b with
  | some (some c) =>
    if c.graphSize > minimumSize ∨ isLast then (minimize orders.finalStates fuel c).map some else some (some c)
  | failed => failed

/-- Merge the last two automata until one is left; large ones are handed out. -/
def mergeSmall (orders : CombinerOrders) (nodeCapacity fuel minimumSize : Nat) :
    (dfas handed : List DFA) → Option (Option (List DFA))
  | [], handed => some (some handed)
  | [dfa], handed => some (some (handed ++ [dfa]))
  | a::b::dfas, handed =>
    match mergeTwo orders nodeCapacity fuel minimumSize a b dfas.isEmpty with
    | none => none
    | some none => some none
    | some (some c) =>
      if c.graphSize > minimumSize then mergeSmall orders nodeCapacity fuel minimumSize dfas (handed ++ [c])
      else mergeSmall orders nodeCapacity fuel minimumSize (c::dfas) handed
  termination_by dfas _ => dfas.length
  decreasing_by
    · exact lt_succ_of_lt (lt_succ_self _)
    · exact lt_succ_self _

/-- What the handler gets; none when fuel runs out, some none for a crash. -/
def combineDFAs (orders : CombinerOrders) (nodeCapacity fuel minimumSize : Nat) (dfas : List DFA) :
    Option (Option (List DFA)) :=
  let (large, small) := dfas.partition fun dfa => dfa.graphSize > minimumSize
  mergeSmall orders nodeCapacity fuel minimumSize small large

end DFACombiner

namespace DFAMerger

def indexOf (index : Nat) : Option Nat := if index = invalidNodeIndex then none else some index

def decode (signature : Nat) : Option Nat × Option Nat := (indexOf (extractIndexA signature), indexOf (extractIndexB signature))

theorem extract_signatureForIndices (ai : Nat) {bIndex : Nat} (hb : bIndex < 2^32) :
    extractIndexA (signatureForIndices ai bIndex) = ai ∧ extractIndexB (signatureForIndices ai bIndex) = bIndex := by
  unfold extractIndexA extractIndexB signatureForIndices
  omega

theorem indexOf_of_lt {index : Nat} (h : index < invalidNodeIndex) : indexOf index = some index :=
  if_neg (Nat.ne_of_lt h)

private theorem indexOf_injective {i j : Nat} (h : indexOf i = indexOf j) : i = j := by
  unfold indexOf at h
  split_ifs at h with hi hj
  · exact hi.trans hj.symm
  · exact some.inj h

private theorem decode_injective {s s' : Nat} (h : decode s = decode s') : s = s' := by
  have hA := indexOf_injective (Prod.mk.inj h).1
  have hB := indexOf_injective (Prod.mk.inj h).2
  unfold extractIndexA at hA
  unfold extractIndexB at hB
  omega

private theorem decode_setHalfSignature (s : Nat) {v : Nat} (h : v < invalidNodeIndex) :
    decode (setHalfSignature s v .A) = (some v, (decode s).2) ∧
      decode (setHalfSignature s v .B) = ((decode s).1, some v) := by
  have hv : v < 2^32 := h.trans_le (by decide)
  have hB : extractIndexB s < 2^32 := mod_lt _ (by decide)
  obtain ⟨ha,hb⟩ := extract_signatureForIndices v hB
  obtain ⟨ha',hb'⟩ := extract_signatureForIndices (extractIndexA s) hv
  unfold decode setHalfSignature
  rw [ha,hb,ha',hb',indexOf_of_lt h]
  exact ⟨rfl,rfl⟩

section
variable {a b : DFA} {order : IterationOrder Nat} {cap : Nat}

/-- The states of the product: the nodes reached on one word. -/
def pairMeaning (a b : DFA) : NodeMeaning Nat (Option Nat × Option Nat) where
  valid signature := decode signature ≠ (none, none) ∧
    ∃ w, a.reach w = (decode signature).1 ∧ b.reach w = (decode signature).2
  state := decode
  next := productStep a.next b.next
  actions s := { x | (∃ id, s.1 = some id ∧ x ∈ a.actionsOf id) ∨ ∃ id, s.2 = some id ∧ x ∈ b.actionsOf id }

variable {dfa : DFA}

private theorem mem_addActions {i : Nat} {ac : List Nat} {x : Nat} :
    x ∈ addActions dfa i ac ↔ x ∈ ac ∨ ∃ id, indexOf i = some id ∧ x ∈ dfa.actionsOf id := by
  unfold addActions indexOf
  by_cases hi : i = invalidNodeIndex
  · simp [hi]
  · simp [hi,mem_addAll]

private theorem nodup_addActions {i : Nat} {ac : List Nat} (h : ac.Nodup) :
    (addActions dfa i ac).Nodup := by
  unfold addActions
  split
  · exact nodup_addAll h
  · exact h

private theorem mem_combinedActions {s x : Nat} :
    x ∈ combinedActions order a b s ↔ x ∈ (pairMeaning a b).actions (decode s) := by
  rw [combinedActions,order.mem_visit,mem_addActions,mem_addActions]
  simp [pairMeaning,decode]

private theorem nodup_combinedActions (s : Nat) : (combinedActions order a b s).Nodup :=
  order.nodup_visit.2 (nodup_addActions (nodup_addActions nodup_nil))

private theorem extendTransitions_spec (h : dfa.WellFormed) (w : WhichDFA) (i : Nat)
    {ts : List (MutableRange Nat)} (ht : OrderedFrom 0 ts) :
    OrderedFrom 0 (extendTransitions w dfa i ts) ∧ ∀ c,
      dataAt (extendTransitions w dfa i ts) c =
        merged (targetConverter w) (dataAt ts c) ((indexOf i).bind fun id => dfa.next id c) := by
  have hl : Lawful id (targetConverter w) := ⟨fun _ => rfl,fun _ _ => rfl⟩
  unfold extendTransitions indexOf
  by_cases hi : i = invalidNodeIndex
  · rw [if_neg (not_not_intro hi),if_pos hi]
    refine ⟨ht,fun c => ?_⟩
    cases dataAt ts c <;> rfl
  · rw [if_pos hi,if_neg hi]
    obtain ⟨ho,hdt⟩ := extend_spec hl ht (h.ordered i)
    refine ⟨ho,fun c => ?_⟩
    have hc := hdt c
    rw [map_id_apply,map_id_apply] at hc
    exact hc

theorem next_lt (h : dfa.WellFormed) {id c t : Nat} (hn : dfa.next id c = some t) :
    t < dfa.nodes.length ∧ c ≤ 127 := by
  obtain ⟨r,hr,-,hl,rfl⟩ := mem_of_dataAt hn
  exact ⟨h.target_lt id r hr,hl.trans (h.last_le id r hr)⟩

/-- The transitions of a pair: sorted, and at a character those of the product. -/
theorem combinedTransitions_spec (ha : a.WellFormed) (hb : b.WellFormed)
    (hA : a.nodes.length ≤ invalidNodeIndex) (hB : b.nodes.length ≤ invalidNodeIndex) (s : Nat) :
    OrderedFrom 0 (combinedTransitions a b s) ∧ ∀ c,
      (dataAt (combinedTransitions a b s) c).map decode = productStep a.next b.next (decode s) c := by
  have he : OrderedFrom 0 ([] : List (MutableRange Nat)) := trivial
  obtain ⟨ho,hdt⟩ := extendTransitions_spec ha .A (extractIndexA s) he
  obtain ⟨ho',hdt'⟩ := extendTransitions_spec hb .B (extractIndexB s) ho
  refine ⟨ho',fun c => ?_⟩
  have hi : decode (2^64-1) = (none, none) := by decide
  rw [combinedTransitions,hdt',hdt,productStep,decode]
  cases hx : (indexOf (extractIndexA s)).bind fun id => a.next id c with
  | none =>
    cases hy : (indexOf (extractIndexB s)).bind fun id => b.next id c with
    | none => rfl
    | some y =>
      obtain ⟨id,-,hn⟩ := bind_eq_some_iff.1 hy
      have hl := lt_of_lt_of_le (next_lt hb hn).1 hB
      exact congrArg some (((decode_setHalfSignature _ hl).2).trans (by rw [hi]))
  | some x =>
    obtain ⟨id,-,hn⟩ := bind_eq_some_iff.1 hx
    have hl := lt_of_lt_of_le (next_lt ha hn).1 hA
    have hc : decode ((targetConverter .A).convert x) = (some x, none) :=
      ((decode_setHalfSignature _ hl).1).trans (by rw [hi])
    cases hy : (indexOf (extractIndexB s)).bind fun id => b.next id c with
    | none => exact congrArg some hc
    | some y =>
      obtain ⟨id',-,hn'⟩ := bind_eq_some_iff.1 hy
      have hl' := lt_of_lt_of_le (next_lt hb hn').1 hB
      exact congrArg some (((decode_setHalfSignature _ hl').2).trans (by rw [hc]))

theorem reach_concat (dfa : DFA) (w : List Nat) (c : Nat) :
    dfa.reach (w ++ [c]) = (dfa.reach w).bind fun id => dfa.next id c := by
  rw [DFA.reach,DFA.runFrom,run_append]
  congr 1
  funext id
  rw [run]
  cases dfa.next id c <;> rfl

/-- Only nodes that have not been killed are reached. -/
def ReachesLive (dfa : DFA) : Prop := ∀ w id, dfa.reach w = some id → dfa.Live id

theorem reachesLive_of_live (h : dfa.WellFormed) (hl : ∀ node ∈ dfa.nodes, node.isKilled = false) : ReachesLive dfa := by
  intro w id hr
  have hi : id < dfa.nodes.length := by
    induction w using reverseRecOn generalizing id with
    | nil => exact some.inj hr ▸ h.root_lt
    | append_singleton w c ih =>
      rw [reach_concat] at hr
      obtain ⟨_,-,hn⟩ := bind_eq_some_iff.1 hr
      exact (next_lt h hn).1
  exact ⟨hi,hl _ (DFA.node_mem hi)⟩

private theorem card_live (dfa : DFA) : ((Finset.range dfa.nodes.length).filter dfa.Live).card = dfa.graphSize := by
  have hm : dfa.nodes = (List.range dfa.nodes.length).map dfa.node := by
    refine ext_getElem (by simp) fun i hi _ => ?_
    simp [DFA.node,hi]
  have hl : ((Finset.range dfa.nodes.length).filter dfa.Live).card =
      ((List.range dfa.nodes.length).filter fun i => decide (dfa.Live i)).length := rfl
  rw [hl,DFA.graphSize]
  conv_rhs => rw [hm,countP_map,countP_eq_length_filter]
  congr 1
  refine filter_congr fun i hi => ?_
  simp [DFA.Live,List.mem_range.1 hi]

def ActionsWithin (A : Finset Nat) (dfa : DFA) : Prop := ∀ w id, dfa.reach w = some id → ∀ x ∈ dfa.actionsOf id, x ∈ A

private theorem pairs_length_le (ha : ReachesLive a) (hb : ReachesLive b) (ss : List (Option Nat × Option Nat))
    (hn : ss.Nodup) (hst : ∀ s ∈ ss, ∃ q, (pairMeaning a b).valid q ∧ (pairMeaning a b).state q = s) :
    ss.length ≤ (a.graphSize+1)*(b.graphSize+1) - 1 := by
  have hsb : ss.toFinset ⊆ (((Finset.range a.nodes.length).filter a.Live).insertNone ×ˢ
      ((Finset.range b.nodes.length).filter b.Live).insertNone).erase (none, none) := by
    intro s hs
    obtain ⟨q,⟨hne,w,hA,hB⟩,rfl⟩ := hst s (mem_toFinset.1 hs)
    rw [Finset.mem_erase,Finset.mem_product,Finset.mem_insertNone,Finset.mem_insertNone]
    refine ⟨hne,?_,?_⟩
    · intro id hi
      have hl := ha w id (hA.trans hi)
      exact Finset.mem_filter.2 ⟨Finset.mem_range.2 hl.1,hl⟩
    · intro id hi
      have hl := hb w id (hB.trans hi)
      exact Finset.mem_filter.2 ⟨Finset.mem_range.2 hl.1,hl⟩
  calc ss.length = ss.toFinset.card := (toFinset_card_of_nodup hn).symm
    _ ≤ _ := card_le_card hsb
    _ = (a.graphSize+1)*(b.graphSize+1) - 1 := by
      rw [card_erase_of_mem (by simp),card_product,card_insertNone,card_insertNone,card_live,card_live]

private theorem transition_state (ha : a.WellFormed) (hb : b.WellFormed) (hA : a.nodes.length ≤ invalidNodeIndex)
    (hB : b.nodes.length ≤ invalidNodeIndex) {s : Nat} {r : MutableRange Nat}
    (hr : r ∈ combinedTransitions a b s) (c : Nat) (hf : r.first ≤ c) (hl : c ≤ r.last) :
    productStep a.next b.next (decode s) c = some (decode r.data) := by
  obtain ⟨ho,hdt⟩ := combinedTransitions_spec ha hb hA hB s
  rw [← hdt,ho.dataAt_of_mem hr hf hl]
  rfl

/-- The node source computes the product automaton. -/
theorem pairMeaning_lawful {A : Finset Nat} (hc : A.card ≤ 65535) (ha : a.WellFormed) (hb : b.WellFormed)
    (hA : a.nodes.length ≤ invalidNodeIndex) (hB : b.nodes.length ≤ invalidNodeIndex)
    (hla : ReachesLive a) (hlb : ReachesLive b) (haA : ActionsWithin A a) (hbA : ActionsWithin A b) :
    (pairMeaning a b).Lawful (nodeSource order cap a b) ((a.graphSize+1)*(b.graphSize+1)-1) where
  same_iff := by
    intro q q' _ _
    rw [nodeSource]
    simp only [beq_iff_eq]
    exact ⟨fun h => congrArg decode h,decode_injective⟩
  mem_actions q _ x := mem_combinedActions
  storedLength_eq := by
    rintro q n l ⟨-,w,hw,hwB⟩ hst
    have hs : (combinedActions order a b q).toFinset ⊆ A := by
      intro x hx
      rcases mem_combinedActions.1 (mem_toFinset.1 hx) with ⟨id,hi,hx⟩ | ⟨id,hi,hx⟩
      · exact haA w id (hw.trans hi) x hx
      · exact hbA w id (hwB.trans hi) x hx
    have hln := card_le_card hs
    rw [toFinset_card_of_nodup (nodup_combinedActions q)] at hln
    simp only [nodeSource] at hst ⊢
    split at hst
    · rw [← some.inj hst]
      exact mod_eq_of_lt (by omega)
    · cases hst
  ordered q _ := (combinedTransitions_spec ha hb hA hB q).1
  last_le := by
    intro q _ r hr
    obtain ⟨he,hne⟩ := of_productStep (transition_state ha hb hA hB hr r.last
      ((combinedTransitions_spec ha hb hA hB q).1.first_le_last hr) le_rfl)
    by_contra hl
    refine hne (he.trans (Prod.ext ?_ ?_))
    · refine bind_eq_none_iff.2 fun id _ => eq_none_iff_forall_ne_some.2 fun t hn => ?_
      exact hl (next_lt ha hn).2
    · refine bind_eq_none_iff.2 fun id _ => eq_none_iff_forall_ne_some.2 fun t hn => ?_
      exact hl (next_lt hb hn).2
  valid_data := by
    rintro q ⟨-,w,hw,hwB⟩ r hr
    obtain ⟨he,hne⟩ := of_productStep (transition_state ha hb hA hB hr r.first le_rfl
      ((combinedTransitions_spec ha hb hA hB q).1.first_le_last hr))
    refine ⟨hne,w ++ [r.first],?_⟩
    rw [reach_concat,reach_concat,hw,hwB,he]
    exact ⟨rfl,rfl⟩
  next_eq q _ c := (combinedTransitions_spec ha hb hA hB q).2 c
  length_le := pairs_length_le hla hlb

end

/-- The actions of the nodes that automata reach on a word. -/
def actionsOn (dfas : List DFA) (w : List Nat) : Set Nat :=
  { x | ∃ dfa ∈ dfas, ∃ id, dfa.reach w = some id ∧ x ∈ dfa.actionsOf id }

theorem mem_actionsOn_singleton {dfa : DFA} {w : List Nat} {x : Nat} :
    x ∈ actionsOn [dfa] w ↔ ∃ id, dfa.reach w = some id ∧ x ∈ dfa.actionsOf id := by
  simp [actionsOn]

theorem actionsOn_append (dfas dfas' : List DFA) (w : List Nat) :
    actionsOn (dfas ++ dfas') w = actionsOn dfas w ∪ actionsOn dfas' w := by
  ext x
  simp [actionsOn,or_and_right,exists_or]

theorem actionsOn_cons (dfa : DFA) (dfas : List DFA) (w : List Nat) :
    actionsOn (dfa::dfas) w = actionsOn [dfa] w ∪ actionsOn dfas w := actionsOn_append [dfa] dfas w

/-- The product has the actions of both automata. -/
theorem actionsOn_of_constructs {a b c : DFA} {bn : Nat}
    (h : DFAConstruction.Constructs (pairMeaning a b) (some a.root, some b.root) bn c) (w : List Nat) :
    actionsOn [c] w = actionsOn [a, b] w := by
  have hr := h.reach_rel w
  have hrn : run (pairMeaning a b).next (some a.root, some b.root) w = unlessStuck (a.reach w, b.reach w) :=
    run_productStep a.next b.next (fun h => some_ne_none _ (Prod.mk.inj h).1) w
  rw [hrn] at hr
  have hp : ∀ x, x ∈ actionsOn [a, b] w ↔ x ∈ (pairMeaning a b).actions (a.reach w, b.reach w) := by
    intro x
    rw [actionsOn_cons,Set.mem_union,mem_actionsOn_singleton,mem_actionsOn_singleton]
    rfl
  ext x
  rw [hp,mem_actionsOn_singleton]
  by_cases hs : (a.reach w, b.reach w) = ((none, none) : Option Nat × Option Nat)
  · rw [unlessStuck_eq_none.2 hs] at hr
    rw [(rel_eq_none_iff hr).2 rfl,hs]
    simp [pairMeaning]
  · rw [unlessStuck_of_ne hs] at hr
    generalize c.reach w = r at hr
    cases hr with
    | some ha =>
      constructor
      · rintro ⟨id,hi,hx⟩
        cases hi
        exact (ha.2 x).1 hx
      · intro hx
        exact ⟨_,rfl,(ha.2 x).2 hx⟩

theorem actionsWithin_iff {A : Finset Nat} {dfa : DFA} : ActionsWithin A dfa ↔ ∀ w, ∀ x ∈ actionsOn [dfa] w, x ∈ A := by
  constructor
  · intro h w x hx
    obtain ⟨id,hi,hx⟩ := mem_actionsOn_singleton.1 hx
    exact h w id hi x hx
  · intro h w id hi x hx
    exact h w x (mem_actionsOn_singleton.2 ⟨id,hi,hx⟩)

/-- What the automata of a combiner have in common. -/
structure Combinable (A : Finset Nat) (nodeCapacity : Nat) (dfa : DFA) : Prop where
  wellFormed : dfa.WellFormed
  nodes_le : dfa.nodes.length ≤ nodeCapacity
  reachesLive : ReachesLive dfa
  actionsWithin : ActionsWithin A dfa

/-- Merging ends with the union of the behaviours, unless there are too many pairs. -/
theorem merge_spec {A : Finset Nat} (hca : A.card ≤ 65535) {cap : Nat}
    (hcp : cap ≤ invalidNodeIndex) (order : IterationOrder Nat) {a b : DFA} (ha : Combinable A cap a)
    (hb : Combinable A cap b) {fuel : Nat} (hf : 2*((a.graphSize+1)*(b.graphSize+1)) ≤ fuel) :
    ∃ r, merge order cap fuel a b = some r ∧
      (∀ c, r = some c → Minimizable c ∧ Combinable A cap c ∧
        c.nodes.length + 1 ≤ (a.graphSize+1)*(b.graphSize+1) ∧ ∀ w, actionsOn [c] w = actionsOn [a, b] w) ∧
      (r = none → cap < (a.graphSize+1)*(b.graphSize+1) - 1) := by
  have hA := ha.nodes_le.trans hcp
  have hB := hb.nodes_le.trans hcp
  have hra := ha.wellFormed.root_lt.trans_le hA
  have hr := hb.wellFormed.root_lt.trans_le hB
  have hdc : decode (signatureForIndices a.root b.root) = (some a.root, some b.root) := by
    obtain ⟨hrA,hrB⟩ := extract_signatureForIndices a.root (hr.trans (by decide))
    rw [decode,hrA,hrB,indexOf_of_lt hra,indexOf_of_lt hr]
  have hl : (pairMeaning a b).Lawful (nodeSource order cap a b) _ :=
    pairMeaning_lawful hca ha.wellFormed hb.wellFormed hA hB ha.reachesLive hb.reachesLive ha.actionsWithin hb.actionsWithin
  have hv : (pairMeaning a b).valid (signatureForIndices a.root b.root) := by
    refine ⟨?_,[],?_⟩
    · rw [hdc]
      exact fun h => some_ne_none _ (Prod.mk.inj h).1
    · rw [hdc]
      exact ⟨rfl,rfl⟩
  obtain ⟨r,he,hcn,hcr⟩ := DFAConstruction.construct_spec hl hv fuel (by omega)
  refine ⟨r,he,?_,?_⟩
  · intro c hc
    obtain ⟨hc,hst⟩ := hcn c hc
    change DFAConstruction.Constructs _ (decode _) _ c at hc
    rw [hdc] at hc
    have hu := actionsOn_of_constructs hc
    have hp := hc.wellFormed.root_lt
    refine ⟨⟨hc.wellFormed,hc.live⟩,⟨hc.wellFormed,?_,reachesLive_of_live hc.wellFormed hc.live,?_⟩,?_,hu⟩
    · obtain ⟨l,hs⟩ := hst (c.nodes.length-1) (by omega)
      simp only [nodeSource] at hs
      split at hs
      · omega
      · cases hs
    · rw [actionsWithin_iff]
      intro w x hx
      rw [hu,actionsOn_cons] at hx
      rcases hx with hx | hx
      · exact actionsWithin_iff.1 ha.actionsWithin w x hx
      · exact actionsWithin_iff.1 hb.actionsWithin w x hx
    · have hle := hc.nodes_le
      omega
  · intro hnn
    obtain ⟨q,n,-,hn,hst⟩ := hcr hnn
    simp only [nodeSource] at hst
    split at hst
    · cases hst
    · omega

end DFAMerger

namespace DFACombiner
open DFAMerger
variable {A : Finset Nat} {cap : Nat} {fuel : Nat}

/-- Minimizing keeps what a combiner needs, and the behaviour. -/
theorem minimize_combinable {dfa : DFA} (h : Minimizable dfa) (hdf : Combinable A cap dfa)
    (order : IterationOrder (List Nat × List Nat)) (hf : 128*dfa.nodes.length < fuel) :
    ∃ dfa', minimize order fuel dfa = some dfa' ∧ Combinable A cap dfa' ∧
      dfa'.graphSize ≤ dfa.nodes.length ∧ ∀ w, actionsOn [dfa'] w = actionsOn [dfa] w := by
  obtain ⟨dfa',he,hm⟩ := minimize_spec h order hf
  have ha : ∀ w, actionsOn [dfa'] w = actionsOn [dfa] w := by
    intro w
    have hr := hm.reach_rel w
    ext x
    rw [mem_actionsOn_singleton,mem_actionsOn_singleton]
    generalize dfa.reach w = p at hr
    generalize dfa'.reach w = q at hr
    cases hr with
    | none => simp
    | some h => simp [h.2]
  refine ⟨dfa',he,⟨hm.wellFormed,hm.length_eq ▸ hdf.nodes_le,?_,?_⟩,hm.length_eq ▸ countP_le_length,ha⟩
  · intro w id hi
    have hr := hm.reach_rel w
    rw [hi] at hr
    generalize dfa.reach w = p at hr
    cases hr with
    | some h => exact h.1
  · rw [actionsWithin_iff]
    intro w x hx
    rw [ha] at hx
    exact actionsWithin_iff.1 hdf.actionsWithin w x hx

/-- A bound for the nodes of all automata merged into one. -/
def productSize (dfas : List DFA) : Nat := (dfas.map fun dfa => dfa.graphSize + 1).prod

theorem graphSize_eq {dfa : DFA} (h : Minimizable dfa) : dfa.graphSize = dfa.nodes.length :=
  countP_eq_length.2 fun node hn => by rw [h.live node hn]; rfl

theorem productSize_pos (dfas : List DFA) : 0 < productSize dfas := by
  induction dfas with
  | nil => exact one_pos
  | cons dfa dfas ih => exact mul_pos (succ_pos _) ih

theorem productSize_cons (dfa : DFA) (dfas : List DFA) :
    productSize (dfa::dfas) = (dfa.graphSize+1)*productSize dfas := prod_cons

private theorem mergeTwo_spec (hca : A.card ≤ 65535) (hcp : cap ≤ invalidNodeIndex)
    (os : CombinerOrders) (l : Nat) {a b : DFA} (i : Bool) (ha : Combinable A cap a)
    (hb : Combinable A cap b) (hf : 128*((a.graphSize+1)*(b.graphSize+1)) < fuel) :
    ∃ r, mergeTwo os cap fuel l a b i = some r ∧
      (∀ c, r = some c → Combinable A cap c ∧
        c.graphSize + 1 ≤ (a.graphSize+1)*(b.graphSize+1) ∧ ∀ w, actionsOn [c] w = actionsOn [a, b] w) ∧
      (r = none → cap < (a.graphSize+1)*(b.graphSize+1) - 1) := by
  obtain ⟨r,he,hmr,hcr⟩ := merge_spec hca hcp os.actions ha hb
    (show 2*((a.graphSize+1)*(b.graphSize+1)) ≤ fuel by omega)
  unfold mergeTwo
  rw [he]
  cases r with
  | none => exact ⟨none,rfl,nofun,hcr⟩
  | some c =>
    obtain ⟨hm,hc,hle,hac⟩ := hmr c rfl
    dsimp only
    split
    · obtain ⟨c',he',hc',hl,hs⟩ := minimize_combinable hm hc os.finalStates
        (show 128*c.nodes.length < fuel by omega)
      rw [he']
      refine ⟨some c',rfl,?_,nofun⟩
      rintro _ ⟨⟩
      exact ⟨hc',(succ_le_succ hl).trans hle,fun w => (hs w).trans (hac w)⟩
    · refine ⟨some c,rfl,?_,nofun⟩
      rintro _ ⟨⟩
      exact ⟨hc,(succ_le_succ countP_le_length).trans hle,hac⟩

/-- Merging small automata is no crash if the pairs of two fit, or those of all. -/
def Merged (nodeCapacity minimumSize : Nat) (dfas handed : List DFA) (result : Option (List DFA)) : Prop :=
  (∀ out, result = some out → ∀ w, actionsOn out w = actionsOn handed w ∪ actionsOn dfas w) ∧
    (productSize dfas ≤ nodeCapacity ∨ (minimumSize+1)*(minimumSize+1) ≤ nodeCapacity → result ≠ none)

private theorem mergeSmall_spec (hca : A.card ≤ 65535) (hcp : cap ≤ invalidNodeIndex)
    (os : CombinerOrders) (l : Nat) (dfas hnd : List DFA)
    (hdf : ∀ dfa ∈ dfas, Combinable A cap dfa ∧ dfa.graphSize ≤ l) (hf : 128*productSize dfas < fuel) :
    ∃ result, mergeSmall os cap fuel l dfas hnd = some result ∧ Merged cap l dfas hnd result := by
  induction hn : dfas.length using Nat.strong_induction_on generalizing dfas hnd with
  | _ n ih =>
    match dfas with
    | [] =>
      refine ⟨some hnd,by rw [mergeSmall],?_,fun _ => nofun⟩
      rintro o ⟨⟩ w
      simp [actionsOn]
    | [dfa] =>
      refine ⟨some (hnd ++ [dfa]),by rw [mergeSmall],?_,fun _ => nofun⟩
      rintro o ⟨⟩ w
      rw [actionsOn_append]
    | a::b::dfas =>
      obtain ⟨⟨ha,hla⟩,hdf⟩ := forall_mem_cons.1 hdf
      obtain ⟨⟨hb,hlb⟩,hdf⟩ := forall_mem_cons.1 hdf
      have hs : productSize (a::b::dfas) = (a.graphSize+1)*(b.graphSize+1)*productSize dfas := by
        rw [productSize_cons,productSize_cons,mul_assoc]
      have hp := Nat.le_mul_of_pos_right ((a.graphSize+1)*(b.graphSize+1)) (productSize_pos dfas)
      have hr := Nat.le_mul_of_pos_left (productSize dfas) (mul_pos (succ_pos a.graphSize) (succ_pos b.graphSize))
      have hab : (a.graphSize+1)*(b.graphSize+1) ≤ (l+1)*(l+1) := Nat.mul_le_mul (succ_le_succ hla) (succ_le_succ hlb)
      rw [← hs] at hp hr
      rw [mergeSmall]
      obtain ⟨result,he,hm,hcr⟩ := mergeTwo_spec hca hcp os l dfas.isEmpty ha hb
        (show 128*((a.graphSize+1)*(b.graphSize+1)) < fuel by omega)
      rw [he]
      cases result with
      | none =>
        refine ⟨none,rfl,nofun,fun hle _ => ?_⟩
        have := hcr rfl
        omega
      | some c =>
        obtain ⟨hc,hle,hac⟩ := hm c rfl
        dsimp only
        split
        next =>
          obtain ⟨result,he,ho,hft⟩ := ih dfas.length (by rw [← hn,length_cons,length_cons]; omega) dfas (hnd ++ [c]) hdf
            (by omega) rfl
          refine ⟨result,he,fun o h w => ?_,fun hle => hft (hle.imp_left hr.trans)⟩
          rw [ho o h,actionsOn_append,hac,Set.union_assoc,← actionsOn_append]
          rfl
        next hlc =>
          have hl : productSize (c::dfas) ≤ productSize (a::b::dfas) := by
            rw [productSize_cons,hs]
            exact mul_le_mul_right _ hle
          obtain ⟨result,he,ho,hft⟩ := ih (c::dfas).length (by rw [← hn]; simp) (c::dfas) hnd
            (forall_mem_cons.2 ⟨⟨hc,not_lt.1 hlc⟩,hdf⟩) (by omega) rfl
          refine ⟨result,he,fun o h w => ?_,fun hle => hft (hle.imp_left hl.trans)⟩
          rw [ho o h,actionsOn_cons c,hac,← actionsOn_append]
          rfl

private theorem productSize_filter_le (p : DFA → Bool) (dfas : List DFA) : productSize (dfas.filter p) ≤ productSize dfas := by
  induction dfas with
  | nil => exact le_rfl
  | cons dfa dfas ih =>
    rw [filter_cons,productSize_cons]
    split
    · exact mul_le_mul_left _ ih
    · exact ih.trans (Nat.le_mul_of_pos_left _ (Nat.succ_pos _))

private theorem actionsOn_filter (p : DFA → Bool) (dfas : List DFA) (w : List Nat) :
    actionsOn (dfas.filter p) w ∪ actionsOn (dfas.filter fun dfa => !p dfa) w = actionsOn dfas w := by
  ext x
  simp only [actionsOn,Set.mem_union,Set.mem_ofPred_eq,mem_filter]
  constructor
  · rintro (⟨dfa,⟨hm,-⟩,hx⟩ | ⟨dfa,⟨hm,-⟩,hx⟩) <;> exact ⟨dfa,hm,hx⟩
  · rintro ⟨dfa,hm,hx⟩
    by_cases hp : p dfa
    · exact .inl ⟨dfa,⟨hm,hp⟩,hx⟩
    · exact .inr ⟨dfa,⟨hm,by simp [hp]⟩,hx⟩

variable {dfas : List DFA}

private theorem combineDFAs_spec (hcr : A.card ≤ 65535) (hc : cap ≤ invalidNodeIndex)
    (os : CombinerOrders) (l : Nat)
    (hdf : ∀ dfa ∈ dfas, Combinable A cap dfa) (hf : 128*productSize dfas < fuel) :
    ∃ r, combineDFAs os cap fuel l dfas = some r ∧
      (∀ o, r = some o → ∀ w, actionsOn o w = actionsOn dfas w) ∧
      (productSize dfas ≤ cap ∨ (l+1)*(l+1) ≤ cap → r ≠ none) := by
  have hl := productSize_filter_le (fun dfa => !decide (dfa.graphSize > l)) dfas
  obtain ⟨r,he,ho,hft⟩ := mergeSmall_spec hcr hc os l
    (dfas.filter fun dfa => !decide (dfa.graphSize > l)) (dfas.filter fun dfa => dfa.graphSize > l)
    (fun dfa hdfa => ⟨hdf dfa (mem_filter.1 hdfa).1,by simpa using (mem_filter.1 hdfa).2⟩)
    ((mul_le_mul_left _ hl).trans_lt hf)
  refine ⟨r,?_,fun o h w => ?_,fun h => hft (h.imp_left hl.trans)⟩
  · unfold combineDFAs
    rw [partition_eq_filter_filter]
    exact he
  · rw [ho o h]
    exact actionsOn_filter _ dfas w

private theorem addDFAs_spec (os : CombinerOrders) {i : List DFA}
    (hi : ∀ dfa ∈ i, Minimizable dfa ∧ Combinable A cap dfa)
    (hf : ∀ dfa ∈ i, 128*dfa.nodes.length < fuel)
    (hdf : ∀ dfa ∈ dfas, Combinable A cap dfa) :
    ∃ ad, i.foldlM (addDFA os fuel) dfas = some ad ∧ (∀ dfa ∈ ad, Combinable A cap dfa) ∧
      productSize ad ≤ productSize i*productSize dfas ∧
      ∀ w, actionsOn ad w = actionsOn dfas w ∪ actionsOn i w := by
  induction i generalizing dfas with
  | nil => exact ⟨dfas,rfl,hdf,(one_mul _).ge,by simp [actionsOn]⟩
  | cons dfa i ih =>
    obtain ⟨⟨hm,h⟩,hi⟩ := forall_mem_cons.1 hi
    obtain ⟨hf,hr⟩ := forall_mem_cons.1 hf
    obtain ⟨dfa',he,h',hl,hac⟩ := minimize_combinable hm h os.finalStates hf
    obtain ⟨ad,he',ha,hs,hu⟩ := ih hi hr (forall_mem_cons.2 ⟨h',hdf⟩)
    refine ⟨ad,?_,ha,?_,fun w => ?_⟩
    · rw [foldlM_cons,addDFA,he]
      exact he'
    · rw [productSize_cons,mul_left_comm] at hs
      rw [productSize_cons,mul_assoc,graphSize_eq hm]
      exact hs.trans (mul_le_mul_right _ (succ_le_succ hl))
    · rw [hu,actionsOn_cons dfa',actionsOn_cons dfa,hac,Set.union_assoc,Set.union_left_comm]

private theorem graphSize_lt_productSize {dfa : DFA} (h : dfa ∈ dfas) : dfa.graphSize < productSize dfas := by
  induction dfas with
  | nil => cases h
  | cons head dfas ih =>
    rcases mem_cons.1 h with rfl | hm
    · exact (Nat.lt_succ_self _).trans_le (Nat.le_mul_of_pos_right _ (productSize_pos dfas))
    · exact (ih hm).trans_le (Nat.le_mul_of_pos_left _ (Nat.succ_pos _))

/-- Adding automata and combining them ends, and the automata handed out have on every word the actions of those that were
added. Only a merged automaton with more nodes than its vector can hold crashes the program, and the nodes of two automata that
are not handed out make no more than the square of the minimum size. -/
theorem combineDFAs_preserves_union (orders : CombinerOrders) {nodeCapacity : Nat} (hcapacity : nodeCapacity ≤ (2^32-1)/12)
    (minimumSize : Nat) (inputs : List DFA)
    (hinputs : ∀ dfa ∈ inputs, Minimizable dfa ∧ dfa.nodes.length ≤ nodeCapacity)
    (hactions : (inputs.flatMap (·.actions)).toFinset.card ≤ 65535) {fuel : Nat}
    (hfuel : 128*productSize inputs < fuel) :
    ∃ dfas, inputs.foldlM (addDFA orders fuel) [] = some dfas ∧
      ∃ result, combineDFAs orders nodeCapacity fuel minimumSize dfas = some result ∧
        (∀ handed, result = some handed → ∀ w, actionsOn handed w = actionsOn inputs w) ∧
        (productSize inputs ≤ nodeCapacity ∨ (minimumSize+1)*(minimumSize+1) ≤ nodeCapacity → result ≠ none) := by
  have hc : ∀ dfa ∈ inputs, Minimizable dfa ∧
      Combinable (inputs.flatMap (·.actions)).toFinset nodeCapacity dfa := by
    intro dfa hdfa
    obtain ⟨hm,hl⟩ := hinputs dfa hdfa
    refine ⟨hm,hm.toWellFormed,hl,reachesLive_of_live hm.toWellFormed hm.live,?_⟩
    intro w id _ x hx
    exact mem_toFinset.2 (mem_flatMap.2 ⟨dfa,hdfa,mem_of_mem_drop (mem_of_mem_take hx)⟩)
  have hl : ∀ dfa ∈ inputs, 128*dfa.nodes.length < fuel := by
    intro dfa hdfa
    have := graphSize_lt_productSize hdfa
    rw [graphSize_eq (hinputs dfa hdfa).1] at this
    omega
  obtain ⟨dfas,he,hdf,hs,hu⟩ := addDFAs_spec orders hc hl (forall_mem_nil _)
  rw [show productSize [] = 1 from rfl,mul_one] at hs
  obtain ⟨result,he',ho,hf⟩ := combineDFAs_spec hactions (hcapacity.trans (by decide)) orders minimumSize hdf
    (show 128*productSize dfas < fuel by omega)
  refine ⟨dfas,he,result,he',fun handed h w => ?_,fun h => hf (h.imp_left hs.trans)⟩
  rw [ho handed h,hu]
  simp [actionsOn]

theorem combineDFAs_preserves_twinLeaves_union : ∃ dfas, [twinLeaves, twinLeaves].foldlM
        (addDFA ⟨.insertion _,.insertion _⟩ 4000) [] = some dfas ∧
      ∃ result, combineDFAs ⟨.insertion _,.insertion _⟩ 1000 4000 2 dfas = some result ∧
        (∀ handed, result = some handed → ∀ w, actionsOn handed w =
          actionsOn [twinLeaves, twinLeaves] w) ∧
        (productSize [twinLeaves, twinLeaves] ≤ 1000 ∨ (2+1)*(2+1) ≤ 1000 → result ≠ none) :=
  combineDFAs_preserves_union ⟨.insertion _,.insertion _⟩ (by decide) 2 _
    (by
      intro dfa hdf
      rw [eq_of_mem_replicate (n := 2) hdf]
      exact ⟨twinLeaves_minimizable,by decide⟩) (by decide) (by decide)

end DFACombiner
end WebKit.ContentExtensions
