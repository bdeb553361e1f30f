import WebKit.Base.HashSet
import WebKit.ContentExtensions.DFA

/-! The immutable nondeterministic automaton and the node builders it is made with. -/
namespace WebKit.ContentExtensions
open WebKit.Base List HashSet MutableRangeList Option Nat

structure ImmutableRange where
  targetStart : Nat
  targetEnd : Nat
  first : Nat
  last : Nat
  deriving DecidableEq, Repr

structure ImmutableNFANode where
  rangesStart : Nat := 0
  rangesEnd : Nat := 0
  epsilonTransitionTargetsStart : Nat := 0
  epsilonTransitionTargetsEnd : Nat := 0
  actionStart : Nat := 0
  actionEnd : Nat := 0
  deriving DecidableEq, Repr

structure NFA where
  nodes : List ImmutableNFANode := []
  transitions : List ImmutableRange := []
  targets : List Nat := []
  epsilonTransitionsTargets : List Nat := []
  actions : List Nat := []
  deriving DecidableEq, Repr

/-- What a node builder has collected. -/
structure ImmutableNFANodeBuilder where
  ranges : List (MutableRange (List Nat)) := []
  epsilonTransitionTargets : List Nat := []
  actions : List Nat := []
  deriving DecidableEq, Repr

namespace NFA

def root : Nat := 0

def node (nfa : NFA) (id : Nat) : ImmutableNFANode := nfa.nodes.getD id {}

def transitionsForNode (nfa : NFA) (id : Nat) : List (MutableRange (List Nat)) :=
  (slice nfa.transitions (nfa.node id).rangesStart (nfa.node id).rangesEnd).map fun range =>
    ⟨range.first,range.last,slice nfa.targets range.targetStart range.targetEnd⟩

def epsilonTargets (nfa : NFA) (id : Nat) : List Nat :=
  slice nfa.epsilonTransitionsTargets (nfa.node id).epsilonTransitionTargetsStart
    (nfa.node id).epsilonTransitionTargetsEnd

def actionsOf (nfa : NFA) (id : Nat) : List Nat :=
  slice nfa.actions (nfa.node id).actionStart (nfa.node id).actionEnd

/-- The finalized content of a node. -/
def content (nfa : NFA) (id : Nat) : ImmutableNFANodeBuilder :=
  ⟨nfa.transitionsForNode id,nfa.epsilonTargets id,nfa.actionsOf id⟩

end NFA

namespace ImmutableNFANodeBuilder

/-- Target sets are hash sets; copying one inserts in the order of iteration. -/
def targetConverter (order : IterationOrder Nat) : DataConverter (List Nat) Nat where
  convert target := [target]
  extend targets target := add targets target
  copy targets := order.visit targets

def addTransition (order : IterationOrder Nat) (builder : ImmutableNFANodeBuilder) (first last target : Nat) :
    ImmutableNFANodeBuilder :=
  { builder with ranges := extend (targetConverter order) builder.ranges [⟨first,last,target⟩] }

def addEpsilonTransition (builder : ImmutableNFANodeBuilder) (target : Nat) : ImmutableNFANodeBuilder :=
  { builder with epsilonTransitionTargets := add builder.epsilonTransitionTargets target }

def setActions (builder : ImmutableNFANodeBuilder) (actions : List Nat) : ImmutableNFANodeBuilder :=
  { builder with actions := addAll builder.actions actions }

def sinkActions (order : IterationOrder Nat) (builder : ImmutableNFANodeBuilder) (nfa : NFA) (node : ImmutableNFANode) :
    NFA × ImmutableNFANode :=
  let actions := nfa.actions ++ order.visit builder.actions
  ({ nfa with actions := actions }, { node with actionStart := nfa.actions.length, actionEnd := actions.length })

def sinkEpsilonTransitions (order : IterationOrder Nat) (builder : ImmutableNFANodeBuilder) (nfa : NFA)
    (node : ImmutableNFANode) : NFA × ImmutableNFANode :=
  let targets := nfa.epsilonTransitionsTargets ++ order.visit builder.epsilonTransitionTargets
  ({ nfa with epsilonTransitionsTargets := targets }, { node with
      epsilonTransitionTargetsStart := nfa.epsilonTransitionsTargets.length
      epsilonTransitionTargetsEnd := targets.length })

def sinkRanges (order : IterationOrder Nat) : List (MutableRange (List Nat)) → NFA → NFA
  | [], nfa => nfa
  | range::ranges, nfa =>
    let targets := nfa.targets ++ order.visit range.data
    sinkRanges order ranges { nfa with
      targets := targets
      transitions := nfa.transitions ++ [⟨nfa.targets.length,targets.length,range.first,range.last⟩] }

def sinkTransitions (order : IterationOrder Nat) (builder : ImmutableNFANodeBuilder) (nfa : NFA)
    (node : ImmutableNFANode) : NFA × ImmutableNFANode :=
  let sunk := sinkRanges order builder.ranges nfa
  (sunk, { node with rangesStart := nfa.transitions.length, rangesEnd := sunk.transitions.length })

/-- Write everything a builder collected into the automaton's tables. -/
def finalize (targetOrder actionOrder : IterationOrder Nat) (builder : ImmutableNFANodeBuilder) (nfa : NFA) (id : Nat) :
    NFA :=
  let (nfa, node) := builder.sinkActions actionOrder nfa (nfa.node id)
  let (nfa, node) := builder.sinkEpsilonTransitions targetOrder nfa node
  let (nfa, node) := builder.sinkTransitions targetOrder nfa node
  { nfa with nodes := nfa.nodes.set id node }

def targetsAt (builder : ImmutableNFANodeBuilder) (c : Nat) : List Nat :=
  (dataAt builder.ranges c).getD []

/-- Ranges are sorted, disjoint and within the characters, target sets nonempty and all targets nodes. -/
structure WellFormed (builder : ImmutableNFANodeBuilder) (size : Nat) : Prop where
  ordered : MutableRangeList.OrderedFrom 0 builder.ranges
  last_le : ∀ range ∈ builder.ranges, range.last ≤ 127
  targets_ne_nil : ∀ range ∈ builder.ranges, range.data ≠ []
  target_lt : ∀ range ∈ builder.ranges, ∀ target ∈ range.data, target < size
  epsilon_lt : ∀ target ∈ builder.epsilonTransitionTargets, target < size

/-- Two contents with the same transitions, epsilon transitions and actions. -/
structure Same (builder builder' : ImmutableNFANodeBuilder) : Prop where
  targets : ∀ c target, target ∈ builder.targetsAt c ↔ target ∈ builder'.targetsAt c
  epsilon : ∀ target, target ∈ builder.epsilonTransitionTargets ↔ target ∈ builder'.epsilonTransitionTargets
  actions : ∀ action, action ∈ builder.actions ↔ action ∈ builder'.actions

end ImmutableNFANodeBuilder

/-- The tables, and a builder for each node that is not finalized. -/
structure NFAConstruction where
  nfa : NFA := {}
  builders : List (Option ImmutableNFANodeBuilder) := []

structure HashOrders where
  targets : IterationOrder Nat
  actions : IterationOrder Nat

namespace NFAConstruction
variable (orders : HashOrders)

def size (s : NFAConstruction) : Nat := s.nfa.nodes.length

def builder (s : NFAConstruction) (id : Nat) : Option ImmutableNFANodeBuilder := s.builders.getD id none

def create (s : NFAConstruction) : NFAConstruction where
  nfa := { s.nfa with nodes := s.nfa.nodes ++ [{}] }
  builders := s.builders ++ [some {}]

def modify (s : NFAConstruction) (id : Nat) (f : ImmutableNFANodeBuilder → ImmutableNFANodeBuilder) : NFAConstruction :=
  { s with builders := s.builders.set id ((s.builder id).map f) }

/-- Destructing a builder finalizes its node. -/
def finalize (s : NFAConstruction) (id : Nat) : NFAConstruction :=
  match s.builder id with
  | none => s
  | some builder =>
    { nfa := builder.finalize orders.targets orders.actions s.nfa id
      builders := s.builders.set id none }

/-- The content of a node, finalized or not. -/
def content (s : NFAConstruction) (id : Nat) : ImmutableNFANodeBuilder := (s.builder id).getD (s.nfa.content id)

/-- A call on a builder, as the assertions of the source allow it. -/
inductive Step : NFAConstruction → NFAConstruction → Prop
  | create (s) : Step s s.create
  | addTransition (s) {id first last target : Nat} (live : (s.builder id).isSome) (range : first ≤ last)
      (character : last ≤ 127) (node : target < s.size) :
      Step s (s.modify id fun builder => builder.addTransition orders.targets first last target)
  | addEpsilonTransition (s) {id target : Nat} (live : (s.builder id).isSome) (node : target < s.size) :
      Step s (s.modify id fun builder => builder.addEpsilonTransition target)
  | setActions (s) {id : Nat} (actions : List Nat) (live : (s.builder id).isSome) :
      Step s (s.modify id fun builder => builder.setActions actions)
  | finalize (s) {id : Nat} (live : (s.builder id).isSome) : Step s (s.finalize orders id)

end NFAConstruction

/-- Every builder is finalized, and there is a root. -/
def NFA.Built (orders : HashOrders) (nfa : NFA) : Prop :=
  ∃ s : NFAConstruction, Relation.ReflTransGen (NFAConstruction.Step orders) {} s ∧
    (∀ builder ∈ s.builders, builder = none) ∧ nfa.nodes ≠ [] ∧ s.nfa = nfa

/-- The automaton as an epsilon automaton over characters. -/
def NFA.automaton (nfa : NFA) : εNFA Nat Nat where
  step id
    | some c => {target | target ∈ (nfa.content id).targetsAt c}
    | none => {target | target ∈ nfa.epsilonTargets id}
  start := {root}
  accept := {id | nfa.actionsOf id ≠ []}

/-- Every slice that a node names lies inside its table. -/
structure NFA.SlicesInside (nfa : NFA) : Prop where
  ranges : ∀ node ∈ nfa.nodes, node.rangesEnd ≤ nfa.transitions.length
  epsilon : ∀ node ∈ nfa.nodes, node.epsilonTransitionTargetsEnd ≤ nfa.epsilonTransitionsTargets.length
  actions : ∀ node ∈ nfa.nodes, node.actionEnd ≤ nfa.actions.length
  targets : ∀ range ∈ nfa.transitions, range.targetEnd ≤ nfa.targets.length

theorem NFA.node_mem_or_default (n : NFA) (id : Nat) : n.node id ∈ n.nodes ∨ n.node id = {} := by
  unfold node
  rw [getD_eq_getElem?_getD]
  cases h : n.nodes[id]? with
  | none => exact .inr rfl
  | some node => exact .inl (mem_of_getElem? h)

theorem NFA.content_of_append {n n' : NFA} (hi : n.SlicesInside) {id : Nat} (hn : n'.node id = n.node id)
    (htn : n.transitions <+: n'.transitions) (htr : n.targets <+: n'.targets)
    (hep : n.epsilonTransitionsTargets <+: n'.epsilonTransitionsTargets)
    (hac : n.actions <+: n'.actions) : n'.content id = n.content id := by
  obtain ⟨ts,ht⟩ := htn
  obtain ⟨tr,hg⟩ := htr
  obtain ⟨e,he⟩ := hep
  obtain ⟨ac,ha⟩ := hac
  have hen : (n.node id).rangesEnd ≤ n.transitions.length ∧
      (n.node id).epsilonTransitionTargetsEnd ≤ n.epsilonTransitionsTargets.length ∧
      (n.node id).actionEnd ≤ n.actions.length := by
    rcases n.node_mem_or_default id with h | h
    · exact ⟨hi.ranges _ h,hi.epsilon _ h,hi.actions _ h⟩
    · rw [h]
      exact ⟨zero_le _,zero_le _,zero_le _⟩
  simp only [content,transitionsForNode,epsilonTargets,actionsOf,hn,← ht,← hg,← he,← ha,
    slice_append_left hen.1,slice_append_left hen.2.1,slice_append_left hen.2.2]
  congr 1
  refine map_congr_left fun r hr => ?_
  rw [slice_append_left (hi.targets r (mem_of_mem_drop (mem_of_mem_take hr)))]

namespace ImmutableNFANodeBuilder

private theorem sinkRanges_spec (o : IterationOrder Nat) (rs : List (MutableRange (List Nat))) (n : NFA) :
    ∃ transitions targets, sinkRanges o rs n = { n with
        transitions := n.transitions ++ transitions
        targets := n.targets ++ targets } ∧
      (∀ r ∈ transitions, r.targetEnd ≤ (n.targets ++ targets).length) ∧
      transitions.map (fun r =>
          (⟨r.first,r.last,slice (n.targets ++ targets) r.targetStart r.targetEnd⟩ :
            MutableRange (List Nat))) =
        rs.map fun r => ⟨r.first,r.last,o.visit r.data⟩ := by
  induction rs generalizing n with
  | nil => exact ⟨[],[],by simp [sinkRanges],by simp,rfl⟩
  | cons r rs ih =>
    rw [sinkRanges]
    obtain ⟨transitions,targets,heq,he,hm⟩ := ih { n with
      targets := n.targets ++ o.visit r.data
      transitions := n.transitions ++
        [⟨n.targets.length,(n.targets ++ o.visit r.data).length,r.first,r.last⟩] }
    refine ⟨⟨n.targets.length,(n.targets ++ o.visit r.data).length,r.first,r.last⟩ :: transitions,
      o.visit r.data ++ targets,?_,?_,?_⟩
    · rw [heq]
      simp
    · rw [← append_assoc]
      refine forall_mem_cons.2 ⟨?_,he⟩
      simp
    · rw [← append_assoc,map_cons,map_cons,hm,slice_append_left le_rfl,slice_append_right]

/-- The content as it is stored: every set in the order of iteration. -/
def stored (targetOrder actionOrder : IterationOrder Nat) (builder : ImmutableNFANodeBuilder) : ImmutableNFANodeBuilder :=
  ⟨builder.ranges.map fun range => ⟨range.first,range.last,targetOrder.visit range.data⟩,
    targetOrder.visit builder.epsilonTransitionTargets,actionOrder.visit builder.actions⟩

/-- Finalizing stores a node's content, in iteration order, and nothing else. -/
theorem finalize_spec (t a : IterationOrder Nat) (builder : ImmutableNFANodeBuilder) {nfa : NFA}
    {id : Nat} (hid : id < nfa.nodes.length) (hi : nfa.SlicesInside) :
    let nfa' := builder.finalize t a nfa id
    nfa'.nodes.length = nfa.nodes.length ∧ nfa'.SlicesInside ∧
      nfa'.content id = builder.stored t a ∧
      ∀ other, other ≠ id → nfa'.content other = nfa.content other := by
  intro nfa'
  obtain ⟨transitions,targets,hs,he,hm⟩ := sinkRanges_spec t builder.ranges
    { nfa with
      actions := nfa.actions ++ a.visit builder.actions
      epsilonTransitionsTargets := nfa.epsilonTransitionsTargets ++ t.visit builder.epsilonTransitionTargets }
  have hnf : nfa' = {
      nodes := nfa.nodes.set id {
        rangesStart := nfa.transitions.length
        rangesEnd := (nfa.transitions ++ transitions).length
        epsilonTransitionTargetsStart := nfa.epsilonTransitionsTargets.length
        epsilonTransitionTargetsEnd :=
          (nfa.epsilonTransitionsTargets ++ t.visit builder.epsilonTransitionTargets).length
        actionStart := nfa.actions.length
        actionEnd := (nfa.actions ++ a.visit builder.actions).length }
      transitions := nfa.transitions ++ transitions
      targets := nfa.targets ++ targets
      epsilonTransitionsTargets :=
        nfa.epsilonTransitionsTargets ++ t.visit builder.epsilonTransitionTargets
      actions := nfa.actions ++ a.visit builder.actions } := by
    simp only [nfa',finalize,sinkActions,sinkEpsilonTransitions,sinkTransitions,hs]
  rw [hnf]
  refine ⟨length_set,⟨?_,?_,?_,?_⟩,?_,fun other ho => ?_⟩
  · intro node hn
    rcases mem_or_eq_of_mem_set hn with h | rfl
    · exact (hi.ranges node h).trans (by simp)
    · exact le_rfl
  · intro node hn
    rcases mem_or_eq_of_mem_set hn with h | rfl
    · exact (hi.epsilon node h).trans (by simp)
    · exact le_rfl
  · intro node hn
    rcases mem_or_eq_of_mem_set hn with h | rfl
    · exact (hi.actions node h).trans (by simp)
    · exact le_rfl
  · intro r hr
    rcases mem_append.1 hr with h | h
    · exact (hi.targets r h).trans (by simp)
    · exact he r h
  · simp only [stored,NFA.content,NFA.transitionsForNode,NFA.epsilonTargets,NFA.actionsOf,NFA.node,
      getD_eq_getElem?_getD,getElem?_set_self hid,getD_some,slice_append_right,hm]
  · refine NFA.content_of_append hi ?_ (prefix_append _ _) (prefix_append _ _)
      (prefix_append _ _) (prefix_append _ _)
    simp only [NFA.node,getD_eq_getElem?_getD]
    rw [getElem?_set_ne ho.symm]

def targetSet (targets : List Nat) : Set Nat := {target | target ∈ targets}

private theorem targetConverter_lawful (o : IterationOrder Nat) : MutableRangeList.Lawful targetSet (targetConverter o) where
  copy targets := by simp [targetSet,targetConverter]
  extend_copy targets target := by simp [targetSet,targetConverter,mem_add]

variable {target : Nat}

theorem mem_targetsAt_iff {builder : ImmutableNFANodeBuilder} {c : Nat} :
    target ∈ builder.targetsAt c ↔ ∃ targets, dataAt builder.ranges c = some targets ∧ target ∈ targets := by
  unfold targetsAt
  cases dataAt builder.ranges c <;> simp

variable {builder : ImmutableNFANodeBuilder} {size : Nat}

theorem WellFormed.mono (h : builder.WellFormed size) {size' : Nat} (hl : size ≤ size') : builder.WellFormed size' :=
  ⟨h.ordered,h.last_le,h.targets_ne_nil,fun r hr target ht => (h.target_lt r hr target ht).trans_le hl,
    fun target ht => (h.epsilon_lt target ht).trans_le hl⟩

theorem wellFormed_empty : WellFormed {} size := ⟨trivial,by simp,by simp,by simp,by simp⟩

private theorem addTransition_merges (o : IterationOrder Nat) (h : builder.WellFormed size) {first l : Nat}
    (hr : first ≤ l) (target : Nat) :
    MutableRangeList.Merges targetSet (targetConverter o) 0 builder.ranges [⟨first,l,target⟩]
      (builder.addTransition o first l target).ranges :=
  extend_spec (targetConverter_lawful o) h.ordered ⟨zero_le _,hr,trivial⟩

private theorem addTransition_wellFormed (o : IterationOrder Nat) (h : builder.WellFormed size) {f l : Nat}
    (hrn : f ≤ l) (hl : l ≤ 127) (htg : target < size) :
    (builder.addTransition o f l target).WellFormed size := by
  have hm := addTransition_merges o h hrn target
  have ha : ∀ r ∈ (builder.addTransition o f l target).ranges,
      r.data ≠ [] ∧ ∀ target ∈ r.data, target < size := by
    unfold addTransition
    dsimp only
    refine extend_forall (P := fun ts => ts ≠ [] ∧ ∀ target ∈ ts, target < size) ?_ ?_ ?_ ?_
    · rintro ts ⟨hne,hlt⟩
      exact ⟨fun hn => hne (o.visit_eq_nil.1 hn),fun t ht => hlt t (o.mem_visit.1 ht)⟩
    · exact forall_mem_singleton.2 ⟨by simp [targetConverter],forall_mem_singleton.2 htg⟩
    · refine forall_mem_singleton.2 fun ts ⟨_,hlt⟩ => ⟨?_,fun t ht => ?_⟩
      · exact ne_nil_of_mem (mem_add.2 (.inr rfl))
      · rcases mem_add.1 ht with ht | rfl
        · exact hlt t ht
        · exact htg
    · exact fun r hr => ⟨h.targets_ne_nil r hr,h.target_lt r hr⟩
  exact ⟨hm.1,hm.last_le h.last_le (forall_mem_singleton.2 hl),fun r hr => (ha r hr).1,
    fun r hr => (ha r hr).2,h.epsilon_lt⟩

private theorem addEpsilonTransition_wellFormed (h : builder.WellFormed size) (htg : target < size) :
    (builder.addEpsilonTransition target).WellFormed size := by
  refine ⟨h.ordered,h.last_le,h.targets_ne_nil,h.target_lt,fun t ht => ?_⟩
  rcases mem_add.1 ht with ht | rfl
  · exact h.epsilon_lt t ht
  · exact htg

private theorem setActions_wellFormed (h : builder.WellFormed size) (ac : List Nat) :
    (builder.setActions ac).WellFormed size :=
  ⟨h.ordered,h.last_le,h.targets_ne_nil,h.target_lt,h.epsilon_lt⟩

private theorem orderedFrom_map {l : Nat} {rs : List (MutableRange (List Nat))} (f : List Nat → List Nat)
    (h : MutableRangeList.OrderedFrom l rs) :
    MutableRangeList.OrderedFrom l (rs.map fun r => (⟨r.first,r.last,f r.data⟩ :
      MutableRange (List Nat))) := by
  induction rs generalizing l with
  | nil => trivial
  | cons r rs ih => exact ⟨h.1,h.2.1,ih h.2.2⟩

private theorem stored_wellFormed (targetOrder actionOrder : IterationOrder Nat) (h : builder.WellFormed size) :
    (builder.stored targetOrder actionOrder).WellFormed size := by
  refine ⟨orderedFrom_map _ h.ordered,?_,?_,?_,fun t ht => h.epsilon_lt t (targetOrder.mem_visit.1 ht)⟩
  · exact forall_mem_map.2 h.last_le
  · exact forall_mem_map.2 fun range hr hn => h.targets_ne_nil range hr (targetOrder.visit_eq_nil.1 hn)
  · exact forall_mem_map.2 fun range hr t ht => h.target_lt range hr t (targetOrder.mem_visit.1 ht)

end ImmutableNFANodeBuilder

namespace NFAConstruction
variable {orders : HashOrders} {s : NFAConstruction}

/-- Tables and builders fit together and every node is well formed. -/
structure WellFormed (s : NFAConstruction) : Prop where
  builders_length : s.builders.length = s.size
  inside : s.nfa.SlicesInside
  content : ∀ id, (s.content id).WellFormed s.size

private theorem node_append_default (n : NFA) (id : Nat) : ({ n with nodes := n.nodes ++ [{}] } : NFA).node id = n.node id := by
  simp only [NFA.node,getD_eq_getElem?_getD,getElem?_append]
  split
  · rfl
  next h =>
    rw [getElem?_eq_none (l := n.nodes) (by omega)]
    cases id - n.nodes.length <;> simp

private theorem inside_append_default {n : NFA} (h : n.SlicesInside) :
    ({ n with nodes := n.nodes ++ [{}] } : NFA).SlicesInside := by
  refine ⟨?_,?_,?_,h.targets⟩
  · exact forall_mem_append.2 ⟨h.ranges,forall_mem_singleton.2 (zero_le _)⟩
  · exact forall_mem_append.2 ⟨h.epsilon,forall_mem_singleton.2 (zero_le _)⟩
  · exact forall_mem_append.2 ⟨h.actions,forall_mem_singleton.2 (zero_le _)⟩

variable {id : Nat}

section
variable (h : s.WellFormed)
include h

theorem builder_isSome_lt (hl : (s.builder id).isSome) : id < s.size := by
  rw [← h.builders_length]
  by_contra hg
  rw [builder,getD_eq_getElem?_getD,getElem?_eq_none (by omega)] at hl
  cases hl

private theorem content_create (id : Nat) : s.create.content id = if id = s.size then {} else s.content id := by
  have hn : s.create.nfa.content id = s.nfa.content id := by
    simp only [create,NFA.content,NFA.transitionsForNode,NFA.epsilonTargets,NFA.actionsOf,node_append_default]
  unfold content
  rw [hn]
  simp only [builder,create,getD_eq_getElem?_getD,getElem?_append,h.builders_length]
  split
  next hl => rw [if_neg (by omega)]
  next hg =>
    rw [getElem?_eq_none (l := s.builders) (by rw [h.builders_length]; omega)]
    split
    next he => simp [he]
    next hne =>
      obtain ⟨k,hk⟩ : ∃ k, id - s.size = k + 1 := ⟨id - s.size - 1,by omega⟩
      simp [hk]

private theorem content_modify (hl : (s.builder id).isSome)
    (f : ImmutableNFANodeBuilder → ImmutableNFANodeBuilder) (other : Nat) :
    (s.modify id f).content other = if other = id then f (s.content id) else s.content other := by
  have hlt := builder_isSome_lt h hl
  obtain ⟨b,hb⟩ := isSome_iff_exists.1 hl
  unfold content modify
  split
  next he =>
    subst he
    simp only [builder,getD_eq_getElem?_getD] at hb ⊢
    rw [getElem?_set_self (by rw [h.builders_length]; exact hlt),hb]
    rfl
  next hn =>
    simp only [builder,getD_eq_getElem?_getD]
    rw [getElem?_set_ne (Ne.symm hn)]

private theorem content_finalize (hl : (s.builder id).isSome) (other : Nat) :
    (s.finalize orders id).content other =
      if other = id then (s.content id).stored orders.targets orders.actions else s.content other := by
  have hlt := builder_isSome_lt h hl
  obtain ⟨b,hb⟩ := isSome_iff_exists.1 hl
  obtain ⟨-,-,hs,ho⟩ := b.finalize_spec orders.targets orders.actions hlt h.inside
  unfold finalize
  rw [hb]
  dsimp only
  split
  next he =>
    subst he
    unfold content
    rw [hb]
    simp only [builder,getD_eq_getElem?_getD]
    rw [getElem?_set_self (by rw [h.builders_length]; exact hlt)]
    exact hs
  next hn =>
    unfold content
    rw [ho other hn]
    simp only [builder,getD_eq_getElem?_getD]
    rw [getElem?_set_ne (Ne.symm hn)]

end

private theorem size_finalize (orders : HashOrders) (h : s.WellFormed) (hl : (s.builder id).isSome) :
    (s.finalize orders id).size = s.size := by
  obtain ⟨b,hb⟩ := isSome_iff_exists.1 hl
  unfold finalize
  rw [hb]
  exact (b.finalize_spec orders.targets orders.actions (builder_isSome_lt h hl) h.inside).1

private theorem wellFormed_create (h : s.WellFormed) : s.create.WellFormed := by
  have hs : s.create.size = s.size + 1 := by simp [size,create]
  refine ⟨by rw [hs,← h.builders_length]; simp [create],inside_append_default h.inside,fun id => ?_⟩
  rw [hs,content_create h]
  split
  · exact ImmutableNFANodeBuilder.wellFormed_empty
  · exact (h.content id).mono (le_succ _)

private theorem wellFormed_modify (h : s.WellFormed) (hl : (s.builder id).isSome)
    {f : ImmutableNFANodeBuilder → ImmutableNFANodeBuilder} (hf : (f (s.content id)).WellFormed s.size) :
    (s.modify id f).WellFormed := by
  refine ⟨length_set.trans h.builders_length,h.inside,fun o => ?_⟩
  rw [content_modify h hl]
  split
  · exact hf
  · exact h.content o

private theorem wellFormed_finalize (h : s.WellFormed) (hl : (s.builder id).isSome) : (s.finalize orders id).WellFormed := by
  have hs := size_finalize orders h hl
  obtain ⟨b,hb⟩ := isSome_iff_exists.1 hl
  refine ⟨?_,?_,fun other => ?_⟩
  · rw [hs,← h.builders_length]
    simp [finalize,hb]
  · unfold finalize
    rw [hb]
    exact (b.finalize_spec orders.targets orders.actions (builder_isSome_lt h hl) h.inside).2.1
  · rw [hs,content_finalize h hl]
    split
    · exact ImmutableNFANodeBuilder.stored_wellFormed _ _ (h.content id)
    · exact h.content other

private theorem wellFormed_initial : ({} : NFAConstruction).WellFormed := by
  refine ⟨rfl,⟨by simp,by simp,by simp,by simp⟩,fun id => ?_⟩
  have : ({} : NFAConstruction).content id = {} := by
    simp [content,builder,NFA.content,NFA.transitionsForNode,NFA.epsilonTargets,NFA.actionsOf,slice]
  exact ImmutableNFANodeBuilder.wellFormed_empty

theorem Step.wellFormed {s' : NFAConstruction} (hs : Step orders s s') (h : s.WellFormed) : s'.WellFormed := by
  cases hs with
  | create => exact wellFormed_create h
  | addTransition live r c node =>
    exact wellFormed_modify h live (ImmutableNFANodeBuilder.addTransition_wellFormed _ (h.content _) r c node)
  | addEpsilonTransition live node =>
    exact wellFormed_modify h live (ImmutableNFANodeBuilder.addEpsilonTransition_wellFormed (h.content _) node)
  | setActions ac live =>
    exact wellFormed_modify h live (ImmutableNFANodeBuilder.setActions_wellFormed (h.content _) ac)
  | finalize live => exact wellFormed_finalize h live

private theorem wellFormed_of_steps (hs : Relation.ReflTransGen (Step orders) {} s) : s.WellFormed := by
  induction hs with
  | refl => exact wellFormed_initial
  | tail _ hst ih => exact hst.wellFormed ih

end NFAConstruction

/-- What the conversion relies on: a root, and every node well formed. -/
structure NFA.WellFormed (nfa : NFA) : Prop where
  nodes_ne_nil : nfa.nodes ≠ []
  content : ∀ id, (nfa.content id).WellFormed nfa.nodes.length

theorem NFAConstruction.content_eq_of_finalized {s : NFAConstruction} (hf : ∀ builder ∈ s.builders, builder = none)
    (id : Nat) : s.content id = s.nfa.content id := by
  have : s.builder id = none := by
    unfold NFAConstruction.builder
    rw [getD_eq_getElem?_getD]
    cases h : s.builders[id]? with
    | none => rfl
    | some b => exact hf b (mem_of_getElem? h)
  rw [NFAConstruction.content,this]
  rfl

theorem NFA.Built.wellFormed {orders : HashOrders} {n : NFA} (h : n.Built orders) : n.WellFormed := by
  obtain ⟨s,hs,hf,hr,rfl⟩ := h
  have hw := NFAConstruction.wellFormed_of_steps hs
  refine ⟨hr,fun id => ?_⟩
  rw [← NFAConstruction.content_eq_of_finalized hf]
  exact hw.content id

end WebKit.ContentExtensions
