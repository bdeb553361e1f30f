import WebKit.Base.Automaton
import WebKit.Base.Lists
import WebKit.ContentExtensions.MutableRangeList

/-! The compact automaton of a content extension: nodes with slices of shared action and
transition tables, and its run over a string. -/
namespace WebKit.ContentExtensions
open WebKit.Base List

/-- A range of bytes; killed nodes leave the byte of -1 behind. -/
structure CharRange where
  first : Nat
  last : Nat
  deriving DecidableEq, Repr

structure DFANode where
  actionsStart : Nat := 0
  transitionsStart : Nat := 0
  actionsLength : Nat := 0
  transitionsLength : Nat := 0
  isKilled : Bool := false
  deriving DecidableEq, Repr

/-- A partial deterministic automaton in a compact form. -/
structure DFA where
  nodes : List DFANode := []
  actions : List Nat := []
  transitionRanges : List CharRange := []
  transitionDestinations : List Nat := []
  root : Nat := 0
  deriving DecidableEq, Repr

namespace DFANode

def setActions (node : DFANode) (start length : Nat) : DFANode :=
  { node with actionsStart := start, actionsLength := length }

/-- The length is stored in a byte. -/
def setTransitions (node : DFANode) (start length : Nat) : DFANode :=
  { node with transitionsStart := start, transitionsLength := length%2^8 }

def actions (node : DFANode) (dfa : DFA) : List Nat :=
  slice dfa.actions node.actionsStart (node.actionsStart+node.actionsLength)

def transitions (node : DFANode) (dfa : DFA) : List (MutableRange Nat) :=
  List.zipWith (fun range target => ⟨range.first,range.last,target⟩)
    (slice dfa.transitionRanges node.transitionsStart (node.transitionsStart+node.transitionsLength))
    (slice dfa.transitionDestinations node.transitionsStart (node.transitionsStart+node.transitionsLength))

/-- Two nodes share no entry of the transition tables. -/
def TransitionsDisjoint (node other : DFANode) : Prop :=
  ∀ k, node.transitionsStart ≤ k → k < node.transitionsStart + node.transitionsLength →
    ¬(other.transitionsStart ≤ k ∧ k < other.transitionsStart + other.transitionsLength)

/-- Two nodes share no entry of the action table. -/
def ActionsDisjoint (node other : DFANode) : Prop :=
  ∀ k, node.actionsStart ≤ k → k < node.actionsStart + node.actionsLength →
    ¬(other.actionsStart ≤ k ∧ k < other.actionsStart + other.actionsLength)

end DFANode

namespace DFA

def node (dfa : DFA) (id : Nat) : DFANode := dfa.nodes.getD id {}

def actionsOf (dfa : DFA) (id : Nat) : List Nat := (dfa.node id).actions dfa

def transitionsOf (dfa : DFA) (id : Nat) : List (MutableRange Nat) := (dfa.node id).transitions dfa

def next (dfa : DFA) (id c : Nat) : Option Nat := MutableRangeList.dataAt (dfa.transitionsOf id) c

/-- Run from a node; none when a transition is missing. -/
def runFrom (dfa : DFA) (id : Nat) (w : List Nat) : Option Nat := Base.run dfa.next id w

def reach (dfa : DFA) (w : List Nat) : Option Nat := dfa.runFrom dfa.root w

def modifyNode (dfa : DFA) (id : Nat) (f : DFANode → DFANode) : DFA :=
  { dfa with nodes := dfa.nodes.modify id f }

def graphSize (dfa : DFA) : Nat := dfa.nodes.countP fun node => !node.isKilled

def Live (dfa : DFA) (id : Nat) : Prop := id < dfa.nodes.length ∧ (dfa.node id).isKilled = false

instance (dfa : DFA) (id : Nat) : Decidable (dfa.Live id) := inferInstanceAs (Decidable (_ ∧ _))

/-- The nodes own disjoint slices inside the tables. -/
structure Owned (dfa : DFA) : Prop where
  destinations_length : dfa.transitionDestinations.length = dfa.transitionRanges.length
  transitions_inside : ∀ node ∈ dfa.nodes, node.transitionsStart + node.transitionsLength ≤ dfa.transitionRanges.length
  actions_inside : ∀ node ∈ dfa.nodes, node.actionsStart + node.actionsLength ≤ dfa.actions.length
  transitions_disjoint : dfa.nodes.Pairwise DFANode.TransitionsDisjoint
  actions_disjoint : dfa.nodes.Pairwise DFANode.ActionsDisjoint

/-- Besides, every node's ranges are sorted, disjoint and within the characters, and lead to nodes. -/
structure WellFormed (dfa : DFA) : Prop extends dfa.Owned where
  root_lt : dfa.root < dfa.nodes.length
  ordered : ∀ id, MutableRangeList.OrderedFrom 0 (dfa.transitionsOf id)
  last_le : ∀ id, ∀ range ∈ dfa.transitionsOf id, range.last ≤ 127
  target_lt : ∀ id, ∀ range ∈ dfa.transitionsOf id, range.data < dfa.nodes.length

end DFA

variable {dfa : DFA} {id : Nat} {dfa' : DFA} {node : DFANode}

theorem DFANode.actions_of_append (h : dfa.actions <+: dfa'.actions)
    (hi : node.actionsStart + node.actionsLength ≤ dfa.actions.length) :
    node.actions dfa' = node.actions dfa := by
  obtain ⟨m,hm⟩ := h
  rw [DFANode.actions,DFANode.actions,← hm,slice_append_left hi]

theorem DFANode.transitions_of_append
    (hr : dfa.transitionRanges <+: dfa'.transitionRanges)
    (ht : dfa.transitionDestinations <+: dfa'.transitionDestinations)
    (hl : dfa.transitionDestinations.length = dfa.transitionRanges.length)
    (hi : node.transitionsStart + node.transitionsLength ≤ dfa.transitionRanges.length) :
    node.transitions dfa' = node.transitions dfa := by
  obtain ⟨rs,hr⟩ := hr
  obtain ⟨ts,ht⟩ := ht
  rw [DFANode.transitions,DFANode.transitions,← hr,← ht,slice_append_left hi,
    slice_append_left (by rw [hl]; exact hi)]

theorem DFA.node_of_getElem? (h : dfa.nodes[id]? = some node) : dfa.node id = node := by
  rw [DFA.node,getD_eq_getElem?_getD,h]
  rfl

theorem DFA.node_mono (h : dfa.nodes <+: dfa'.nodes) (hi : id < dfa.nodes.length) : dfa'.node id = dfa.node id := by
  obtain ⟨m,hm⟩ := h
  rw [node,node,← hm,getD_append _ _ _ _ hi]

theorem DFA.node_modifyNode_self (hi : id < dfa.nodes.length) (f : DFANode → DFANode) :
    (dfa.modifyNode id f).node id = f (dfa.node id) := by
  apply node_of_getElem?
  rw [modifyNode,node,getD_eq_getElem _ _ hi,getElem?_modify_eq,getElem?_eq_getElem hi]
  rfl

theorem DFA.node_modifyNode_of_ne {other : Nat} (h : id ≠ other) (f : DFANode → DFANode) :
    (dfa.modifyNode id f).node other = dfa.node other := by
  rw [node,node,modifyNode,getD_eq_getElem?_getD,getD_eq_getElem?_getD,getElem?_modify_ne _ _ h]

theorem DFA.node_mem (hi : id < dfa.nodes.length) : dfa.node id ∈ dfa.nodes := by
  rw [node,getD_eq_getElem _ _ hi]
  exact getElem_mem hi

namespace DFA.Owned
variable {dfa : DFA}

theorem append_tables (h : dfa.Owned) (actions : List Nat) (rs : List CharRange) (ts : List Nat)
    (hl : ts.length = rs.length) :
    { dfa with
      actions := dfa.actions ++ actions
      transitionRanges := dfa.transitionRanges ++ rs
      transitionDestinations := dfa.transitionDestinations ++ ts : DFA }.Owned where
  destinations_length := by simp [h.destinations_length,hl]
  transitions_inside node hn := (h.transitions_inside node hn).trans (by simp)
  actions_inside node hn := (h.actions_inside node hn).trans (by simp)
  transitions_disjoint := h.transitions_disjoint
  actions_disjoint := h.actions_disjoint

theorem append_node (h : dfa.Owned) (actions : List Nat) : { dfa with
      actions := dfa.actions ++ actions
      nodes := dfa.nodes ++ [({} : DFANode).setActions dfa.actions.length actions.length] : DFA }.Owned where
  destinations_length := h.destinations_length
  transitions_inside := by
    intro node hn
    rcases mem_append.1 hn with hol | hnw
    · exact h.transitions_inside node hol
    · rw [mem_singleton.1 hnw]
      exact Nat.zero_le _
  actions_inside := by
    intro node hn
    rw [length_append]
    rcases mem_append.1 hn with hol | hnw
    · exact (h.actions_inside node hol).trans (Nat.le_add_right _ _)
    · rw [mem_singleton.1 hnw]
      exact le_rfl
  transitions_disjoint := by
    refine pairwise_append.2 ⟨h.transitions_disjoint,pairwise_singleton _ _,?_⟩
    intro node _ o ho k _ _ hk
    rw [mem_singleton.1 ho] at hk
    exact absurd hk.2 (Nat.not_lt_zero k)
  actions_disjoint := by
    refine pairwise_append.2 ⟨h.actions_disjoint,pairwise_singleton _ _,?_⟩
    intro node hn o ho k _ hl hk
    rw [mem_singleton.1 ho] at hk
    have hi := h.actions_inside node hn
    have hs : dfa.actions.length ≤ k := hk.1
    omega

/-- A node gets the end of the transition tables. -/
theorem set_transitions (h : dfa.Owned) (id : Nat) {s l : Nat}
    (hb : ∀ node ∈ dfa.nodes, node.transitionsStart + node.transitionsLength ≤ s)
    (hi : s + l%2^8 ≤ dfa.transitionRanges.length) :
    (dfa.modifyNode id fun node => node.setTransitions s l).Owned where
  destinations_length := h.destinations_length
  transitions_inside := by
    intro node hn
    obtain ⟨ol,hol,rfl | rfl⟩ := mem_modify hn
    · exact h.transitions_inside node hol
    · exact hi
  actions_inside := by
    intro node hn
    obtain ⟨ol,hol,rfl | rfl⟩ := mem_modify hn
    · exact h.actions_inside node hol
    · exact h.actions_inside ol hol
  transitions_disjoint := by
    apply pairwise_modify h.transitions_disjoint
    intro node hn o ho _
    have hne := hb node hn
    have hoe := hb o ho
    constructor
    · intro k (hf : s ≤ k) _ hk
      omega
    · intro k _ hl (hk : s ≤ k ∧ _)
      omega
  actions_disjoint := by
    apply pairwise_modify h.actions_disjoint
    intro node _ o _ hds
    exact ⟨hds,hds⟩

end DFA.Owned

end WebKit.ContentExtensions
