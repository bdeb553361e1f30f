import WebKit.Base.Loop
import WebKit.ContentExtensions.DFA

/-! Filling an automaton from a worklist: the loop that both constructions share. A table finds the node of a key, and new
keys are queued. -/
namespace WebKit.ContentExtensions
open WebKit.Base MutableRangeList List ContentExtensions.DFA Nat

/-- What the two constructions differ in: keys are looked up as queries and stored interned. -/
structure NodeSource (η κ : Type*) where
  same : κ → η → Bool
  intern : η → κ
  actions : η → List Nat
  /-- The length to store for a new node, or none when the program crashes. -/
  storedLength : (nodes : Nat) → (actionsLength : Nat) → Option Nat
  transitions : κ → List (MutableRange η)

structure TableEntry (κ : Type*) where
  key : κ
  dfaNodeId : Nat

/-- The output so far, the table, and the queue with the last entry first. -/
structure DFAConstruction (κ : Type*) where
  dfa : DFA := {}
  table : List (TableEntry κ) := []
  unprocessedNodes : List (TableEntry κ) := []

namespace DFAConstruction
variable {η κ : Type*} (source : NodeSource η κ)

/-- Append a node with its actions, an entry for it and queue the entry. -/
def createNode (query : η) (length : Nat) (s : DFAConstruction κ) : DFAConstruction κ where
  dfa := { s.dfa with
    actions := s.dfa.actions ++ source.actions query
    nodes := s.dfa.nodes ++ [({} : DFANode).setActions s.dfa.actions.length length] }
  table := s.table ++ [⟨source.intern query,s.dfa.nodes.length⟩]
  unprocessedNodes := ⟨source.intern query,s.dfa.nodes.length⟩ :: s.unprocessedNodes

def getOrCreateNode (query : η) (s : DFAConstruction κ) : Option (Nat × DFAConstruction κ) :=
  match s.table.find? fun entry => source.same entry.key query with
  | some entry => some (entry.dfaNodeId, s)
  | none =>
    match source.storedLength s.dfa.nodes.length (source.actions query).length with
    | none => none
    | some length => some (s.dfa.nodes.length, createNode source query length s)

def appendTransition (range : MutableRange η) (target : Nat) (s : DFAConstruction κ) : DFAConstruction κ :=
  { s with dfa := { s.dfa with
    transitionRanges := s.dfa.transitionRanges ++ [⟨range.first,range.last⟩]
    transitionDestinations := s.dfa.transitionDestinations ++ [target] } }

def appendTransitions : List (MutableRange η) → DFAConstruction κ → Option (DFAConstruction κ)
  | [], s => some s
  | range::ranges, s =>
    match getOrCreateNode source range.data s with
    | none => none
    | some (target, s) => appendTransitions ranges (appendTransition range target s)

def setTransitions (id start : Nat) (s : DFAConstruction κ) : DFAConstruction κ :=
  { s with dfa := s.dfa.modifyNode id fun node => node.setTransitions start (s.dfa.transitionRanges.length-start) }

/-- One round: take the last queued entry and write its transitions. -/
def step (s : DFAConstruction κ) : DFAConstruction κ ⊕ Option DFA :=
  match s.unprocessedNodes with
  | [] => .inr (some s.dfa)
  | entry::unprocessed =>
    match appendTransitions source (source.transitions entry.key) { s with unprocessedNodes := unprocessed } with
    | none => .inr none
    | some s' => .inl (s'.setTransitions entry.dfaNodeId s.dfa.transitionRanges.length)

/-- None when the rounds run out, some none for a crash. -/
def construct (fuel : Nat) (root : η) : Option (Option DFA) :=
  match getOrCreateNode source root {} with
  | none => some none
  | some (_, s) => loop (step source) fuel s

end DFAConstruction

/-- What the keys stand for: states of an abstract partial automaton with actions. -/
structure NodeMeaning (η S : Type*) where
  valid : η → Prop
  state : η → S
  next : S → Nat → Option S
  actions : S → Set Nat

/-- The source computes the abstract automaton, whose states number at most the bound. -/
structure NodeMeaning.Lawful {η κ S : Type*} (meaning : NodeMeaning η S) (source : NodeSource η κ) (bound : Nat) :
    Prop where
  same_iff : ∀ q q', meaning.valid q → meaning.valid q' →
    (source.same (source.intern q) q' ↔ meaning.state q = meaning.state q')
  mem_actions : ∀ q, meaning.valid q → ∀ a, a ∈ source.actions q ↔ a ∈ meaning.actions (meaning.state q)
  storedLength_eq : ∀ q n l, meaning.valid q → source.storedLength n (source.actions q).length = some l →
    l = (source.actions q).length
  ordered : ∀ q, meaning.valid q → OrderedFrom 0 (source.transitions (source.intern q))
  last_le : ∀ q, meaning.valid q → ∀ range ∈ source.transitions (source.intern q), range.last ≤ 127
  valid_data : ∀ q, meaning.valid q → ∀ range ∈ source.transitions (source.intern q), meaning.valid range.data
  next_eq : ∀ q, meaning.valid q → ∀ c,
    (dataAt (source.transitions (source.intern q)) c).map meaning.state = meaning.next (meaning.state q) c
  length_le : ∀ states : List S, states.Nodup → (∀ x ∈ states, ∃ q, meaning.valid q ∧ meaning.state q = x) →
    states.length ≤ bound

namespace DFAConstruction
variable {η κ S : Type*} {source : NodeSource η κ} {sem : NodeMeaning η S} {bound : Nat} {root : S}

/-- Table and nodes represent distinct reachable states, each node with the actions of its state. -/
structure Represents (source : NodeSource η κ) (meaning : NodeMeaning η S) (root : S) (s : DFAConstruction κ)
    (states : List S) : Prop where
  nodup : states.Nodup
  reachable : ∀ x ∈ states, ∃ w, run meaning.next root w = some x
  table_length : s.table.length = states.length
  nodes_length : s.dfa.nodes.length = states.length
  entry : ∀ (i : Nat) (e : TableEntry κ), s.table[i]? = some e → e.dfaNodeId = i ∧
    ∃ q, meaning.valid q ∧ e.key = source.intern q ∧ states[i]? = some (meaning.state q)
  queued : ∀ e ∈ s.unprocessedNodes, e ∈ s.table
  owned : s.dfa.Owned
  root_eq : s.dfa.root = 0
  live : ∀ node ∈ s.dfa.nodes, node.isKilled = false
  actions : ∀ (i : Nat) (x : S), states[i]? = some x → ∀ a, a ∈ s.dfa.actionsOf i ↔ a ∈ meaning.actions x
  stored : ∀ i < s.dfa.nodes.length, ∃ length, (source.storedLength i length).isSome

/-- What the rounds only add to: the tables, nodes without transitions and the queue. -/
structure Grows (s s' : DFAConstruction κ) : Prop where
  nodes : ∃ fresh, s'.dfa.nodes = s.dfa.nodes ++ fresh ∧
    ∀ node ∈ fresh, node.transitionsStart + node.transitionsLength = 0
  ranges : s.dfa.transitionRanges <+: s'.dfa.transitionRanges
  destinations : s.dfa.transitionDestinations <+: s'.dfa.transitionDestinations
  queue : ∃ fresh, s'.unprocessedNodes = fresh ++ s.unprocessedNodes ∧
    s'.table.length = s.table.length + fresh.length ∧
    ∀ i, s.dfa.nodes.length ≤ i → i < s'.dfa.nodes.length → ∃ e ∈ fresh, e.dfaNodeId = i

namespace Grows
variable {s s' s'' : DFAConstruction κ}

theorem refl (s : DFAConstruction κ) : Grows s s :=
  ⟨⟨[],by simp,by simp⟩,prefix_rfl,prefix_rfl,⟨[],rfl,rfl,fun i h h' => by omega⟩⟩

private theorem trans (h : Grows s s') (h' : Grows s' s'') : Grows s s'' := by
  obtain ⟨ns,hn,hf⟩ := h.nodes
  obtain ⟨ns',hn',hf'⟩ := h'.nodes
  obtain ⟨q,hq,ht,hid⟩ := h.queue
  obtain ⟨q',hq',ht',hid'⟩ := h'.queue
  refine ⟨⟨ns ++ ns',by rw [hn',hn,append_assoc],?_⟩,h.ranges.trans h'.ranges,
    h.destinations.trans h'.destinations,⟨q' ++ q,by rw [hq',hq,append_assoc],?_,?_⟩⟩
  · intro node hnd
    exact (mem_append.1 hnd).elim (hf node) (hf' node)
  · rw [ht',ht,length_append]
    omega
  · intro i hfr hls
    rcases lt_or_ge i s'.dfa.nodes.length with hi | hi
    · obtain ⟨e,he,heq⟩ := hid i hfr hi
      exact ⟨e,mem_append_right _ he,heq⟩
    · obtain ⟨e,he,heq⟩ := hid' i hi hls
      exact ⟨e,mem_append_left _ he,heq⟩

/-- The nodes that were there keep their transitions. -/
theorem transitionsOf (h : Grows s s') (ho : s.dfa.Owned) {id : Nat} (hi : id < s.dfa.nodes.length) :
    s'.dfa.transitionsOf id = s.dfa.transitionsOf id := by
  obtain ⟨f,hn,-⟩ := h.nodes
  rw [DFA.transitionsOf,DFA.transitionsOf,DFA.node_mono ⟨f,hn.symm⟩ hi]
  exact DFANode.transitions_of_append h.ranges h.destinations ho.destinations_length
    (ho.transitions_inside _ (node_mem hi))

private theorem before (h : Grows s s') (ho : s.dfa.Owned) :
    ∀ node ∈ s'.dfa.nodes, node.transitionsStart + node.transitionsLength ≤ s.dfa.transitionRanges.length := by
  obtain ⟨f,hn,hf⟩ := h.nodes
  intro node hnd
  rw [hn] at hnd
  rcases mem_append.1 hnd with hol | hnw
  · exact ho.transitions_inside node hol
  · rw [hf node hnw]
    exact zero_le _

end Grows

variable {s s' : DFAConstruction κ} {states : List S} {query : η} {ranges : List (MutableRange η)}

theorem Represents.valid_of_mem
    (h : Represents source sem root s states) : ∀ x ∈ states, ∃ q, sem.valid q ∧ sem.state q = x := by
  intro x hx
  obtain ⟨i,hi,rfl⟩ := getElem_of_mem hx
  obtain ⟨-,q,hq,-,hs⟩ := h.entry i _ (getElem?_eq_getElem (by rw [h.table_length]; exact hi))
  rw [getElem?_eq_getElem hi] at hs
  exact ⟨q,hq,(Option.some.inj hs).symm⟩

theorem Represents.length_le (hl : sem.Lawful source bound)
    (h : Represents source sem root s states) : states.length ≤ bound := hl.length_le states h.nodup h.valid_of_mem

variable {entry : TableEntry κ}

section
variable (hl : sem.Lawful source bound) (h : Represents source sem root s states) (hqr : sem.valid query)
include hl h hqr

theorem Represents.of_find (hf : s.table.find? (fun entry => source.same entry.key query) = some entry) :
    states[entry.dfaNodeId]? = some (sem.state query) := by
  obtain ⟨i,hi,he⟩ := getElem_of_mem (mem_of_find?_eq_some hf)
  obtain ⟨hid,q,hq,hk,hs⟩ := h.entry i entry (by rw [getElem?_eq_getElem hi,he])
  have hsm := find?_some hf
  rw [hk] at hsm
  rw [hid,hs,(hl.same_iff q query hq hqr).1 hsm]

theorem Represents.not_mem_of_find (hf : s.table.find? (fun entry => source.same entry.key query) = none) :
    sem.state query ∉ states := by
  intro hm
  obtain ⟨i,hi,hx⟩ := getElem_of_mem hm
  have hi' : i < s.table.length := by rw [h.table_length]; exact hi
  obtain ⟨-,q,hq,hk,hs⟩ := h.entry i _ (getElem?_eq_getElem hi')
  rw [getElem?_eq_getElem hi,hx] at hs
  have hn := find?_eq_none.1 hf _ (getElem_mem hi')
  rw [hk] at hn
  exact hn ((hl.same_iff q query hq hqr).2 (Option.some.inj hs).symm)

theorem Represents.lt_bound (hn : sem.state query ∉ states) : states.length < bound := by
  refine hl.length_le (sem.state query :: states) (nodup_cons.2 ⟨hn,h.nodup⟩) ?_
  exact forall_mem_cons.2 ⟨⟨query,hqr,rfl⟩,h.valid_of_mem⟩

theorem Represents.create (hnw : sem.state query ∉ states) (hr : ∃ w, run sem.next root w = some (sem.state query))
    (hst : (source.storedLength s.dfa.nodes.length (source.actions query).length).isSome) :
    Represents source sem root (createNode source query (source.actions query).length s)
      (states ++ [sem.state query]) where
  nodup := by
    refine nodup_append.2 ⟨h.nodup,nodup_singleton _,?_⟩
    intro x hx y hy heq
    rw [mem_singleton] at hy
    exact hnw (hy ▸ heq ▸ hx)
  reachable := by
    intro x hx
    rcases mem_append.1 hx with ho | hls
    · exact h.reachable x ho
    · rw [mem_singleton.1 hls]
      exact hr
  table_length := by simp [createNode,h.table_length]
  nodes_length := by simp [createNode,h.nodes_length]
  entry := by
    intro i e he
    rcases getElem?_concat_cases he with ho | ⟨rfl,rfl⟩
    · obtain ⟨hid,q,hq,hk,hs⟩ := h.entry i e ho
      exact ⟨hid,q,hq,hk,getElem?_mono (prefix_append _ _) hs⟩
    · refine ⟨h.nodes_length.trans h.table_length.symm,query,hqr,rfl,?_⟩
      rw [h.table_length,getElem?_concat_length]
  queued := by
    intro e he
    rcases mem_cons.1 he with rfl | ho
    · exact mem_append_right _ (mem_singleton.2 rfl)
    · exact mem_append_left _ (h.queued e ho)
  owned := h.owned.append_node (source.actions query)
  root_eq := h.root_eq
  live := by
    intro node hn
    rcases mem_append.1 hn with ho | hls
    · exact h.live node ho
    · rw [mem_singleton.1 hls]
      rfl
  actions := by
    intro i x hx a
    rcases getElem?_concat_cases hx with ho | ⟨rfl,rfl⟩
    · have hi : i < s.dfa.nodes.length := by
        rw [h.nodes_length]
        exact (List.getElem?_eq_some_iff.1 ho).1
      rw [← h.actions i x ho,actionsOf,actionsOf,createNode,node_mono (prefix_append _ _) hi,
        DFANode.actions_of_append (prefix_append _ _) (h.owned.actions_inside _ (node_mem hi))]
    · rw [← hl.mem_actions query hqr,← h.nodes_length,actionsOf,createNode,
        node_of_getElem? getElem?_concat_length]
      simp [DFANode.actions,DFANode.setActions,slice]
  stored := by
    intro i hi
    rw [createNode,length_append,length_singleton] at hi
    rcases Nat.lt_succ_iff_lt_or_eq.1 hi with ho | rfl
    · exact h.stored i ho
    · exact ⟨_,hst⟩

end

private theorem createNode_grows (query : η) (l : Nat) (s : DFAConstruction κ) : Grows s (createNode source query l s) where
  nodes := ⟨_,rfl,fun node hn => by rw [mem_singleton.1 hn]; rfl⟩
  ranges := prefix_rfl
  destinations := prefix_rfl
  queue := by
    refine ⟨[_],rfl,by simp [createNode],?_⟩
    intro i hf hls
    simp only [createNode,length_append,length_singleton] at hls
    exact ⟨_,mem_singleton.2 rfl,by dsimp only; omega⟩

/-- The program crashes only on a valid query whose actions cannot be stored. -/
def Crashes (source : NodeSource η κ) (meaning : NodeMeaning η S) (bound : Nat) : Prop :=
  ∃ query n, meaning.valid query ∧ n < bound ∧ source.storedLength n (source.actions query).length = none

/-- The node of a query is found or created. -/
theorem getOrCreateNode_spec (hl : sem.Lawful source bound)
    (h : Represents source sem root s states) (hqr : sem.valid query)
    (hr : ∃ w, run sem.next root w = some (sem.state query)) :
    (getOrCreateNode source query s = none ∧ Crashes source sem bound) ∨
      ∃ t s' states', getOrCreateNode source query s = some (t, s') ∧ states <+: states' ∧
        Represents source sem root s' states' ∧ Grows s s' ∧ states'[t]? = some (sem.state query) ∧
        s'.dfa.transitionRanges = s.dfa.transitionRanges ∧
        s'.dfa.transitionDestinations = s.dfa.transitionDestinations := by
  unfold getOrCreateNode
  cases hf : s.table.find? fun entry => source.same entry.key query with
  | some entry =>
    exact .inr ⟨entry.dfaNodeId,s,states,rfl,prefix_rfl,h,Grows.refl s,h.of_find hl hqr hf,rfl,rfl⟩
  | none =>
    have hn := h.not_mem_of_find hl hqr hf
    cases hs : source.storedLength s.dfa.nodes.length (source.actions query).length with
    | none =>
      have hb := h.lt_bound hl hqr hn
      rw [← h.nodes_length] at hb
      exact .inl ⟨rfl,query,s.dfa.nodes.length,hqr,hb,hs⟩
    | some l =>
      obtain rfl := hl.storedLength_eq query _ _ hqr hs
      have hc := h.create hl hqr hn hr (by rw [hs]; rfl)
      refine .inr ⟨_,_,_,rfl,prefix_append _ _,hc,createNode_grows query _ s,?_,rfl,rfl⟩
      rw [h.nodes_length,getElem?_concat_length]

theorem Represents.appendTransition
    (h : Represents source sem root s states) (r : MutableRange η) (t : Nat) :
    Represents source sem root (appendTransition r t s) states :=
  { h with
    owned := by
      have ho := h.owned.append_tables [] [⟨r.first,r.last⟩] [t] rfl
      rw [append_nil] at ho
      exact ho }

private theorem appendTransition_grows (r : MutableRange η) (t : Nat) (s : DFAConstruction κ) :
    Grows s (appendTransition r t s) :=
  ⟨⟨[],by simp [appendTransition],by simp⟩,prefix_append _ _,prefix_append _ _,
    ⟨[],rfl,rfl,fun i h h' => absurd h' (not_lt.2 h)⟩⟩

theorem appendTransitions_spec (hl : sem.Lawful source bound) (hr : ∀ r ∈ ranges, sem.valid r.data ∧
      ∃ w, run sem.next root w = some (sem.state r.data))
    (h : Represents source sem root s states) :
    (appendTransitions source ranges s = none ∧ Crashes source sem bound) ∨
      ∃ s' states' targets, appendTransitions source ranges s = some s' ∧ states <+: states' ∧
        Represents source sem root s' states' ∧ Grows s s' ∧
        s'.dfa.transitionRanges = s.dfa.transitionRanges ++ ranges.map (fun r => ⟨r.first,r.last⟩) ∧
        s'.dfa.transitionDestinations = s.dfa.transitionDestinations ++ targets ∧
        List.Forall₂ (fun r (t : Nat) => states'[t]? = some (sem.state r.data)) ranges targets := by
  induction ranges generalizing s states with
  | nil => exact .inr ⟨s,states,[],rfl,prefix_rfl,h,Grows.refl s,by simp,by simp,.nil⟩
  | cons r ranges ih =>
    obtain ⟨⟨hv,hrc⟩,hrs⟩ := forall_mem_cons.1 hr
    rw [appendTransitions]
    obtain ⟨hn,hc⟩ | ⟨t,s₁,states₁,heq,he,h₁,hg,htg,hr₁,hd₁⟩ :=
      getOrCreateNode_spec hl h hv hrc
    · rw [hn]
      exact .inl ⟨rfl,hc⟩
    · rw [heq]
      obtain ⟨hn,hc⟩ | ⟨s₂,states₂,targets,heq₂,he₂,h₂,hg₂,hr₂,hd₂,ht⟩ :=
        ih hrs (h₁.appendTransition r t)
      · exact .inl ⟨hn,hc⟩
      · refine .inr ⟨s₂,states₂,t::targets,heq₂,he.trans he₂,h₂,
          (hg.trans (appendTransition_grows r t s₁)).trans hg₂,?_,?_,
          .cons (getElem?_mono he₂ htg) ht⟩
        · rw [hr₂,map_cons,← hr₁,DFAConstruction.appendTransition,append_assoc]
          rfl
        · rw [hd₂,← hd₁,DFAConstruction.appendTransition,append_assoc]
          rfl

/-- A node's transitions are those of its key, with the nodes of the data as targets. -/
def Processed (source : NodeSource η κ) (meaning : NodeMeaning η S) (dfa : DFA) (states : List S) (id : Nat) : Prop :=
  ∃ q, meaning.valid q ∧ states[id]? = some (meaning.state q) ∧
    SameRanges (fun (target : Nat) data => states[target]? = some (meaning.state data)) (dfa.transitionsOf id)
      (source.transitions (source.intern q))

variable {dfa : DFA} {id : Nat}

theorem Processed.mono {dfa' : DFA} {states' : List S} (h : Processed source sem dfa states id)
    (he : states <+: states') (ht : dfa'.transitionsOf id = dfa.transitionsOf id) :
    Processed source sem dfa' states' id := by
  obtain ⟨q,hq,hs,hsm⟩ := h
  refine ⟨q,hq,getElem?_mono he hs,?_⟩
  rw [ht]
  exact hsm.mono fun t d htg => getElem?_mono he htg

theorem Represents.setTransitions
    (h : Represents source sem root s' states) (hg : Grows s s') (ho : s.dfa.Owned) (id : Nat) :
    Represents source sem root (s'.setTransitions id s.dfa.transitionRanges.length) states :=
  { h with
    nodes_length := by
      rw [← h.nodes_length]
      exact length_modify _ _ _
    owned := by
      have hle := hg.ranges.length_le
      refine h.owned.set_transitions id (hg.before ho) ?_
      omega
    live := by
      intro node hn
      obtain ⟨o,hol,rfl | rfl⟩ := mem_modify hn
      · exact h.live node hol
      · exact h.live o hol
    actions := by
      intro i x hx a
      rw [← h.actions i x hx]
      have hi : i < s'.dfa.nodes.length := by
        rw [h.nodes_length]
        exact (List.getElem?_eq_some_iff.1 hx).1
      unfold DFAConstruction.setTransitions actionsOf
      by_cases hid : id = i
      · subst hid
        rw [node_modifyNode_self hi]
        rfl
      · rw [node_modifyNode_of_ne hid]
        rfl
    stored := by
      intro i hi
      exact h.stored i (hi.trans_eq (length_modify _ _ _)) }

private theorem sameRanges_zipWith {R : Nat → η → Prop} {ts : List Nat}
    (h : List.Forall₂ (fun r t => R t r.data) ranges ts) :
    SameRanges R (zipWith (fun (r : CharRange) t => ⟨r.first,r.last,t⟩)
      (ranges.map fun r => ⟨r.first,r.last⟩) ts) ranges := by
  induction h with
  | nil => exact .nil
  | cons hdt _ ih => exact .cons ⟨rfl,rfl,hdt⟩ ih

private theorem transitionsOf_setTransitions {targets : List Nat}
    (hi : id < s'.dfa.nodes.length) (hln : s.dfa.transitionDestinations.length = s.dfa.transitionRanges.length)
    (hr : s'.dfa.transitionRanges = s.dfa.transitionRanges ++ ranges.map (fun r => ⟨r.first,r.last⟩))
    (ht : s'.dfa.transitionDestinations = s.dfa.transitionDestinations ++ targets)
    (hs : targets.length = ranges.length) (hb : ranges.length ≤ 128) :
    (s'.setTransitions id s.dfa.transitionRanges.length).dfa.transitionsOf id =
      zipWith (fun (r : CharRange) t => ⟨r.first,r.last,t⟩)
        (ranges.map fun r => ⟨r.first,r.last⟩) targets := by
  have hc : (s'.dfa.transitionRanges.length-s.dfa.transitionRanges.length)%2^8 = ranges.length := by
    rw [hr,length_append,length_map,Nat.add_sub_cancel_left]
    exact mod_eq_of_lt (by omega)
  unfold transitionsOf DFAConstruction.setTransitions
  rw [node_modifyNode_self hi]
  simp only [DFANode.transitions,DFANode.setTransitions,modifyNode,hc]
  rw [hr,ht]
  congr 1
  · simp [slice]
  · rw [← hln]
    simp [slice,hs]

/-- The nodes without a queue entry are processed. -/
def Invariant (source : NodeSource η κ) (meaning : NodeMeaning η S) (root : S) (s : DFAConstruction κ) : Prop :=
  ∃ states, Represents source meaning root s states ∧ states[0]? = some root ∧
    ∀ i < states.length, (∀ e ∈ s.unprocessedNodes, e.dfaNodeId ≠ i) → Processed source meaning s.dfa states i

/-- The entry that a round takes: its transitions lead to valid keys of reachable states. -/
theorem Represents.pop (hl : sem.Lawful source bound)
    (h : Represents source sem root s states) {u : List (TableEntry κ)}
    (hqu : s.unprocessedNodes = entry::u) :
    Represents source sem root { s with unprocessedNodes := u } states ∧
      ∃ q, sem.valid q ∧ entry.key = source.intern q ∧ states[entry.dfaNodeId]? = some (sem.state q) ∧
        ∀ r ∈ source.transitions entry.key, sem.valid r.data ∧
          ∃ w, run sem.next root w = some (sem.state r.data) := by
  obtain ⟨i,hi,hen⟩ := getElem_of_mem (h.queued entry (by rw [hqu]; exact mem_cons_self))
  obtain ⟨hid,q,hq,hk,hs⟩ := h.entry i entry (by rw [getElem?_eq_getElem hi,hen])
  obtain ⟨w,hw⟩ := h.reachable _ (mem_of_getElem? hs)
  refine ⟨{ h with queued := ?_ },q,hq,hk,by rw [hid]; exact hs,?_⟩
  · intro e he
    exact h.queued e (by rw [hqu]; exact mem_cons_of_mem _ he)
  · rw [hk]
    intro r hr
    refine ⟨hl.valid_data q hq r hr,w ++ [r.first],?_⟩
    have ho := hl.ordered q hq
    rw [run_append_singleton hw,← hl.next_eq q hq,ho.dataAt_of_mem hr le_rfl (ho.first_le_last hr)]
    rfl

/-- One round keeps the invariant, and processes an entry or creates nodes. -/
theorem step_spec (hl : sem.Lawful source bound) (h : Invariant source sem root s)
    (hst : step source s = .inl s') : Invariant source sem root s' ∧
      2*(bound-s'.table.length) + s'.unprocessedNodes.length <
        2*(bound-s.table.length) + s.unprocessedNodes.length := by
  obtain ⟨states,hrp,hrt,hp⟩ := h
  unfold step at hst
  cases hqu : s.unprocessedNodes with
  | nil =>
    rw [hqu] at hst
    cases hst
  | cons entry u =>
    rw [hqu] at hst hp
    dsimp only at hst
    obtain ⟨hpp,q,hq,hk,hs,hrn⟩ := hrp.pop hl hqu
    obtain ⟨hn,-⟩ | ⟨s₁,states₁,ts,hsm,hex,hrp₁,hg,hr,hd,ht⟩ :=
      appendTransitions_spec hl hrn hpp
    · rw [hn] at hst
      cases hst
    · rw [hsm] at hst
      cases hst
      obtain ⟨f,hf,htb,hnw⟩ := hg.queue
      have hrp' := hrp₁.setTransitions hg hrp.owned entry.dfaNodeId
      refine ⟨⟨states₁,hrp',getElem?_mono hex hrt,?_⟩,?_⟩
      · intro j hj hu
        change ∀ e ∈ s₁.unprocessedNodes, e.dfaNodeId ≠ j at hu
        rw [hf] at hu
        by_cases hsl : entry.dfaNodeId = j
        · subst hsl
          refine ⟨q,hq,getElem?_mono hex hs,?_⟩
          have hb := (hl.ordered q hq).length_le (hl.last_le q hq)
          rw [← hk] at hb ⊢
          rw [transitionsOf_setTransitions (by rw [hrp₁.nodes_length]; exact hj) hrp.owned.destinations_length hr hd
            ht.length_eq.symm hb]
          exact sameRanges_zipWith ht
        · have ho : j < states.length := by
            by_contra hge
            obtain ⟨e,he,heq⟩ := hnw j (by rw [hpp.nodes_length]; omega) (by rw [hrp₁.nodes_length]; exact hj)
            exact hu e (mem_append_left _ he) heq
          refine (hp j ho ?_).mono hex ?_
          · intro e he
            rcases mem_cons.1 he with rfl | hrs
            · exact hsl
            · exact hu e (mem_append_right _ hrs)
          · rw [← hg.transitionsOf hpp.owned (by rw [hpp.nodes_length]; exact ho)]
            unfold transitionsOf DFAConstruction.setTransitions
            rw [node_modifyNode_of_ne hsl]
            rfl
      · have hb := hrp₁.length_le hl
        rw [← hrp₁.table_length] at hb
        change 2*(bound-s₁.table.length) + s₁.unprocessedNodes.length < _
        rw [hf,length_append,length_cons]
        dsimp only at htb ⊢
        omega

/-- The output behaves like the abstract automaton, and is well formed with every node live and reachable. -/
structure Constructs (meaning : NodeMeaning η S) (root : S) (bound : Nat) (dfa : DFA) : Prop where
  wellFormed : dfa.WellFormed
  live : ∀ node ∈ dfa.nodes, node.isKilled = false
  nodes_le : dfa.nodes.length ≤ bound
  reachable : ∀ id < dfa.nodes.length, ∃ w, dfa.reach w = some id
  reach_rel : ∀ w, Option.Rel (fun id x => id < dfa.nodes.length ∧ ∀ a, a ∈ dfa.actionsOf id ↔ a ∈ meaning.actions x)
    (dfa.reach w) (run meaning.next root w)

private theorem next_rel (hl : sem.Lawful source bound) {x : S}
    (h : Processed source sem dfa states id) (hx : states[id]? = some x) (c : Nat) :
    Option.Rel (fun (t : Nat) y => states[t]? = some y) (dfa.next id c) (sem.next x c) := by
  obtain ⟨q,hq,hs,hsm⟩ := h
  obtain rfl := Option.some.inj (hx.symm.trans hs)
  rw [← hl.next_eq q hq]
  have hr := hsm.dataAt_rel c
  unfold DFA.next
  generalize dataAt (dfa.transitionsOf id) c = t at hr ⊢
  generalize dataAt (source.transitions (source.intern q)) c = d at hr ⊢
  cases hr with
  | some h => exact .some h
  | none => exact .none

private theorem transitionsOf_default (h : dfa.nodes.length ≤ id) : dfa.transitionsOf id = [] := by
  rw [transitionsOf,node,getD_eq_default _ _ h]
  simp [DFANode.transitions,slice]

/-- When the queue is empty the output is the abstract automaton. -/
theorem Invariant.constructs (hl : sem.Lawful source bound)
    (h : Invariant source sem root s) (hem : s.unprocessedNodes = []) :
    Constructs sem root bound s.dfa := by
  obtain ⟨states,hrp,hrt,hp⟩ := h
  have ha : ∀ i < s.dfa.nodes.length, Processed source sem s.dfa states i := by
    intro i hi
    rw [hrp.nodes_length] at hi
    refine hp i hi ?_
    rw [hem]
    exact fun e he => absurd he not_mem_nil
  have hlt : ∀ {i : Nat} {x : S}, states[i]? = some x → i < s.dfa.nodes.length := by
    intro i x hx
    rw [hrp.nodes_length]
    exact (List.getElem?_eq_some_iff.1 hx).1
  have hsm : ∀ w, Option.Rel (fun (id : Nat) x => states[id]? = some x) (s.dfa.reach w) (run sem.next root w) := by
    intro w
    refine run_rel (fun _ => True) ?_ (by rw [hrp.root_eq]; exact hrt) (fun _ _ => trivial)
    intro id x c hx _
    exact next_rel hl (ha id (hlt hx)) hx c
  have hc : ∀ id, Processed source sem s.dfa states id ∨ s.dfa.transitionsOf id = [] := by
    intro id
    rcases lt_or_ge id s.dfa.nodes.length with hid | hid
    · exact .inl (ha id hid)
    · exact .inr (transitionsOf_default hid)
  refine ⟨⟨hrp.owned,?_,?_,?_,?_⟩,hrp.live,?_,?_,?_⟩
  · rw [hrp.root_eq]
    exact hlt hrt
  · intro id
    rcases hc id with ⟨q,hq,-,hs⟩ | hn
    · exact hs.ordered (hl.ordered q hq)
    · rw [hn]
      trivial
  · intro id r hrn
    rcases hc id with ⟨q,hq,-,hs⟩ | hn
    · obtain ⟨r',hrn',-,hls,-⟩ := hs.exists_of_mem hrn
      rw [hls]
      exact hl.last_le q hq r' hrn'
    · rw [hn] at hrn
      cases hrn
  · intro id r hrn
    rcases hc id with ⟨q,hq,-,hs⟩ | hn
    · obtain ⟨r',-,-,-,ht⟩ := hs.exists_of_mem hrn
      exact hlt ht
    · rw [hn] at hrn
      cases hrn
  · rw [hrp.nodes_length]
    exact hrp.length_le hl
  · intro id hid
    rw [hrp.nodes_length] at hid
    obtain ⟨w,hw⟩ := hrp.reachable states[id] (getElem_mem hid)
    have hrl := hsm w
    rw [hw] at hrl
    cases hr : s.dfa.reach w with
    | none =>
      rw [hr] at hrl
      cases hrl
    | some id' =>
      rw [hr] at hrl
      cases hrl with
      | some hx =>
        obtain ⟨hid',heq⟩ := List.getElem?_eq_some_iff.1 hx
        exact ⟨w,hr.trans (congrArg some (hrp.nodup.getElem_inj_iff.1 heq))⟩
  · intro w
    exact rel_mono (fun id x hx => ⟨hlt hx,hrp.actions id x hx⟩) (hsm w)

theorem represents_empty : Represents source sem root {} [] :=
  ⟨nodup_nil,by simp,rfl,rfl,by simp,by simp,⟨rfl,by simp,by simp,.nil,.nil⟩,rfl,by simp,by simp,by simp⟩

section
variable (hl : sem.Lawful source bound)
include hl

private theorem invariant_initial (hqr : sem.valid query)
    (hs : (source.storedLength 0 (source.actions query).length).isSome) :
    Invariant source sem (sem.state query) (createNode source query (source.actions query).length {}) := by
  refine ⟨_,represents_empty.create hl hqr not_mem_nil ⟨[],rfl⟩ hs,rfl,?_⟩
  intro i hi hu
  obtain rfl : i = 0 := by
    rw [nil_append,length_singleton] at hi
    omega
  exact absurd rfl (hu ⟨source.intern query,0⟩ mem_cons_self)

/-- A round that returns has finished, or crashed on a key that cannot be stored. -/
theorem step_return {r : Option DFA}
    (h : Invariant source sem root s) (hs : step source s = .inr r) :
    (∀ dfa, r = some dfa → Constructs sem root bound dfa ∧
      ∀ i < dfa.nodes.length, ∃ l, (source.storedLength i l).isSome) ∧
      (r = none → Crashes source sem bound) := by
  unfold step at hs
  cases hq : s.unprocessedNodes with
  | nil =>
    rw [hq] at hs
    cases hs
    have hc := h.constructs hl hq
    obtain ⟨states,hrp,-,-⟩ := h
    refine ⟨?_,nofun⟩
    rintro dfa ⟨⟩
    exact ⟨hc,hrp.stored⟩
  | cons entry u =>
    obtain ⟨states,hrp,-,-⟩ := h
    rw [hq] at hs
    dsimp only at hs
    obtain ⟨hp,-,-,-,-,hr⟩ := hrp.pop hl hq
    obtain ⟨hn,hcr⟩ | ⟨s₁,-,-,hsm,-⟩ := appendTransitions_spec hl hr hp
    · rw [hn] at hs
      cases hs
      exact ⟨nofun,fun _ => hcr⟩
    · rw [hsm] at hs
      cases hs

/-- With enough rounds the construction returns the abstract automaton, unless the program crashes. -/
theorem construct_spec (hqr : sem.valid query) (f : Nat)
    (hf : 2*bound ≤ f) : ∃ rs, construct source f query = some rs ∧
      (∀ dfa, rs = some dfa → Constructs sem (sem.state query) bound dfa ∧
        ∀ i < dfa.nodes.length, ∃ l, (source.storedLength i l).isSome) ∧
      (rs = none → Crashes source sem bound) := by
  have he : Represents source sem (sem.state query) {} [] := represents_empty
  have hp : 0 < bound := he.lt_bound hl hqr not_mem_nil
  unfold construct getOrCreateNode
  cases hst : source.storedLength 0 (source.actions query).length with
  | none =>
    exact ⟨none,by simp,nofun,fun _ => ⟨query,0,hqr,hp,hst⟩⟩
  | some l =>
    obtain rfl := hl.storedLength_eq query _ _ hqr hst
    have hi := invariant_initial hl hqr (by rw [hst]; rfl)
    apply loop_spec (fun s : DFAConstruction κ => 2*(bound-s.table.length) + s.unprocessedNodes.length)
      (fun s s' h hs => step_spec hl h hs) (fun s r h hs => step_return hl h hs) f _ hi
    simp only [createNode,length_append,length_nil,length_cons]
    omega

end

end DFAConstruction
end WebKit.ContentExtensions
