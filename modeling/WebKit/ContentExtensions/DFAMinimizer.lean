import WebKit.Base.HashMap
import WebKit.ContentExtensions.GraphFlattening

/-! Minimizing in place: nodes are partitioned by actions, refined by transitions, and each set keeps its first node. -/
namespace WebKit.ContentExtensions
open WebKit.Base MutableRangeList FullGraphPartition List ContentExtensions.Partition HashMap Option
  ContentExtensions.DFA Nat

namespace DFANode

def hasActions (node : DFANode) : Bool := node.actionsLength ≠ 0

end DFANode

/-- Mark a node as killed and overwrite what it owns with -1. -/
def DFA.kill (dfa : DFA) (id : Nat) : DFA :=
  let node := dfa.node id
  { dfa with
    nodes := dfa.nodes.modify id fun _ => { isKilled := true }
    transitionRanges := mapSlice (fun _ => ⟨255,255⟩) dfa.transitionRanges node.transitionsStart
      (node.transitionsStart+node.transitionsLength)
    transitionDestinations := mapSlice (fun _ => 2^32 - 1) dfa.transitionDestinations node.transitionsStart
      (node.transitionsStart+node.transitionsLength)
    actions := mapSlice (fun _ => 2^64 - 1) dfa.actions node.actionsStart (node.actionsStart+node.actionsLength) }

/-- The actions that a node leads to on a word; none when the run is stuck. -/
def DFA.behaviour (dfa : DFA) (id : Nat) (w : List Nat) : Option (List Nat) := (dfa.runFrom id w).map dfa.actionsOf

/-- Some word tells two nodes apart: only one side is stuck, or the actions differ. -/
def DFA.Distinguished (dfa : DFA) (p q : Nat) : Prop :=
  ∃ w : List Nat, (∀ c ∈ w, c ≤ 127) ∧ dfa.behaviour p w ≠ dfa.behaviour q w

namespace DFAMinimizer

/-- The nodes with actions, by their action sequence. -/
def finalStates (dfa : DFA) : List (List Nat × List Nat) :=
  group dfa.actionsOf ((range dfa.nodes.length).filter fun i => (dfa.node i).hasActions)

def replaceNode (g : FullGraphPartition) (s : DFA × (Nat → Nat)) (i : Nat) : DFA × (Nat → Nat) :=
  let replacement := g.nodeReplacement i
  if i ≠ replacement then (s.1.kill i, Function.update s.2 i replacement) else s

def relocateTargets (relocationVector : Nat → Nat) (dfa : DFA) (node : DFANode) : DFA :=
  if node.isKilled then dfa
  else
    { dfa with
      transitionDestinations := mapSlice relocationVector dfa.transitionDestinations node.transitionsStart
        (node.transitionsStart+node.transitionsLength) }

/-- Keep the first node of every set. -/
def relocate (g : FullGraphPartition) (dfa : DFA) : DFA :=
  let (killed, relocationVector) := (range dfa.nodes.length).foldl (replaceNode g) (dfa, id)
  let rooted := { killed with root := relocationVector killed.root }
  rooted.nodes.foldl (relocateTargets relocationVector) rooted

/-- Final states are iterated in some order; fuel bounds the splitting. -/
def minimize (order : IterationOrder (List Nat × List Nat)) (fuel : Nat) (dfa : DFA) : Option DFA := do
  let byActions := (order.visit (finalStates dfa)).foldl
    (fun g slot => (slot.2.foldl markNode g).refinePartitions) (ofDFA dfa)
  let g ← byActions.splitByUniqueTransitions fuel
  some (relocate g dfa)

end DFAMinimizer

namespace DFA.Owned
variable {dfa : DFA}

theorem disjoint_of_ne (h : dfa.Owned) {i j : Nat} (hij : i ≠ j) :
    (dfa.node i).TransitionsDisjoint (dfa.node j) ∧ (dfa.node i).ActionsDisjoint (dfa.node j) := by
  have hdf : ∀ k, dfa.nodes.length ≤ k → dfa.node k = {} := by
    intro k hk
    rw [node,getD_eq_default _ _ hk]
  rcases lt_or_ge i dfa.nodes.length with hi | hi
  · rcases lt_or_ge j dfa.nodes.length with hj | hj
    · have ht := pairwise_iff_getElem.1 h.transitions_disjoint
      have ha := pairwise_iff_getElem.1 h.actions_disjoint
      rw [node,node,getD_eq_getElem _ _ hi,getD_eq_getElem _ _ hj]
      rcases lt_or_gt_of_ne hij with hl | hgt
      · exact ⟨ht i j hi hj hl,ha i j hi hj hl⟩
      · exact ⟨fun k h1 h2 h3 => ht j i hj hi hgt k h3.1 h3.2 ⟨h1,h2⟩,
          fun k h1 h2 h3 => ha j i hj hi hgt k h3.1 h3.2 ⟨h1,h2⟩⟩
    · rw [hdf j hj]
      exact ⟨fun k _ _ h3 => not_lt_zero k h3.2,fun k _ _ h3 => not_lt_zero k h3.2⟩
  · rw [hdf i hi]
    exact ⟨fun k _ h2 _ => not_lt_zero k h2,fun k _ h2 _ => not_lt_zero k h2⟩

private theorem kill (h : dfa.Owned) (id : Nat) : (dfa.kill id).Owned where
  destinations_length := by
    unfold DFA.kill
    rw [length_mapSlice,length_mapSlice,h.destinations_length]
  transitions_inside := by
    intro node hn
    unfold DFA.kill
    rw [length_mapSlice]
    obtain ⟨ol,ho,rfl | rfl⟩ := mem_modify hn
    · exact h.transitions_inside _ ho
    · exact zero_le _
  actions_inside := by
    intro node hn
    unfold DFA.kill
    rw [length_mapSlice]
    obtain ⟨ol,ho,rfl | rfl⟩ := mem_modify hn
    · exact h.actions_inside _ ho
    · exact zero_le _
  transitions_disjoint := by
    apply pairwise_modify h.transitions_disjoint
    intro node _ o _ _
    exact ⟨fun k _ hk _ => not_lt_zero k hk,fun k _ _ hk => not_lt_zero k hk.2⟩
  actions_disjoint := by
    apply pairwise_modify h.actions_disjoint
    intro node _ o _ _
    exact ⟨fun k _ hk _ => not_lt_zero k hk,fun k _ _ hk => not_lt_zero k hk.2⟩

end DFA.Owned

namespace DFA
variable {dfa : DFA}

private theorem node_kill_self {id : Nat} (hi : id < dfa.nodes.length) : (dfa.kill id).node id = { isKilled := true } :=
  node_modifyNode_self hi fun _ => { isKilled := true }

theorem node_kill_of_ne {id other : Nat} (hn : id ≠ other) : (dfa.kill id).node other = dfa.node other :=
  node_modifyNode_of_ne hn fun _ => { isKilled := true }

theorem Owned.kill_of_ne (h : dfa.Owned) {id other : Nat} (hn : id ≠ other) :
    (dfa.kill id).actionsOf other = dfa.actionsOf other ∧ (dfa.kill id).transitionsOf other = dfa.transitionsOf other := by
  obtain ⟨ht,ha⟩ := h.disjoint_of_ne hn.symm
  unfold actionsOf transitionsOf
  rw [node_kill_of_ne hn]
  constructor
  · exact slice_mapSlice_of_disjoint _ _ ha
  · unfold DFANode.transitions DFA.kill
    rw [slice_mapSlice_of_disjoint _ _ ht,slice_mapSlice_of_disjoint _ _ ht]

end DFA

namespace DFAMinimizer
variable {dfa : DFA}

/-- The automaton while nodes with another replacement are killed, up to an index. -/
structure Killing (dfa : DFA) (replacement : Nat → Nat) (m : Nat) (s : DFA × (Nat → Nat)) : Prop where
  owned : s.1.Owned
  length_eq : s.1.nodes.length = dfa.nodes.length
  root_eq : s.1.root = dfa.root
  relocation : ∀ i, s.2 i = if i < m then replacement i else i
  killed : ∀ i < m, i ≠ replacement i → s.1.node i = { isKilled := true }
  alive : ∀ i, ¬(i < m ∧ i ≠ replacement i) → s.1.node i = dfa.node i ∧ s.1.actionsOf i = dfa.actionsOf i ∧
    s.1.transitionsOf i = dfa.transitionsOf i

variable {g : FullGraphPartition} {p : Nat}

theorem Killing.replaceNode {m : Nat} {s : DFA × (Nat → Nat)}
    (h : Killing dfa g.nodeReplacement m s) (hm : m < dfa.nodes.length) :
    Killing dfa g.nodeReplacement (m+1) (DFAMinimizer.replaceNode g s m) := by
  unfold DFAMinimizer.replaceNode
  by_cases hs : m = g.nodeReplacement m
  · rw [if_neg (not_not_intro hs)]
    refine ⟨h.owned,h.length_eq,h.root_eq,?_,?_,?_⟩
    · intro i
      rw [h.relocation]
      rcases lt_trichotomy i m with hl | rfl | hgt
      · rw [if_pos hl,if_pos (by omega)]
      · rw [if_neg (lt_irrefl i),if_pos (lt_succ_self i),← hs]
      · rw [if_neg (by omega),if_neg (by omega)]
    · intro i hi hne
      refine h.killed i ?_ hne
      rcases Nat.lt_succ_iff_lt_or_eq.1 hi with hl | rfl
      · exact hl
      · exact absurd hs hne
    · exact fun i hi => h.alive i fun hl => hi ⟨lt_succ_of_lt hl.1,hl.2⟩
  · rw [if_pos hs]
    refine ⟨h.owned.kill m,?_,h.root_eq,?_,?_,?_⟩
    · exact (length_modify _ _ _).trans h.length_eq
    · intro i
      dsimp only
      rw [Function.update_apply,h.relocation]
      rcases lt_trichotomy i m with hl | rfl | hgt
      · rw [if_neg (by omega),if_pos hl,if_pos (by omega)]
      · rw [if_pos rfl,if_pos (lt_succ_self i)]
      · rw [if_neg (by omega),if_neg (by omega),if_neg (by omega)]
    · intro i hi hne
      by_cases him : m = i
      · subst him
        exact node_kill_self (by rw [h.length_eq]; exact hm)
      · rw [node_kill_of_ne him]
        exact h.killed i (by omega) hne
    · intro i hi
      have him : m ≠ i := by
        rintro rfl
        exact hi ⟨lt_succ_self m,hs⟩
      obtain ⟨hn,ha,ht⟩ := h.alive i fun hl => hi ⟨lt_succ_of_lt hl.1,hl.2⟩
      obtain ⟨ha',ht'⟩ := h.owned.kill_of_ne him
      rw [node_kill_of_ne him,ha',ht']
      exact ⟨hn,ha,ht⟩

private theorem killing_foldl (h : dfa.Owned) (g : FullGraphPartition) : Killing dfa g.nodeReplacement dfa.nodes.length
    ((range dfa.nodes.length).foldl (replaceNode g) (dfa, id)) := by
  apply foldl_range_induction (Killing dfa g.nodeReplacement)
  · exact fun k hk s hs => hs.replaceNode hk
  · exact ⟨h,rfl,rfl,fun _ => rfl,fun i hi => absurd hi (not_lt_zero i),fun _ _ => ⟨rfl,rfl,rfl⟩⟩

private theorem zipWith_mapData (f : Nat → Nat) (rs : List CharRange) (ts : List Nat) :
    zipWith (fun rn t => (⟨rn.first,rn.last,t⟩ : MutableRange Nat)) rs (ts.map f) =
      mapData f (zipWith (fun rn t => ⟨rn.first,rn.last,t⟩) rs ts) := by
  rw [mapData,map_zipWith,zipWith_map_right]

private theorem relocateTargets_self (f : Nat → Nat) {id : Nat} (hl : (dfa.node id).isKilled = false) :
    (relocateTargets f dfa (dfa.node id)).transitionsOf id = mapData f (dfa.transitionsOf id) := by
  unfold relocateTargets
  rw [hl,if_neg Bool.false_ne_true]
  unfold transitionsOf DFANode.transitions
  rw [← zipWith_mapData,← slice_mapSlice_self]
  rfl

private theorem relocateTargets_of_ne (h : dfa.Owned) (f : Nat → Nat) {id other : Nat} (hn : other ≠ id) :
    (relocateTargets f dfa (dfa.node id)).transitionsOf other = dfa.transitionsOf other := by
  unfold relocateTargets
  split
  · rfl
  · exact congrArg _ (slice_mapSlice_of_disjoint _ _ (h.disjoint_of_ne hn).1)

/-- The automaton while transitions are redirected, up to an index. -/
structure Relocating (dfa : DFA) (relocationVector : Nat → Nat) (m : Nat) (s : DFA) : Prop where
  nodes_eq : s.nodes = dfa.nodes
  actions_eq : s.actions = dfa.actions
  ranges_eq : s.transitionRanges = dfa.transitionRanges
  root_eq : s.root = dfa.root
  length_eq : s.transitionDestinations.length = dfa.transitionDestinations.length
  redirected : ∀ i < m, (dfa.node i).isKilled = false → s.transitionsOf i = mapData relocationVector (dfa.transitionsOf i)
  kept : ∀ i, ¬(i < m ∧ (dfa.node i).isKilled = false) → s.transitionsOf i = dfa.transitionsOf i

theorem Relocating.owned {rl : Nat → Nat} {m : Nat} {s : DFA}
    (h : Relocating dfa rl m s) (hdf : dfa.Owned) : s.Owned where
  destinations_length := by rw [h.length_eq,h.ranges_eq,hdf.destinations_length]
  transitions_inside := by
    rw [h.nodes_eq,h.ranges_eq]
    exact hdf.transitions_inside
  actions_inside := by
    rw [h.nodes_eq,h.actions_eq]
    exact hdf.actions_inside
  transitions_disjoint := h.nodes_eq ▸ hdf.transitions_disjoint
  actions_disjoint := h.nodes_eq ▸ hdf.actions_disjoint

theorem Relocating.relocateTargets {rl : Nat → Nat} {m : Nat} {s : DFA}
    (h : Relocating dfa rl m s) (hdf : dfa.Owned) :
    Relocating dfa rl (m+1) (DFAMinimizer.relocateTargets rl s (dfa.node m)) := by
  have hnd : dfa.node m = s.node m := by rw [node,node,h.nodes_eq]
  have hf : ∀ i, i ≠ m → (DFAMinimizer.relocateTargets rl s (dfa.node m)).transitionsOf i = s.transitionsOf i := by
    intro i hi
    rw [hnd]
    exact relocateTargets_of_ne (h.owned hdf) _ hi
  have hfl : (DFAMinimizer.relocateTargets rl s (dfa.node m)).nodes = s.nodes ∧
      (DFAMinimizer.relocateTargets rl s (dfa.node m)).actions = s.actions ∧
      (DFAMinimizer.relocateTargets rl s (dfa.node m)).transitionRanges = s.transitionRanges ∧
      (DFAMinimizer.relocateTargets rl s (dfa.node m)).root = s.root ∧
      (DFAMinimizer.relocateTargets rl s (dfa.node m)).transitionDestinations.length =
        s.transitionDestinations.length := by
    unfold DFAMinimizer.relocateTargets
    split
    · exact ⟨rfl,rfl,rfl,rfl,rfl⟩
    · exact ⟨rfl,rfl,rfl,rfl,length_mapSlice _ _ _ _⟩
  obtain ⟨hn,ha,hrn,hrt,hln⟩ := hfl
  refine ⟨hn.trans h.nodes_eq,ha.trans h.actions_eq,hrn.trans h.ranges_eq,hrt.trans h.root_eq,
    hln.trans h.length_eq,?_,?_⟩
  · intro i hi hl
    rcases Nat.lt_succ_iff_lt_or_eq.1 hi with hlt | rfl
    · rw [hf i (Nat.ne_of_lt hlt),h.redirected i hlt hl]
    · rw [hnd] at hl ⊢
      rw [relocateTargets_self _ hl,h.kept i (by simp)]
  · intro i hi
    by_cases him : i = m
    · subst him
      have hk : (dfa.node i).isKilled := by
        by_contra hne
        exact hi ⟨lt_succ_self i,Bool.eq_false_iff.2 hne⟩
      unfold DFAMinimizer.relocateTargets
      rw [if_pos hk,h.kept i (by simp)]
    · rw [hf i him]
      exact h.kept i fun hlt => hi ⟨lt_succ_of_lt hlt.1,hlt.2⟩

private theorem relocating_foldl (h : dfa.Owned) (rl : Nat → Nat) : Relocating dfa rl
    dfa.nodes.length (dfa.nodes.foldl (relocateTargets rl) dfa) := by
  apply foldl_induction (Relocating dfa rl)
  · intro k node s hk hs
    rw [← node_of_getElem? hk]
    exact hs.relocateTargets h
  · exact ⟨rfl,rfl,rfl,rfl,rfl,fun i hi => absurd hi (not_lt_zero i),fun _ _ => rfl⟩

/-- The automaton with the first node of every set. -/
structure Relocated (dfa : DFA) (replacement : Nat → Nat) (r : DFA) : Prop where
  owned : r.Owned
  length_eq : r.nodes.length = dfa.nodes.length
  root_eq : r.root = replacement dfa.root
  live_iff : ∀ i < dfa.nodes.length, ((r.node i).isKilled = false ↔ i = replacement i)
  actions_eq : ∀ i, i = replacement i → r.actionsOf i = dfa.actionsOf i
  transitions_eq : ∀ i, r.transitionsOf i =
    if i < dfa.nodes.length ∧ i = replacement i then mapData replacement (dfa.transitionsOf i) else []

private theorem transitions_eq_nil {node : DFANode} (hl : node.transitionsLength = 0) : node.transitions dfa = [] := by
  rw [DFANode.transitions,hl,slice,Nat.add_zero,Nat.sub_self,take_zero,zipWith_nil_left]

private theorem relocated_relocate (h : Minimizable dfa) (g : FullGraphPartition) :
    Relocated dfa g.nodeReplacement (relocate g dfa) := by
  have hkl := killing_foldl h.toOwned g
  unfold relocate
  generalize (range dfa.nodes.length).foldl (replaceNode g) (dfa, id) = s at hkl
  obtain ⟨killed,reloc⟩ := s
  obtain ⟨ho,hln,hro,hre,hk,ha⟩ := hkl
  dsimp only at ho hln hro hre hk ha ⊢
  have hrt : ({ killed with root := reloc killed.root } : DFA).Owned := { ho with }
  have hrl := relocating_foldl hrt reloc
  generalize foldl _ _ _ = r at hrl
  have hn : ∀ i, r.node i = killed.node i := by
    intro i
    rw [node,hrl.nodes_eq]
    rfl
  have hl : ∀ i < dfa.nodes.length, ((killed.node i).isKilled = false ↔ i = g.nodeReplacement i) := by
    intro i hi
    by_cases hs : i = g.nodeReplacement i
    · rw [(ha i fun hne => hne.2 hs).1]
      exact iff_of_true (h.live _ (node_mem hi)) hs
    · rw [hk i hi hs]
      exact iff_of_false Bool.true_eq_false.mp hs
  refine ⟨hrl.owned hrt,?_,?_,?_,?_,?_⟩
  · rw [hrl.nodes_eq,← hln]
  · rw [hrl.root_eq]
    rw [hre,hro,if_pos h.root_lt]
  · intro i hi
    rw [hn]
    exact hl i hi
  · intro i hs
    rw [← (ha i fun hne => hne.2 hs).2.1,actionsOf,DFANode.actions,hn,hrl.actions_eq]
    rfl
  · intro i
    split
    case isTrue hi =>
      rw [hrl.redirected i (by rw [hln]; exact hi.1) ((hl i hi.1).2 hi.2)]
      change mapData reloc (killed.transitionsOf i) = _
      rw [(ha i fun hne => hne.2 hi.2).2.2]
      refine map_congr_left fun range hrn => ?_
      rw [hre,if_pos (h.target_lt i range hrn)]
    case isFalse hi =>
      rw [transitionsOf,hn]
      apply transitions_eq_nil
      rcases lt_or_ge i dfa.nodes.length with hlt | hge
      · rw [hk i hlt fun hs => hi ⟨hlt,hs⟩]
      · rw [node,getD_eq_default _ _ (by omega)]

private theorem behaviour_cons {id c t : Nat} (h : dfa.next id c = some t) (w : List Nat) :
    dfa.behaviour id (c::w) = dfa.behaviour t w := by
  unfold behaviour runFrom
  rw [run,h]
  rfl

/-- Nodes are distinguished when a symbol leads only to distinguished nodes. -/
theorem separates (h : Minimizable dfa) : (graph h).Separates dfa.Distinguished where
  symm := fun p q ⟨w,hw,hne⟩ => ⟨w,hw,hne.symm⟩
  step := by
    intro q hq t ht ha
    obtain ⟨c,hc,hch⟩ := exists_character h ht
    have hn : dfa.next ((graph h).source t) c = some ((graph h).target t) :=
      (hch _ ((graph h).source_lt t ht) _).2 ⟨t,ht,rfl,rfl,rfl⟩
    cases hq' : dfa.next q c with
    | none =>
      refine ⟨[c],by simpa using hc,?_⟩
      rw [behaviour_cons hn]
      unfold behaviour runFrom
      rw [run,run,hq']
      exact some_ne_none _
    | some tr =>
      obtain ⟨u,hu,hs,hsy,rfl⟩ := (hch q hq tr).1 hq'
      obtain ⟨w,hw,hne⟩ := ha u hu hs hsy
      refine ⟨c::w,forall_mem_cons.2 ⟨hc,hw⟩,?_⟩
      rwa [behaviour_cons hn,behaviour_cons hq']

private theorem distinguished_of_actions {q : Nat} (h : dfa.actionsOf p ≠ dfa.actionsOf q) : dfa.Distinguished p q :=
  ⟨[],by simp,fun he => h (some.inj he)⟩

private theorem actionsOf_eq_nil (h : dfa.Owned) (hp : p < dfa.nodes.length) :
    dfa.actionsOf p = [] ↔ (dfa.node p).hasActions = false := by
  have hi := h.actions_inside _ (node_mem hp)
  rw [actionsOf,DFANode.actions,DFANode.hasActions,← length_eq_zero_iff,slice,length_take,
    length_drop,decide_eq_false_iff_not,not_not]
  omega

theorem mem_states (h : dfa.Owned) : p ∈ (range dfa.nodes.length).filter
    (fun i => (dfa.node i).hasActions) ↔ p < dfa.nodes.length ∧ dfa.actionsOf p ≠ [] := by
  rw [mem_filter,mem_range]
  refine and_congr_right fun hp => ?_
  rw [ne_eq,actionsOf_eq_nil h hp,Bool.not_eq_false]

variable {slot : List Nat × List Nat}

theorem mem_slot (h : dfa.Owned) (hs : slot ∈ finalStates dfa) :
    p ∈ slot.2 ↔ p < dfa.nodes.length ∧ dfa.actionsOf p = slot.1 := by
  obtain ⟨heq,hne⟩ := mem_group.1 hs
  have hm : ∀ p, p ∈ slot.2 ↔ (p < dfa.nodes.length ∧ dfa.actionsOf p ≠ []) ∧ dfa.actionsOf p = slot.1 := by
    intro p
    rw [heq,mem_filter,mem_states h,decide_eq_true_iff]
  obtain ⟨e,he⟩ := exists_mem_of_ne_nil _ hne
  obtain ⟨⟨-,ha⟩,hk⟩ := (hm e).1 he
  rw [hm p]
  constructor
  · exact fun ⟨⟨hp,_⟩,heq⟩ => ⟨hp,heq⟩
  · exact fun ⟨hp,heq⟩ => ⟨⟨hp,fun hn => ha (hk.trans (heq.symm.trans hn))⟩,heq⟩

private theorem exists_slot (h : dfa.Owned) (hp : p < dfa.nodes.length) (ha : dfa.actionsOf p ≠ []) :
    ∃ slot ∈ finalStates dfa, slot.1 = dfa.actionsOf p := by
  refine ⟨(dfa.actionsOf p, _),mem_group.2 ⟨rfl,?_⟩,rfl⟩
  apply ne_nil_of_mem (a := p)
  rw [mem_filter,mem_states h]
  exact ⟨⟨hp,ha⟩,decide_eq_true rfl⟩

/-- The partitions while the sets of final states are split off. -/
structure ByActions (h : Minimizable dfa) (slots : List (List Nat × List Nat)) (g : FullGraphPartition) : Prop where
  flattens : g.Flattens (graph h)
  settled : Settled (graph h) dfa.Distinguished g.nodePartition g.transitionPartition
  same : ∀ p < dfa.nodes.length, ∀ q < dfa.nodes.length, g.nodePartition.setIndex p = g.nodePartition.setIndex q →
    ∀ slot ∈ slots, (p ∈ slot.2 ↔ q ∈ slot.2)
  next : g.nextTransitionSetToProcess = 0

theorem ByActions.start (h : Minimizable dfa) : ByActions h [] (ofDFA dfa) := by
  obtain ⟨hf,hv,hm,hs,hnd,hnx⟩ := ofDFA_spec h
  obtain ⟨hnv,hn,hz⟩ := initializeWithSize_valid (graph h).nodes
  rw [← hnd] at hnv hn hz
  refine ⟨hf,⟨hnv,hn,hm ▸ hv,hm,?_⟩,by simp,hnx⟩
  refine ⟨?_,?_,?_,?_⟩
  · intro t ht u hu he
    rwa [hs t ht,hs u hu] at he
  · intro t ht u hu _
    rw [hz,hz]
  · intro p _ q _ hne
    rw [hz,hz] at hne
    exact absurd rfl hne
  · intro t ht u hu he hne
    rw [hs t ht,hs u hu] at hne
    exact absurd he hne

theorem ByActions.split {h : Minimizable dfa} {ss : List (List Nat × List Nat)}
    (hg : ByActions h ss g) (hsl : slot ∈ finalStates dfa) :
    ByActions h (slot::ss) (slot.2.foldl markNode g).refinePartitions := by
  obtain ⟨hf,⟨hn,hu,hT,ht,hc⟩,hsm,hnx⟩ := hg
  have hnt : ∀ x < dfa.nodes.length, ¬g.nodePartition.Marked x := fun x hx => (hu ▸ hn).not_marked hx
  have hnd : slot.2.Nodup := by
    obtain ⟨heq,-⟩ := mem_group.1 hsl
    rw [heq]
    exact (nodup_range.filter _).filter _
  have hl : ∀ e ∈ slot.2, e < dfa.nodes.length ∧ ¬g.nodePartition.Marked e := by
    intro e he
    have hl := ((mem_slot h.toOwned hsl).1 he).1
    exact ⟨hl,hnt e hl⟩
  obtain ⟨hv,-,hst,hm⟩ := markAll_spec hn slot.2 hnd hl
  rw [foldl_markNode]
  generalize slot.2.foldl markElementInCurrentGeneration g.nodePartition = nodes' at hv hst hm ⊢
  have hma : ∀ p < dfa.nodes.length, (nodes'.Marked p ↔ p ∈ slot.2) :=
    fun p hp => (hm p hp).trans (or_iff_right (hnt p hp))
  have hj : Justified (graph h) dfa.Distinguished nodes' := by
    intro p hp q hq _ hmp hmq
    rw [hma p hp,mem_slot h.toOwned hsl] at hmp
    rw [hma q hq,mem_slot h.toOwned hsl] at hmq
    exact distinguished_of_actions fun heq => hmq ⟨hq,heq ▸ hmp.2⟩
  have hf' : ({ g with nodePartition := nodes' } : FullGraphPartition).Flattens (graph h) :=
    ⟨hf.source_eq,hf.mem_incoming⟩
  obtain ⟨hs,hrf,-⟩ := refinePartitions_spec hf' (separates h).symm hv hT ht
    ⟨hc.symbol_eq,by simpa only [hst] using hc.target_eq,
      by simpa only [hst] using hc.nodes_apart,hc.targets_apart⟩ hj
  refine ⟨⟨hf.source_eq,hf.mem_incoming⟩,hs,?_,hnx⟩
  intro p hp q hq heq slot' hsl'
  obtain ⟨ho,hmr⟩ := (hrf.same_iff p hp q hq).1 heq
  rcases mem_cons.1 hsl' with rfl | hmm
  · rwa [hma p hp,hma q hq] at hmr
  · refine hsm p hp q hq ?_ slot' hmm
    rw [← hst,← hst]
    exact ho

/-- In the end the nodes of a set have the same actions. -/
theorem byActions_spec (h : Minimizable dfa) (o : IterationOrder (List Nat × List Nat)) :
    LoopInvariant (graph h) dfa.Distinguished (fun p q => dfa.actionsOf p = dfa.actionsOf q)
      ((o.visit (finalStates dfa)).foldl (fun g slot => (slot.2.foldl markNode g).refinePartitions) (ofDFA dfa)) := by
  have hfl : ∀ (rs done : List (List Nat × List Nat)) (g : FullGraphPartition), (∀ slot ∈ rs, slot ∈ finalStates dfa) →
      ByActions h done g → ByActions h (rs.reverse ++ done)
        (rs.foldl (fun g slot => (slot.2.foldl markNode g).refinePartitions) g) := by
    intro rs
    induction rs with
    | nil => exact fun done g _ hg => hg
    | cons slot rs ih =>
      intro done g hrs hg
      obtain ⟨hsl,hrs⟩ := forall_mem_cons.1 hrs
      rw [reverse_cons,append_assoc]
      exact ih _ _ hrs (hg.split hsl)
  obtain ⟨hf,hst,hsm,hn⟩ := hfl (o.visit (finalStates dfa)) [] _
    (fun slot hsl => o.mem_visit.1 hsl) (ByActions.start h)
  refine ⟨hf,?_,hst,?_⟩
  · intro p hp q hq he
    have hs : ∀ slot ∈ finalStates dfa, (dfa.actionsOf p = slot.1 ↔ dfa.actionsOf q = slot.1) := by
      intro slot hsl
      have hi := hsm p hp q hq he slot (by simpa using hsl)
      rw [mem_slot h.toOwned hsl,mem_slot h.toOwned hsl] at hi
      exact ⟨fun he => (hi.1 ⟨hp,he⟩).2,fun he => (hi.2 ⟨hq,he⟩).2⟩
    by_cases hpn : dfa.actionsOf p = []
    · by_contra hne
      obtain ⟨slot,hsl,hk⟩ := exists_slot h.toOwned hq (fun hqn => hne (hpn.trans hqn.symm))
      exact hne (((hs slot hsl).2 hk.symm).trans hk)
    · obtain ⟨slot,hsl,hk⟩ := exists_slot h.toOwned hp hpn
      exact (((hs slot hsl).1 hk.symm).trans hk).symm
  · intro p _ q _ _ t _ _ hl
    rw [hn] at hl
    exact absurd hl (not_lt_zero _)

structure Minimized (dfa dfa' : DFA) : Prop where
  wellFormed : dfa'.WellFormed
  length_eq : dfa'.nodes.length = dfa.nodes.length
  target_live : ∀ p q c, dfa'.Live p → dfa'.next p c = some q → dfa'.Live q
  reach_rel : ∀ w, Option.Rel (fun p q => dfa'.Live q ∧ dfa'.actionsOf q = dfa.actionsOf p) (dfa.reach w) (dfa'.reach w)
  distinguished : ∀ p q, dfa'.Live p → dfa'.Live q → p ≠ q → dfa'.Distinguished p q

/-- The replacement of a node: the first node of its set. -/
structure Representative (nodes : Partition) (n : Nat) (replacement : Nat → Nat) : Prop where
  lt : ∀ i < n, replacement i < n
  setIndex_eq : ∀ i < n, nodes.setIndex (replacement i) = nodes.setIndex i
  eq_of_setIndex : ∀ i j, nodes.setIndex i = nodes.setIndex j → replacement i = replacement j

theorem representative {n : Nat} {ms : List Nat}
    (h : g.nodePartition.Valid n ms) : Representative g.nodePartition n g.nodeReplacement where
  lt i hi := (h.firstElementInSet_spec (h.set_lt i hi)).1
  setIndex_eq i hi := (h.firstElementInSet_spec (h.set_lt i hi)).2
  eq_of_setIndex _ _ he := congrArg g.nodePartition.firstElementInSet he

/-- Nodes of one set have transitions into the same sets. -/
theorem next_rel (h : Minimizable dfa) {apart a : Nat → Nat → Prop} {ns : Partition}
    (hc : Coarsest (graph h) apart a ns) {q : Nat} (hp : p < dfa.nodes.length) (hq : q < dfa.nodes.length)
    (hst : ns.setIndex p = ns.setIndex q) (c : Nat) :
    Option.Rel (fun p' q' => p' < dfa.nodes.length ∧ q' < dfa.nodes.length ∧ ns.setIndex p' = ns.setIndex q')
      (dfa.next p c) (dfa.next q c) := by
  have hm : ∀ p < dfa.nodes.length, ∀ q < dfa.nodes.length, ns.setIndex p = ns.setIndex q →
      ∀ p', dfa.next p c = some p' → p' < dfa.nodes.length ∧
        ∃ q' < dfa.nodes.length, dfa.next q c = some q' ∧ ns.setIndex p' = ns.setIndex q' := by
    intro p hp q hq hst p' hn
    obtain ⟨i,hsy⟩ := exists_symbol h hp hn
    obtain ⟨t,ht,rfl,hi,rfl⟩ := (hsy p hp p').1 hn
    obtain ⟨u,hu,hsr,hs,htg⟩ := hc.step _ hp q hq hst t ht rfl
    exact ⟨(graph h).target_lt t ht,_,(graph h).target_lt u hu,
      (hsy q hq _).2 ⟨u,hu,hsr,hs.trans hi,rfl⟩,htg.symm⟩
  cases hn : dfa.next p c with
  | some p' =>
    obtain ⟨hp',q',hq',hn',hst'⟩ := hm p hp q hq hst p' hn
    rw [hn']
    exact .some ⟨hp',hq',hst'⟩
  | none =>
    cases hn' : dfa.next q c with
    | none => exact .none
    | some q' =>
      obtain ⟨-,p',-,hp',-⟩ := hm q hq p hp hst.symm q' hn'
      rw [hp'] at hn
      cases hn

section
variable {g : FullGraphPartition} {r : DFA} {replacement : Nat → Nat}

theorem Representative.idem {ns : Partition} {n : Nat}
    (h : Representative ns n replacement) {i : Nat} (hi : i < n) : replacement i = replacement (replacement i) :=
  h.eq_of_setIndex _ _ (h.setIndex_eq i hi).symm

theorem Relocated.next_eq (hr : Relocated dfa replacement r) {i : Nat}
    (hi : i < dfa.nodes.length) (hs : i = replacement i) (c : Nat) : r.next i c = (dfa.next i c).map replacement := by
  rw [DFA.next,hr.transitions_eq,if_pos ⟨hi,hs⟩,dataAt_mapData]
  rfl

theorem Relocated.wellFormed (h : Minimizable dfa) (hr : Relocated dfa replacement r)
    (hl : ∀ i < dfa.nodes.length, replacement i < dfa.nodes.length) : r.WellFormed := by
  refine ⟨hr.owned,?_,?_,?_,?_⟩
  · rw [hr.root_eq,hr.length_eq]
    exact hl _ h.root_lt
  · intro i
    rw [hr.transitions_eq]
    split
    · exact orderedFrom_mapData.2 (h.ordered i)
    · trivial
  · intro i rn hrn
    rw [hr.transitions_eq] at hrn
    split at hrn
    · obtain ⟨o,ho,rfl⟩ := mem_map.1 hrn
      exact h.last_le i o ho
    · cases hrn
  · intro i rn hrn
    rw [hr.transitions_eq] at hrn
    rw [hr.length_eq]
    split at hrn
    · obtain ⟨o,ho,rfl⟩ := mem_map.1 hrn
      exact hl _ (h.target_lt i o ho)
    · cases hrn

variable {apart : Nat → Nat → Prop}

section
variable (h : Minimizable dfa)
  (hr : Relocated dfa g.nodeReplacement r)
  (hg : Coarsest (graph h) apart (fun p q => dfa.actionsOf p = dfa.actionsOf q) g.nodePartition)
include h hr hg

/-- The new automaton runs through the replacements of the old one's nodes. -/
theorem runFrom_rel {p : Nat} (hp : p < dfa.nodes.length) (w : List Nat) :
    Option.Rel (fun p' q' => p' < dfa.nodes.length ∧ q' = g.nodeReplacement p') (dfa.runFrom p w)
      (r.runFrom (g.nodeReplacement p) w) := by
  obtain ⟨ms,hv⟩ := hg.valid
  have hrp := representative hv
  refine run_rel (fun _ => True) ?_ ⟨hp,rfl⟩ (fun _ _ => trivial)
  rintro p _ c ⟨hp,rfl⟩ -
  have hrl := next_rel h hg hp (hrp.lt p hp) (hrp.setIndex_eq p hp).symm c
  rw [hr.next_eq (hrp.lt p hp) (hrp.idem hp)]
  generalize dfa.next p c = p' at hrl
  generalize dfa.next (g.nodeReplacement p) c = q' at hrl
  cases hrl with
  | none => exact .none
  | some hs => exact .some ⟨hs.1,hrp.eq_of_setIndex _ _ hs.2.2.symm⟩

theorem Relocated.actionsOf_replacement {p : Nat} (hp : p < dfa.nodes.length) :
    r.actionsOf (g.nodeReplacement p) = dfa.actionsOf p := by
  obtain ⟨ms,hv⟩ := hg.valid
  have hrp := representative hv
  rw [hr.actions_eq _ (hrp.idem hp)]
  exact hg.alike_of_same _ (hrp.lt p hp) _ hp (hrp.setIndex_eq p hp)

theorem Relocated.behaviour_eq {p : Nat} (hp : p < dfa.nodes.length) (hsl : p = g.nodeReplacement p) (w : List Nat) :
    r.behaviour p w = dfa.behaviour p w := by
  have hrl := runFrom_rel h hr hg hp w
  rw [← hsl] at hrl
  unfold behaviour
  generalize dfa.runFrom p w = p' at hrl
  generalize r.runFrom p w = q' at hrl
  cases hrl with
  | none => rfl
  | some hs => rw [map_some,map_some,hs.2,hr.actionsOf_replacement h hg hs.1]

end

theorem Relocated.minimized (h : Minimizable dfa) (hr : Relocated dfa g.nodeReplacement r)
    (hg : Coarsest (graph h) dfa.Distinguished (fun p q => dfa.actionsOf p = dfa.actionsOf q) g.nodePartition) :
    Minimized dfa r := by
  obtain ⟨ms,hv⟩ := hg.valid
  have hrp := representative hv
  have hl : ∀ i < dfa.nodes.length, r.Live (g.nodeReplacement i) := by
    intro i hi
    exact ⟨hr.length_eq ▸ hrp.lt i hi,(hr.live_iff _ (hrp.lt i hi)).2 (hrp.idem hi)⟩
  have hs : ∀ i, r.Live i → i < dfa.nodes.length ∧ i = g.nodeReplacement i := by
    intro i hi
    have hlt := hr.length_eq ▸ hi.1
    exact ⟨hlt,(hr.live_iff i hlt).1 hi.2⟩
  refine ⟨hr.wellFormed h hrp.lt,hr.length_eq,?_,?_,?_⟩
  · intro p q c hp hn
    obtain ⟨hlt,he⟩ := hs p hp
    rw [hr.next_eq hlt he] at hn
    obtain ⟨q',hq',rfl⟩ := map_eq_some_iff.1 hn
    obtain ⟨rn,hrn,-,-,hdt⟩ := mem_of_dataAt hq'
    exact hl q' (hdt ▸ h.target_lt p rn hrn)
  · intro w
    unfold reach
    rw [hr.root_eq]
    refine rel_mono ?_ (runFrom_rel h hr hg h.root_lt w)
    rintro p _ ⟨hp,rfl⟩
    exact ⟨hl p hp,hr.actionsOf_replacement h hg hp⟩
  · intro p q hp hq hne
    obtain ⟨hpl,hps⟩ := hs p hp
    obtain ⟨hql,hqs⟩ := hs q hq
    obtain ⟨w,hw,hdf⟩ := hg.apart_of_ne p hpl q hql (fun hst => hne (by
      rw [hps,hqs]
      exact hrp.eq_of_setIndex p q hst))
    refine ⟨w,hw,?_⟩
    rwa [hr.behaviour_eq h hg hpl hps,hr.behaviour_eq h hg hql hqs]

end

/-- Minimizing ends, with pairwise distinguished nodes that run like the old ones. -/
theorem minimize_spec (h : Minimizable dfa) (o : IterationOrder (List Nat × List Nat)) {f : Nat}
    (hf : 128*dfa.nodes.length < f) : ∃ dfa', minimize o f dfa = some dfa' ∧ Minimized dfa dfa' := by
  obtain ⟨g,hs,hg⟩ := splitByUniqueTransitions_spec (separates h) (byActions_spec h o)
    ((transitions_le h).trans_lt hf)
  refine ⟨relocate g dfa,?_,(relocated_relocate h g).minimized h hg⟩
  unfold minimize
  dsimp only
  rw [hs]
  rfl

/-- The minimized automaton is stuck on the same words and otherwise reaches a live node with the same action
sequence, its live nodes lead to live nodes, and any two of them are told apart by some word. -/
theorem minimize_preserves_behaviour (h : Minimizable dfa) (order : IterationOrder (List Nat × List Nat)) {fuel : Nat}
    (hfuel : 128*dfa.nodes.length < fuel) : ∃ dfa', minimize order fuel dfa = some dfa' ∧
      (∀ w, (dfa'.reach w = none ↔ dfa.reach w = none) ∧ ∀ p, dfa.reach w = some p →
        ∃ q, dfa'.reach w = some q ∧ dfa'.Live q ∧ dfa'.actionsOf q = dfa.actionsOf p) ∧
      (∀ p, dfa'.Live p → ∀ range ∈ dfa'.transitionsOf p, dfa'.Live range.data) ∧
      ∀ p q, dfa'.Live p → dfa'.Live q → p ≠ q → dfa'.Distinguished p q := by
  obtain ⟨dfa',he,hm⟩ := minimize_spec h order hfuel
  refine ⟨dfa',he,fun w => ⟨(rel_eq_none_iff (hm.reach_rel w)).symm,fun p hp => ?_⟩,?_,hm.distinguished⟩
  · have hrl := hm.reach_rel w
    rw [hp] at hrl
    exact rel_of_eq_some hrl
  · intro p hp range hrn
    have ho := hm.wellFormed.ordered p
    exact hm.target_live p _ range.first hp
      (ho.dataAt_of_mem hrn le_rfl (ho.first_le_last hrn))

def twinLeaves : DFA where
  nodes := [{ transitionsLength := 2 }, { actionsLength := 1 }, { actionsStart := 1, actionsLength := 1 }]
  actions := [7, 7]
  transitionRanges := [⟨97,97⟩, ⟨98,98⟩]
  transitionDestinations := [1, 2]

theorem twinLeaves_minimizable : Minimizable twinLeaves := by
  have ht : ∀ id, twinLeaves.transitionsOf id = [⟨97,97,1⟩, ⟨98,98,2⟩] ∨ twinLeaves.transitionsOf id = [] := by
    intro id
    match id with
    | 0 => exact .inl rfl
    | 1 => exact .inr rfl
    | 2 => exact .inr rfl
    | id + 3 => exact .inr rfl
  refine ⟨⟨⟨rfl,by decide,by decide,?_,?_⟩,by decide,?_,?_,?_⟩,by decide⟩
  · simp only [twinLeaves,pairwise_cons,forall_mem_cons,DFANode.TransitionsDisjoint]
    refine ⟨⟨?_,?_,by simp⟩,⟨?_,by simp⟩,by simp⟩ <;> (intro k; omega)
  · simp only [twinLeaves,pairwise_cons,forall_mem_cons,DFANode.ActionsDisjoint]
    refine ⟨⟨?_,?_,by simp⟩,⟨?_,by simp⟩,by simp⟩ <;> (intro k; omega)
  · intro id
    rcases ht id with h | h <;> rw [h] <;> simp [OrderedFrom]
  · intro id
    rcases ht id with h | h <;> rw [h] <;> simp
  · intro id
    rcases ht id with h | h <;> rw [h] <;> simp [twinLeaves]

theorem minimize_preserves_twinLeaves_behaviour : ∃ dfa', minimize (.insertion _) 400 twinLeaves = some dfa' ∧
      (∀ w, (dfa'.reach w = none ↔ twinLeaves.reach w = none) ∧ ∀ p, twinLeaves.reach w = some p →
        ∃ q, dfa'.reach w = some q ∧ dfa'.Live q ∧ dfa'.actionsOf q = twinLeaves.actionsOf p) ∧
      (∀ p, dfa'.Live p → ∀ range ∈ dfa'.transitionsOf p, dfa'.Live range.data) ∧
      ∀ p q, dfa'.Live p → dfa'.Live q → p ≠ q → dfa'.Distinguished p q :=
  minimize_preserves_behaviour twinLeaves_minimizable (.insertion _) (by decide)

example : (minimize (.insertion _) 400 twinLeaves).map graphSize = some 2 := by decide

end DFAMinimizer
end WebKit.ContentExtensions
