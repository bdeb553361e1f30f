import WebKit.Base.Loop
import WebKit.ContentExtensions.Partition

/-! Refining nodes and transitions together: a set of transitions has one symbol and targets in one node set, and splits the
nodes by its sources. -/
namespace WebKit.ContentExtensions
open WebKit.Base ContentExtensions.Partition List

/-- Transitions are flattened by target: those into a node are an interval. -/
structure FullGraphPartition where
  flattenedTransitionsStartOffsetPerNode : Nat → Nat
  flattenedTransitionsSizePerNode : Nat → Nat
  /-- The source of each transition. -/
  flattenedTransitions : Nat → Nat
  nodePartition : Partition
  transitionPartition : Partition
  nextTransitionSetToProcess : Nat := 0

namespace FullGraphPartition

def markNode (g : FullGraphPartition) (node : Nat) : FullGraphPartition :=
  { g with nodePartition := g.nodePartition.markElementInCurrentGeneration node }

def incomingTransitions (g : FullGraphPartition) (node : Nat) : List Nat :=
  range' (g.flattenedTransitionsStartOffsetPerNode node) (g.flattenedTransitionsSizePerNode node)

def refineTransitions (g : FullGraphPartition) (nodes : Partition) (smallestSetIndex : Nat) (transitions : Partition) :
    Partition :=
  let marked := (nodes.elementsOfSet smallestSetIndex).foldl (fun transitions node =>
    (g.incomingTransitions node).foldl markElementInCurrentGeneration transitions) transitions
  (marked.refineGeneration (fun _ _ s => s) ()).1

def refinePartitions (g : FullGraphPartition) : FullGraphPartition :=
  let (nodes, transitions) := g.nodePartition.refineGeneration g.refineTransitions g.transitionPartition
  { g with nodePartition := nodes, transitionPartition := transitions }

/-- Use one set of transitions to refine the nodes. -/
def splitStep (g : FullGraphPartition) : FullGraphPartition ⊕ FullGraphPartition :=
  if g.nextTransitionSetToProcess < g.transitionPartition.size then
    let marked := (g.transitionPartition.elementsOfSet g.nextTransitionSetToProcess).foldl
      (fun g transition => g.markNode (g.flattenedTransitions transition)) g
    .inl { marked.refinePartitions with nextTransitionSetToProcess := g.nextTransitionSetToProcess + 1 }
  else .inr g

def splitByUniqueTransitions (fuel : Nat) (g : FullGraphPartition) : Option FullGraphPartition := loop splitStep fuel g

def nodeReplacement (g : FullGraphPartition) (node : Nat) : Nat :=
  g.nodePartition.firstElementInSet (g.nodePartition.setIndex node)

end FullGraphPartition

/-- The transitions of a deterministic automaton, numbered. -/
structure TransitionGraph where
  nodes : Nat
  transitions : Nat
  source : Nat → Nat
  target : Nat → Nat
  symbol : Nat → Nat
  source_lt : ∀ t < transitions, source t < nodes
  target_lt : ∀ t < transitions, target t < nodes
  deterministic : ∀ t < transitions, ∀ u < transitions, source t = source u → symbol t = symbol u → t = u

/-- Holds of nodes whenever their transitions on a symbol force it. -/
structure TransitionGraph.Separates (G : TransitionGraph) (apart : Nat → Nat → Prop) : Prop where
  symm : ∀ p q, apart p q → apart q p
  step : ∀ q, q < G.nodes → ∀ t < G.transitions,
    (∀ u < G.transitions, G.source u = q → G.symbol u = G.symbol t → apart (G.target t) (G.target u)) →
    apart (G.source t) q

namespace FullGraphPartition
variable {G : TransitionGraph} {apart alike : Nat → Nat → Prop}

/-- The arrays number the transitions of a graph. -/
structure Flattens (g : FullGraphPartition) (G : TransitionGraph) : Prop where
  source_eq : ∀ t < G.transitions, g.flattenedTransitions t = G.source t
  mem_incoming : ∀ node < G.nodes, ∀ t, t ∈ g.incomingTransitions node ↔ t < G.transitions ∧ G.target t = node

/-- A set's transitions have one symbol and targets in one set; different sets are apart. -/
structure Consistent (G : TransitionGraph) (apart : Nat → Nat → Prop) (nodes transitions : Partition) : Prop where
  symbol_eq : ∀ t < G.transitions, ∀ u < G.transitions, transitions.setIndex t = transitions.setIndex u →
    G.symbol t = G.symbol u
  target_eq : ∀ t < G.transitions, ∀ u < G.transitions, transitions.setIndex t = transitions.setIndex u →
    nodes.setIndex (G.target t) = nodes.setIndex (G.target u)
  nodes_apart : ∀ p < G.nodes, ∀ q < G.nodes, nodes.setIndex p ≠ nodes.setIndex q → apart p q
  targets_apart : ∀ t < G.transitions, ∀ u < G.transitions, G.symbol t = G.symbol u →
    transitions.setIndex t ≠ transitions.setIndex u → apart (G.target t) (G.target u)

/-- The marks separate only nodes that are apart. -/
def Justified (G : TransitionGraph) (apart : Nat → Nat → Prop) (nodes : Partition) : Prop :=
  ∀ p < G.nodes, ∀ q < G.nodes, nodes.setIndex p = nodes.setIndex q → nodes.Marked p → ¬nodes.Marked q → apart p q

/-- Sets only split, and the new ones come last. -/
structure Finer (n : Nat) (p p' : Partition) : Prop where
  same : ∀ x < n, ∀ y < n, p'.setIndex x = p'.setIndex y → p.setIndex x = p.setIndex y
  old_or_new : ∀ x < n, p'.setIndex x = p.setIndex x ∨ p.size ≤ p'.setIndex x
  size_le : p.size ≤ p'.size

theorem Finer.refl (n : Nat) (p : Partition) : Finer n p p := ⟨fun _ _ _ _ h => h,fun _ _ => .inl rfl,Nat.le_refl _⟩

theorem Finer.trans {n : Nat} {p p' p'' : Partition} (h : Finer n p p') (h' : Finer n p' p'') : Finer n p p'' where
  same x hx y hy he := h.same x hx y hy (h'.same x hx y hy he)
  old_or_new := by
    intro x hx
    rcases h'.old_or_new x hx with he | hg
    · rcases h.old_or_new x hx with he' | hg'
      · exact .inl (he.trans he')
      · exact .inr (he ▸ hg')
    · exact .inr (Nat.le_trans h.size_le hg)
  size_le := Nat.le_trans h.size_le h'.size_le

theorem Finer.of_refines {n : Nat} {p p' : Partition} (h : p.Refines n p') : Finer n p p' :=
  ⟨fun x hx y hy he => ((h.same_iff x hx y hy).1 he).1,h.old_or_new,h.size_le⟩

variable {g : FullGraphPartition} {T nodes nodes' : Partition}

section
variable (hg : g.Flattens G) (hT : T.Valid G.transitions T.setsMarkedInCurrentGeneration)
include hg hT

private theorem foldl_incoming
    {nodes : List Nat} (hnd : nodes.Nodup)
    (hn : ∀ node ∈ nodes, node < G.nodes) (hu : ∀ t < G.transitions, G.target t ∈ nodes → ¬T.Marked t) :
    let T' := nodes.foldl (fun T node => (g.incomingTransitions node).foldl markElementInCurrentGeneration T) T
    T'.Valid G.transitions T'.setsMarkedInCurrentGeneration ∧ T'.size = T.size ∧ (∀ x, T'.setIndex x = T.setIndex x) ∧
      ∀ t < G.transitions, (T'.Marked t ↔ T.Marked t ∨ G.target t ∈ nodes) := by
  induction nodes generalizing T with
  | nil => exact ⟨hT,rfl,fun _ => rfl,by simp⟩
  | cons node nodes ih =>
    obtain ⟨hmm,hnd⟩ := nodup_cons.1 hnd
    obtain ⟨hno,hn⟩ := forall_mem_cons.1 hn
    have hi := hg.mem_incoming node hno
    obtain ⟨hv,hs,hst,hmr⟩ := markAll_spec hT (g.incomingTransitions node) nodup_range' (by
        intro t ht
        obtain ⟨hl,htg⟩ := (hi t).1 ht
        exact ⟨hl,hu t hl (by rw [htg]; exact mem_cons_self)⟩)
    obtain ⟨hv',hs',hst',hmr'⟩ := ih hv hnd hn (by
      intro t ht htg
      rw [hmr t ht,hi]
      rintro (hm | ⟨-,he⟩)
      · exact hu t ht (mem_cons_of_mem _ htg) hm
      · exact hmm (he ▸ htg))
    refine ⟨hv',hs'.trans hs,fun x => (hst' x).trans (hst x),fun t ht => ?_⟩
    rw [foldl_cons,hmr' t ht,hmr t ht,hi,mem_cons,or_assoc]
    simp [ht]

private theorem refineTransitions_spec
    (he : T.setsMarkedInCurrentGeneration = [])
    {ms : List Nat} (hn : nodes.Valid G.nodes ms) {k : Nat} (hk : k < nodes.size) :
    let T' := g.refineTransitions nodes k T
    T'.Valid G.transitions T'.setsMarkedInCurrentGeneration ∧ T'.setsMarkedInCurrentGeneration = [] ∧
      Finer G.transitions T T' ∧
      ∀ t < G.transitions, ∀ u < G.transitions, (T'.setIndex t = T'.setIndex u ↔ T.setIndex t = T.setIndex u ∧
        (nodes.setIndex (G.target t) = k ↔ nodes.setIndex (G.target u) = k)) := by
  have hun : ∀ t < G.transitions, ¬T.Marked t := fun t ht => (he ▸ hT).not_marked ht
  obtain ⟨hv,hsz,hst,hm⟩ := foldl_incoming hg hT (hn.nodup_elementsOfSet hk)
    (fun node hnd => ((hn.mem_elementsOfSet_iff hk).1 hnd).1) (fun t ht _ => hun t ht)
  obtain ⟨hv',he',hr⟩ := refineGeneration_spec hv
  have hmr : ∀ t < G.transitions, _ := fun t ht => (hm t ht).trans (or_iff_right (hun t ht))
  refine ⟨hv',he',?_,fun t ht u hu => ?_⟩
  · obtain ⟨hs,ho,hl⟩ := Finer.of_refines hr
    simp only [hst,hsz] at hs ho hl
    exact ⟨hs,ho,hl⟩
  · refine (hr.same_iff t ht u hu).trans ?_
    rw [hst,hst,hmr t ht,hmr u hu,hn.mem_elementsOfSet_iff hk,hn.mem_elementsOfSet_iff hk]
    simp [G.target_lt t ht,G.target_lt u hu]

end

/-- Splitting a node set and the transitions into it keeps the partitions consistent. -/
theorem Consistent.split {j k : Nat} {T' : Partition} (h : Consistent G apart nodes T)
    (hj : Justified G apart nodes) (hr : nodes.RefinesSet G.nodes j nodes')
    (hn : ∀ x < G.nodes, nodes'.setIndex x = nodes.setIndex x ∨ nodes'.setIndex x = k)
    (hT : ∀ t < G.transitions, ∀ u < G.transitions, (T'.setIndex t = T'.setIndex u ↔ T.setIndex t = T.setIndex u ∧
        (nodes'.setIndex (G.target t) = k ↔ nodes'.setIndex (G.target u) = k)))
    (hs : ∀ p q, apart p q → apart q p) : Consistent G apart nodes' T' := by
  have ha : ∀ p < G.nodes, ∀ q < G.nodes, nodes'.setIndex p ≠ nodes'.setIndex q → apart p q := by
    intro p hp q hq hne
    rw [Ne,hr.same_iff p hp q hq] at hne
    by_cases hst : nodes.setIndex p = nodes.setIndex q
    · by_cases hmp : nodes.Marked p
      · by_cases hm : nodes.Marked q
        · exact absurd ⟨hst,fun _ => iff_of_true hmp hm⟩ hne
        · exact hj p hp q hq hst hmp hm
      · by_cases hm : nodes.Marked q
        · exact hs _ _ (hj q hq p hp hst.symm hm hmp)
        · exact absurd ⟨hst,fun _ => iff_of_false hmp hm⟩ hne
    · exact h.nodes_apart p hp q hq hst
  refine ⟨?_,?_,ha,?_⟩
  · intro t ht u hu he
    exact h.symbol_eq t ht u hu ((hT t ht u hu).1 he).1
  · intro t ht u hu he
    obtain ⟨ho,hi⟩ := (hT t ht u hu).1 he
    have htg := h.target_eq t ht u hu ho
    rcases hn _ (G.target_lt t ht) with ht' | ht'
    · rcases hn _ (G.target_lt u hu) with hu' | hu'
      · rw [ht',hu',htg]
      · rw [hu',hi.2 hu']
    · rw [ht',hi.1 ht']
  · intro t ht u hu hsy hne
    rw [Ne,hT t ht u hu] at hne
    by_cases ho : T.setIndex t = T.setIndex u
    · refine ha _ (G.target_lt t ht) _ (G.target_lt u hu) fun he => hne ⟨ho,?_⟩
      rw [he]
    · exact h.targets_apart t ht u hu hsy ho

theorem Justified.of_refinesSet {j : Nat} (h : Justified G apart nodes)
    (hr : nodes.RefinesSet G.nodes j nodes') : Justified G apart nodes' := by
  intro p hp q hq hs hmp hmq
  obtain ⟨hs,-⟩ := (hr.same_iff p hp q hq).1 hs
  rw [hr.marked_iff p hp] at hmp
  rw [hr.marked_iff q hq,← hs] at hmq
  exact h p hp q hq hs hmp.2 fun hm => hmq ⟨hmp.1,hm⟩

/-- The partitions between two rounds: nothing is marked. -/
structure Settled (G : TransitionGraph) (apart : Nat → Nat → Prop) (nodes transitions : Partition) : Prop where
  nodes_valid : nodes.Valid G.nodes nodes.setsMarkedInCurrentGeneration
  nodes_unmarked : nodes.setsMarkedInCurrentGeneration = []
  transitions_valid : transitions.Valid G.transitions transitions.setsMarkedInCurrentGeneration
  transitions_unmarked : transitions.setsMarkedInCurrentGeneration = []
  consistent : Consistent G apart nodes transitions

private theorem refineSets_spec (hg : g.Flattens G) (hsy : ∀ p q, apart p q → apart q p)
    {l : List Nat} (hn : nodes.Valid G.nodes l)
    (hT : T.Valid G.transitions T.setsMarkedInCurrentGeneration) (he : T.setsMarkedInCurrentGeneration = [])
    (h : Consistent G apart nodes T) (hj : Justified G apart nodes) :
    let r := refineSets g.refineTransitions l nodes T
    r.1.Valid G.nodes [] ∧ nodes.Refines G.nodes r.1 ∧ r.2.Valid G.transitions r.2.setsMarkedInCurrentGeneration ∧
      r.2.setsMarkedInCurrentGeneration = [] ∧ Finer G.transitions T r.2 ∧ Consistent G apart r.1 r.2 := by
  induction l generalizing nodes T with
  | nil => exact ⟨hn,hn.refines_refl,hT,he,Finer.refl _ T,h⟩
  | cons j rs ih =>
    obtain ⟨hvl,hrf,hcs⟩ := refineSet_spec hn
    have hj' := hj.of_refinesSet hrf
    rw [refineSets]
    generalize nodes.refineSet j = r at hvl hrf hcs hj'
    obtain ⟨nodes',new⟩ := r
    rcases hcs with ⟨rfl,hsz,hst⟩ | ⟨rfl,hsz⟩
    · have hcn : Consistent G apart nodes' T := by
        refine ⟨h.symbol_eq,?_,?_,h.targets_apart⟩
        · simpa only [hst] using h.target_eq
        · simpa only [hst] using h.nodes_apart
      obtain ⟨hv,hr,hrs⟩ := ih hvl hT he hcn hj'
      exact ⟨hv,.of_refinesSet hrf (Nat.le_of_eq hsz.symm) hr,hrs⟩
    · obtain ⟨hT',he',hf,hs⟩ := refineTransitions_spec hg hT he hvl (k := nodes.size) (by omega)
      have hcn := h.split hj hrf
        (fun x hx => (hrf.old_or_new x hx).imp_right And.right) hs hsy
      obtain ⟨hv,hr,hTv,hTe,hTf,hc⟩ := ih hvl hT' he' hcn hj'
      exact ⟨hv,.of_refinesSet hrf (by omega) hr,hTv,hTe,hf.trans hTf,hc⟩

/-- Refining by justified marks separates just the marked nodes and settles the partitions. -/
theorem refinePartitions_spec (hg : g.Flattens G) (hs : ∀ p q, apart p q → apart q p)
    (hn : g.nodePartition.Valid G.nodes g.nodePartition.setsMarkedInCurrentGeneration)
    (hT : g.transitionPartition.Valid G.transitions g.transitionPartition.setsMarkedInCurrentGeneration)
    (he : g.transitionPartition.setsMarkedInCurrentGeneration = [])
    (h : Consistent G apart g.nodePartition g.transitionPartition) (hj : Justified G apart g.nodePartition) :
    Settled G apart g.refinePartitions.nodePartition g.refinePartitions.transitionPartition ∧
      g.nodePartition.Refines G.nodes g.refinePartitions.nodePartition ∧
      Finer G.transitions g.transitionPartition g.refinePartitions.transitionPartition := by
  obtain ⟨hv,hr,hTv,hTe,hTf,hc⟩ := refineSets_spec hg hs hn hT he h hj
  exact ⟨⟨{ hv with },rfl,hTv,hTe,⟨hc.symbol_eq,hc.target_eq,hc.nodes_apart,hc.targets_apart⟩⟩,
    ⟨hr.same_iff,hr.old_or_new,hr.size_le⟩,hTf⟩

/-- Nodes of one set have transitions of the same processed sets, up to sets to be processed. -/
def Stable (G : TransitionGraph) (nodes transitions : Partition) (next : Nat) : Prop :=
  ∀ p < G.nodes, ∀ q < G.nodes, nodes.setIndex p = nodes.setIndex q →
    ∀ t < G.transitions, G.source t = p → transitions.setIndex t < next →
      ∃ u < G.transitions, G.source u = q ∧ G.symbol u = G.symbol t ∧
        (transitions.setIndex u = transitions.setIndex t ∨ next ≤ transitions.setIndex u)

/-- The main loop's invariant; what the nodes of a set have in common from the start stays so. -/
structure LoopInvariant (G : TransitionGraph) (apart alike : Nat → Nat → Prop) (g : FullGraphPartition) : Prop where
  flattens : g.Flattens G
  alike_of_same : ∀ p < G.nodes, ∀ q < G.nodes, g.nodePartition.setIndex p = g.nodePartition.setIndex q → alike p q
  settled : Settled G apart g.nodePartition g.transitionPartition
  stable : Stable G g.nodePartition g.transitionPartition g.nextTransitionSetToProcess

theorem foldl_markNode (nodes : List Nat) (g : FullGraphPartition) : nodes.foldl markNode g =
    { g with nodePartition := nodes.foldl markElementInCurrentGeneration g.nodePartition } := by
  induction nodes generalizing g with
  | nil => rfl
  | cons node nodes ih =>
    rw [foldl_cons,ih]
    rfl

private theorem foldl_markSources (l : List Nat) (g : FullGraphPartition) :
    l.foldl (fun g tr => g.markNode (g.flattenedTransitions tr)) g =
      (l.map g.flattenedTransitions).foldl markNode g := by
  induction l generalizing g with
  | nil => rfl
  | cons t l ih =>
    rw [foldl_cons,ih]
    rfl

/-- The marked sources are distinct, and apart from the nodes that are not marked. -/
theorem markSources_spec (hG : G.Separates apart) (h : LoopInvariant G apart alike g)
    (hnx : g.nextTransitionSetToProcess < g.transitionPartition.size) :
    let nodes' := ((g.transitionPartition.elementsOfSet g.nextTransitionSetToProcess).map g.flattenedTransitions).foldl
      markElementInCurrentGeneration g.nodePartition
    nodes'.Valid G.nodes nodes'.setsMarkedInCurrentGeneration ∧ (∀ x, nodes'.setIndex x = g.nodePartition.setIndex x) ∧
      (∀ p < G.nodes, (nodes'.Marked p ↔ ∃ t < G.transitions, G.source t = p ∧
        g.transitionPartition.setIndex t = g.nextTransitionSetToProcess)) ∧ Justified G apart nodes' := by
  obtain ⟨hf,-,⟨hn,hun,hT,htn,hc⟩,-⟩ := h
  have hmm : ∀ t, t ∈ g.transitionPartition.elementsOfSet g.nextTransitionSetToProcess ↔ _ :=
    fun t => hT.mem_elementsOfSet_iff hnx
  have hnt : ∀ x < G.nodes, ¬g.nodePartition.Marked x := fun x hx => (hun ▸ hn).not_marked hx
  have hnd : ((g.transitionPartition.elementsOfSet g.nextTransitionSetToProcess).map g.flattenedTransitions).Nodup := by
    refine List.Nodup.map_on ?_ (hT.nodup_elementsOfSet hnx)
    intro t ht u hu heq
    obtain ⟨ht,hts⟩ := (hmm t).1 ht
    obtain ⟨hu,hus⟩ := (hmm u).1 hu
    rw [hf.source_eq t ht,hf.source_eq u hu] at heq
    exact G.deterministic t ht u hu heq (hc.symbol_eq t ht u hu (hts.trans hus.symm))
  have hsr : ∀ p, p ∈ (g.transitionPartition.elementsOfSet g.nextTransitionSetToProcess).map g.flattenedTransitions ↔
      ∃ t < G.transitions, G.source t = p ∧ g.transitionPartition.setIndex t = g.nextTransitionSetToProcess := by
    intro p
    rw [mem_map]
    constructor
    · rintro ⟨t,ht,rfl⟩
      obtain ⟨ht,hts⟩ := (hmm t).1 ht
      exact ⟨t,ht,(hf.source_eq t ht).symm,hts⟩
    · rintro ⟨t,ht,rfl,hts⟩
      exact ⟨t,(hmm t).2 ⟨ht,hts⟩,hf.source_eq t ht⟩
  have hl : ∀ e ∈ (g.transitionPartition.elementsOfSet g.nextTransitionSetToProcess).map g.flattenedTransitions,
      e < G.nodes ∧ ¬g.nodePartition.Marked e := by
    intro e he
    obtain ⟨t,ht,rfl,-⟩ := (hsr e).1 he
    exact ⟨G.source_lt t ht,hnt _ (G.source_lt t ht)⟩
  obtain ⟨hv,-,hst,hm⟩ := markAll_spec hn _ hnd hl
  have hmr : ∀ p < G.nodes, _ := fun p hp => (hm p hp).trans ((or_iff_right (hnt p hp)).trans (hsr p))
  refine ⟨hv,hst,hmr,?_⟩
  intro p hp q hq heq hmp hmq
  obtain ⟨t,ht,rfl,hts⟩ := (hmr p hp).1 hmp
  apply hG.step q hq t ht
  intro u hu huq hsy
  refine hc.targets_apart t ht u hu hsy.symm fun hs => hmq ((hmr q hq).2 ?_)
  exact ⟨u,hu,huq,hs.symm.trans hts⟩

/-- Refining by the sources of a set makes the nodes stable for it. -/
theorem Stable.next {nodes'' T' : Partition} {next : Nat} (h : Stable G nodes T next)
    (hn : next < T.size) (hcn : Consistent G apart nodes T) (hst : ∀ x, nodes'.setIndex x = nodes.setIndex x)
    (hmr : ∀ p < G.nodes, (nodes'.Marked p ↔ ∃ t < G.transitions, G.source t = p ∧ T.setIndex t = next))
    (hr : nodes'.Refines G.nodes nodes'') (hf : Finer G.transitions T T') : Stable G nodes'' T' (next+1) := by
  intro p hp q hq he t ht htp hl
  obtain ⟨hs,hm⟩ := (hr.same_iff p hp q hq).1 he
  rw [hst,hst] at hs
  have htl : T'.setIndex t = T.setIndex t := (hf.old_or_new t ht).resolve_right (by omega)
  rcases Nat.lt_or_ge (T.setIndex t) next with hb | hnw
  · obtain ⟨u,hu,huq,hsy,hc⟩ := h p hp q hq hs t ht htp hb
    refine ⟨u,hu,huq,hsy,?_⟩
    rcases hf.old_or_new u hu with hul | hun
    · rw [hul,htl]
      rcases hc with he | hg
      · exact .inl he
      · refine .inr (Nat.lt_of_le_of_ne hg fun he => ?_)
        -- A transition of the set that is processed now would make both nodes sources of it.
        obtain ⟨t',ht',htp',hts'⟩ := (hmr p hp).1 (hm.2 ((hmr q hq).2 ⟨u,hu,huq,he.symm⟩))
        have hsy' := hcn.symbol_eq t' ht' u hu (hts'.trans he)
        obtain rfl := G.deterministic t' ht' t ht (htp'.trans htp.symm) (hsy'.trans hsy)
        omega
    · exact .inr (by omega)
  · have hts : T.setIndex t = next := by omega
    obtain ⟨u,hu,huq,hus⟩ := (hmr q hq).1 (hm.1 ((hmr p hp).2 ⟨t,ht,htp,hts⟩))
    refine ⟨u,hu,huq,hcn.symbol_eq u hu t ht (hus.trans hts.symm),?_⟩
    rcases hf.old_or_new u hu with hul | hun
    · exact .inl (by rw [hul,htl,hus,hts])
    · exact .inr (by omega)

/-- One round: the nodes become stable for one more set. -/
theorem splitStep_spec {g' : FullGraphPartition} (hG : G.Separates apart) (h : LoopInvariant G apart alike g)
    (hsp : g.splitStep = .inl g') : LoopInvariant G apart alike g' ∧
      G.transitions - g'.nextTransitionSetToProcess < G.transitions - g.nextTransitionSetToProcess := by
  unfold splitStep at hsp
  split at hsp
  case isFalse => cases hsp
  case isTrue hnx =>
    rw [foldl_markSources,foldl_markNode] at hsp
    cases hsp
    obtain ⟨hv,hse,hm,hj⟩ := markSources_spec hG h hnx
    obtain ⟨hfl,ha,⟨hn,hu,hT,ht,hc⟩,hst⟩ := h
    generalize ((g.transitionPartition.elementsOfSet g.nextTransitionSetToProcess).map g.flattenedTransitions).foldl
      markElementInCurrentGeneration g.nodePartition = nodes' at *
    have hfl' : ({ g with nodePartition := nodes' } : FullGraphPartition).Flattens G :=
      ⟨hfl.source_eq,hfl.mem_incoming⟩
    have hc' : Consistent G apart nodes' g.transitionPartition := by
      refine ⟨hc.symbol_eq,?_,?_,hc.targets_apart⟩
      · simpa only [hse] using hc.target_eq
      · simpa only [hse] using hc.nodes_apart
    obtain ⟨hs,hr,hf⟩ := refinePartitions_spec hfl' hG.symm hv hT ht hc' hj
    have hsz := hT.size_le
    refine ⟨⟨⟨hfl.source_eq,hfl.mem_incoming⟩,?_,hs,?_⟩,?_⟩
    · intro p hp q hq he
      obtain ⟨ho,-⟩ := (hr.same_iff p hp q hq).1 he
      exact ha p hp q hq (by rw [← hse,← hse]; exact ho)
    · exact hst.next hnx hc hse hm hr hf
    · dsimp only
      omega

/-- The coarsest stable partition: nodes of one set are alike with transitions into the same sets, others are apart. -/
structure Coarsest (G : TransitionGraph) (apart alike : Nat → Nat → Prop) (nodes : Partition) : Prop where
  valid : ∃ markedSets, nodes.Valid G.nodes markedSets
  alike_of_same : ∀ p < G.nodes, ∀ q < G.nodes, nodes.setIndex p = nodes.setIndex q → alike p q
  step : ∀ p < G.nodes, ∀ q < G.nodes, nodes.setIndex p = nodes.setIndex q → ∀ t < G.transitions, G.source t = p →
    ∃ u < G.transitions, G.source u = q ∧ G.symbol u = G.symbol t ∧
      nodes.setIndex (G.target u) = nodes.setIndex (G.target t)
  apart_of_ne : ∀ p < G.nodes, ∀ q < G.nodes, nodes.setIndex p ≠ nodes.setIndex q → apart p q

/-- Using every set of transitions gives the coarsest stable partition. -/
theorem splitByUniqueTransitions_spec (hG : G.Separates apart)
    (h : LoopInvariant G apart alike g) {f : Nat} (hf : G.transitions < f) :
    ∃ g', g.splitByUniqueTransitions f = some g' ∧ Coarsest G apart alike g'.nodePartition := by
  refine loop_spec (I := LoopInvariant G apart alike) (fun g => G.transitions - g.nextTransitionSetToProcess)
    (fun g g' hI hs => splitStep_spec hG hI hs) ?_ f g h (by omega)
  intro g g' hI hs
  unfold splitStep at hs
  split at hs
  case isTrue => cases hs
  case isFalse hdn =>
    cases hs
    refine ⟨⟨_,hI.settled.nodes_valid⟩,hI.alike_of_same,?_,hI.settled.consistent.nodes_apart⟩
    intro p hp q hq he t ht htp
    have hl : ∀ u < G.transitions, g.transitionPartition.setIndex u < g.nextTransitionSetToProcess := by
      intro u hu
      have := hI.settled.transitions_valid.set_lt u hu
      omega
    obtain ⟨u,hu,huq,hsy,hc⟩ := hI.stable p hp q hq he t ht htp (hl t ht)
    have hsm := hc.resolve_right (Nat.not_le.2 (hl u hu))
    exact ⟨u,hu,huq,hsy,hI.settled.consistent.target_eq u hu t ht hsm⟩

end FullGraphPartition
end WebKit.ContentExtensions
