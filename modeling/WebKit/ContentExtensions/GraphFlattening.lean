import WebKit.Base.Buckets
import WebKit.ContentExtensions.DFA
import WebKit.ContentExtensions.FullGraphPartition

/-! Numbering transitions: the characters are cut into ranges on which every node has one target, and the transitions sorted
by target and range. -/
namespace WebKit.ContentExtensions
open WebKit.Base MutableRangeList List Function Buckets ContentExtensions.Partition Nat
open Option hiding map_map mem_map

namespace FullGraphPartition

/-- Counts the nodes with a transition. -/
def counterConverter : DataConverter Nat Nat where
  convert _ := 1
  extend count _ := count + 1
  copy count := count

def singularTransitions (dfa : DFA) : List (MutableRange Nat) :=
  dfa.nodes.foldl (fun ranges node =>
    if node.isKilled then ranges else extend counterConverter ranges (node.transitions dfa)) []

/-- Skip to the singular range that starts with a transition. -/
def skipTo (first : Nat) : List Nat → Nat → List Nat × Nat
  | [], index => ([], index)
  | f::firsts, index => if f ≠ first then skipTo first firsts (index+1) else (f::firsts, index)

/-- The singular ranges up to the end of a transition. -/
def takeWithin (last target : Nat) : List Nat → Nat → List (Nat × Nat) × List Nat × Nat
  | [], index => ([], [], index)
  | f::firsts, index =>
    if f ≤ last then
      let (calls, rest) := takeWithin last target firsts (index+1)
      ((index, target) :: calls, rest)
    else ([], f::firsts, index)

/-- The handler's calls: each singular range inside a transition, with its target. -/
def intersectionsFrom : List (MutableRange Nat) → List Nat → Nat → List (Nat × Nat)
  | [], _, _ => []
  | transition::transitions, firsts, index =>
    let (firsts, index) := skipTo transition.first firsts index
    let (calls, firsts, next) := takeWithin transition.last transition.data firsts.tail (index+1)
    (index, transition.data) :: (calls ++ intersectionsFrom transitions firsts next)

def iterateIntersections (firsts : List Nat) (transitions : List (MutableRange Nat)) : List (Nat × Nat) :=
  intersectionsFrom transitions firsts 0

structure FlatTransition where
  source : Nat
  symbol : Nat
  target : Nat
  deriving DecidableEq, Repr

/-- All transitions in the order in which the nodes are visited. -/
def flatTransitions (dfa : DFA) (firsts : List Nat) : List FlatTransition :=
  dfa.nodes.zipIdx.flatMap fun (node, id) =>
    if node.isKilled then []
    else (iterateIntersections firsts (node.transitions dfa)).map fun (symbol, target) => ⟨id,symbol,target⟩

/-- The transition partition with one empty set for every singular range. -/
def addSets (p : Partition) (accumulator : Nat) : List (MutableRange Nat) → Partition
  | [] => p
  | range::ranges => addSets (p.addSetUnchecked accumulator range.data) (accumulator+range.data) ranges

structure Filling where
  sizePerNode : Nat → Nat := fun _ => 0
  flattened : Nat → Nat := fun _ => 0
  perRangeOffset : Nat → Nat := fun _ => 0
  partition : Partition

/-- Put a transition behind those with its target, and in the partition behind those with its symbol. -/
def Filling.add (startOffset : Nat → Nat) (s : Filling) (transition : FlatTransition) : Filling :=
  let position := startOffset transition.target + s.sizePerNode transition.target
  let positionInPartition := s.partition.startOffsetOfSet transition.symbol + s.perRangeOffset transition.symbol
  { sizePerNode := update s.sizePerNode transition.target (s.sizePerNode transition.target+1)
    flattened := update s.flattened position transition.source
    perRangeOffset := update s.perRangeOffset transition.symbol (s.perRangeOffset transition.symbol+1)
    partition := s.partition.setElementUnchecked position positionInPartition transition.symbol }

/-- The incoming transitions of each node one after the other, and a set of transitions for each singular range. The counters have
32 bits in the source, and wrap only where the tables cannot be allocated. -/
def ofDFA (dfa : DFA) : FullGraphPartition :=
  let singular := singularTransitions dfa
  let transitions := flatTransitions dfa (singular.map (·.first))
  -- Incoming transitions are counted first; the counts become offsets.
  let counts := transitions.foldl (fun counts transition =>
    update counts transition.target (counts transition.target+1)) (fun _ => 0)
  let startOffset := starts counts
  let filled := transitions.foldl (Filling.add startOffset) { partition := addSets {} 0 singular }
  { flattenedTransitionsStartOffsetPerNode := startOffset
    flattenedTransitionsSizePerNode := filled.sizePerNode
    flattenedTransitions := filled.flattened
    nodePartition := initializeWithSize dfa.nodes.length
    transitionPartition := filled.partition }

/-- The singular ranges inside a node's transitions, with the targets. -/
def covered (transitions : List (MutableRange Nat)) (firsts : List Nat) (index : Nat) : List (Nat × Nat) :=
  (firsts.zipIdx index).filterMap fun p => (dataAt transitions p.1).map fun target => (p.2, target)

private theorem skipTo_spec {fr : Nat} {fs : List Nat} (i : Nat) (hsr : fs.Pairwise (· < ·))
    (hm : fr ∈ fs) : ∃ b a, fs = b ++ fr :: a ∧ (∀ f ∈ b, f < fr) ∧
      skipTo fr fs i = (fr::a, i + b.length) := by
  induction fs generalizing i with
  | nil => cases hm
  | cons f fs ih =>
    obtain ⟨hf,hsr⟩ := pairwise_cons.1 hsr
    by_cases he : f = fr
    · exact ⟨[],fs,by rw [he,nil_append],by simp,by simp [skipTo,he]⟩
    · have hm' := (mem_cons.1 hm).resolve_left (Ne.symm he)
      obtain ⟨b,a,hs,hb,hsk⟩ := ih (i+1) hsr hm'
      refine ⟨f::b,a,by rw [hs,cons_append],?_,?_⟩
      · exact forall_mem_cons.2 ⟨hf fr hm',hb⟩
      · rw [skipTo,if_pos he,hsk,length_cons]
        congr 1
        omega

private theorem takeWithin_spec (ls tr : Nat) {fs : List Nat} (i : Nat) (hsr : fs.Pairwise (· < ·)) :
    ∃ w a, fs = w ++ a ∧ (∀ f ∈ w, f ≤ ls) ∧ (∀ f ∈ a, ls < f) ∧
      takeWithin ls tr fs i =
        ((w.zipIdx i).map (fun p => (p.2, tr)), a, i + w.length) := by
  induction fs generalizing i with
  | nil => exact ⟨[],[],rfl,by simp,by simp,rfl⟩
  | cons f fs ih =>
    obtain ⟨hf,hsr⟩ := pairwise_cons.1 hsr
    by_cases hl : f ≤ ls
    · obtain ⟨w,a,hs,hw,ha,htk⟩ := ih (i+1) hsr
      refine ⟨f::w,a,by rw [hs,cons_append],forall_mem_cons.2 ⟨hl,hw⟩,ha,?_⟩
      rw [takeWithin,if_pos hl,htk,zipIdx_cons,map_cons,length_cons]
      simp only [Prod.mk.injEq,true_and]
      omega
    · refine ⟨[],f::fs,rfl,by simp,?_,by rw [takeWithin,if_neg hl]; rfl⟩
      refine forall_mem_cons.2 ⟨Nat.lt_of_not_le hl,fun g hg => ?_⟩
      exact (Nat.lt_of_not_le hl).trans (hf g hg)

private theorem covered_append (trs : List (MutableRange Nat)) (l l' : List Nat) (i : Nat) :
    covered trs (l ++ l') i = covered trs l i ++ covered trs l' (i+l.length) := by
  rw [covered,zipIdx_append,filterMap_append]
  rfl

variable {l : List Nat} {trs : List (MutableRange Nat)}

private theorem covered_congr {trs' : List (MutableRange Nat)} (index : Nat)
    (h : ∀ f ∈ l, dataAt trs f = dataAt trs' f) : covered trs l index = covered trs' l index := by
  apply filterMap_congr
  intro p hm
  rw [h p.1 (fst_mem_of_mem_zipIdx hm)]

private theorem covered_eq_map {tr : Nat} (i : Nat) (h : ∀ f ∈ l, dataAt trs f = some tr) :
    covered trs l i = (l.zipIdx i).map fun p => (p.2, tr) := by
  rw [covered,← filterMap_eq_map]
  apply filterMap_congr
  intro p hm
  rw [h p.1 (fst_mem_of_mem_zipIdx hm)]
  rfl

private theorem covered_eq_nil (i : Nat) (h : ∀ f ∈ l, dataAt trs f = none) : covered trs l i = [] := by
  rw [covered,filterMap_eq_nil_iff]
  intro p hm
  rw [h p.1 (fst_mem_of_mem_zipIdx hm)]
  rfl

/-- The handler gets the singular ranges that a node has transitions on. -/
theorem intersectionsFrom_eq {fs : List Nat} {lw : Nat} (index : Nat)
    (hor : OrderedFrom lw trs) (hsr : fs.Pairwise (· < ·))
    (hfr : ∀ t ∈ trs, t.first ∈ fs) :
    intersectionsFrom trs fs index = covered trs fs index := by
  induction trs generalizing fs lw index with
  | nil => exact (covered_eq_nil index fun _ _ => rfl).symm
  | cons t trs ih =>
    obtain ⟨hl,hrn,hr⟩ := hor
    obtain ⟨hfi,ho⟩ := forall_mem_cons.1 hfr
    obtain ⟨b,after,hs,hbf,hsk⟩ := skipTo_spec index hsr hfi
    have hsr' := (pairwise_append.1 (hs ▸ hsr)).2.1
    obtain ⟨hg,hsr'⟩ := pairwise_cons.1 hsr'
    obtain ⟨w,rest,hs',hw,ha,htk⟩ :=
      takeWithin_spec t.last t.data (index+b.length+1) hsr'
    have hbl : ∀ f ∈ b, dataAt (t::trs) f = none := by
      intro f hf
      have := hbf f hf
      rw [dataAt,if_neg (by omega)]
      exact hr.dataAt_eq_none (by omega)
    have hi : ∀ f ∈ t.first::w, dataAt (t::trs) f = some t.data := by
      intro f hf
      refine if_pos ?_
      rcases mem_cons.1 hf with rfl | hf
      · exact ⟨le_rfl,hrn⟩
      · have hmm : f ∈ after := hs' ▸ mem_append_left _ hf
        exact ⟨le_of_lt (hg f hmm),hw f hf⟩
    have hb : ∀ f ∈ rest, dataAt (t::trs) f = dataAt trs f := by
      intro f hf
      have := ha f hf
      exact if_neg (by omega)
    have hfr' : ∀ u ∈ trs, u.first ∈ rest := by
      intro u hu
      have hmm := ho u hu
      have hlt : t.last < u.first := hr.le_first hu
      rw [hs,hs',mem_append,mem_cons,mem_append] at hmm
      rcases hmm with hm | hm | hm | hm
      · have := hbf _ hm
        omega
      · omega
      · have := hw _ hm
        omega
      · exact hm
    have hsr'' := (pairwise_append.1 (hs' ▸ hsr')).2.1
    have hc : covered (t::trs) fs index =
        ((t.first::w).zipIdx (index+b.length)).map (fun p => (p.2, t.data)) ++
          covered trs rest (index+b.length+1+w.length) := by
      rw [hs,hs',covered_append,covered_eq_nil _ hbl,nil_append,← cons_append,covered_append,
        covered_eq_map _ hi,covered_congr _ hb,length_cons]
      congr 2
      omega
    rw [intersectionsFrom,hsk]
    dsimp only [tail_cons]
    rw [htk,hc]
    rw [ih _ hr hsr'' hfr']
    rfl

/-- Cut at the bounds of all transitions, each with the number of nodes that have a transition on it. -/
structure Singular (nodes : List (List (MutableRange Nat))) (ranges : List (MutableRange Nat)) : Prop where
  ordered : OrderedFrom 0 ranges
  count : ∀ c, dataAt ranges c =
    if nodes.countP (fun transitions => (dataAt transitions c).isSome) = 0 then none
    else some (nodes.countP fun transitions => (dataAt transitions c).isSome)
  aligned : ∀ transitions ∈ nodes, ∀ r ∈ ranges, ∀ c, r.first ≤ c → c ≤ r.last →
    rangeAt transitions c = rangeAt transitions r.first

private theorem counterConverter_lawful : Lawful id counterConverter := ⟨fun _ => rfl,fun _ _ => rfl⟩

variable {nodes : List (List (MutableRange Nat))} {ranges : List (MutableRange Nat)}

theorem Singular.extend
    (h : Singular nodes ranges) (ht : OrderedFrom 0 trs) :
    Singular (nodes ++ [trs]) (extend counterConverter ranges trs) := by
  obtain ⟨hor,hdt⟩ := extend_spec counterConverter_lawful h.ordered ht
  refine ⟨hor,fun c => ?_,?_⟩
  · have hc := hdt c
    simp only [Option.map_id_fun,id_eq] at hc
    rw [hc,h.count c,countP_append,countP_singleton]
    generalize nodes.countP (fun trs => (dataAt trs c).isSome) = k
    cases dataAt trs c with
    | none =>
      rw [merged_none_right]
      simp
    | some tr =>
      by_cases hk : k = 0 <;> simp [hk,merged,counterConverter]
  · intro o ho r hr c h1 h2
    obtain ⟨hs,hnw⟩ := extend_aligned h.ordered ht hr h1 h2
    rcases mem_append.1 ho with hol | hls
    · -- The range lies inside an older range, or where no older node has a transition.
      cases ha : rangeAt ranges r.first with
      | some bs =>
        obtain ⟨r₀,hr₀,hf,hl,hb⟩ := mem_of_rangeAt ha
        obtain ⟨r₁,hr₁,hf₁,hl₁,hb₁⟩ := mem_of_rangeAt (hs.trans ha)
        have hls : r₁.last = r₀.last := congrArg Prod.snd (hb₁.symm.trans hb)
        rw [h.aligned o hol r₀ hr₀ c (by omega) (by omega),h.aligned o hol r₀ hr₀ r.first hf hl]
      | none =>
        have hn : ∀ x, rangeAt ranges x = none → rangeAt o x = none := by
          intro x hx
          have hcn := h.count x
          rw [rangeAt_eq_none_iff.1 hx] at hcn
          split at hcn
          next hz =>
            have := countP_eq_zero.1 hz o hol
            rw [rangeAt_eq_none_iff]
            simpa using this
          · cases hcn
        rw [hn r.first ha,hn c (hs.trans ha)]
    · rw [mem_singleton.1 hls]
      exact hnw

private theorem singular_foldl
    (hn : ∀ trs ∈ nodes, OrderedFrom 0 trs) :
    Singular nodes (nodes.foldl (extend counterConverter) []) := by
  induction nodes using reverseRecOn with
  | nil => exact ⟨trivial,fun _ => rfl,by simp⟩
  | append_singleton nodes trs ih =>
    have ho : ∀ ts ∈ nodes, OrderedFrom 0 ts := fun ts hts => hn ts (mem_append_left _ hts)
    rw [foldl_append]
    exact (ih ho).extend (hn trs (mem_append_right _ (mem_singleton.2 rfl)))

private theorem firsts_sorted {lw : Nat} (h : OrderedFrom lw ranges) : (ranges.map (·.first)).Pairwise (· < ·) := by
  induction ranges generalizing lw with
  | nil => exact .nil
  | cons rn ranges ih =>
    refine pairwise_cons.2 ⟨?_,ih h.2.2⟩
    intro f hf
    obtain ⟨r,hr,rfl⟩ := mem_map.1 hf
    exact h.2.1.trans_lt (h.2.2.le_first hr)

theorem Singular.first_mem
    (h : Singular nodes ranges) (hm : trs ∈ nodes)
    (ht : OrderedFrom 0 trs) {t : MutableRange Nat} (htm : t ∈ trs) :
    t.first ∈ ranges.map (·.first) := by
  have hl := ht.first_le_last htm
  have hp : nodes.countP (fun trs => (dataAt trs t.first).isSome) ≠ 0 := by
    intro hz
    have := countP_eq_zero.1 hz trs hm
    rw [ht.dataAt_of_mem htm le_rfl hl] at this
    exact this rfl
  have hdt := h.count t.first
  rw [if_neg hp] at hdt
  obtain ⟨r,hr,h1,h2,-⟩ := mem_of_dataAt hdt
  have ha := h.aligned trs hm r hr t.first h1 h2
  rw [ht.rangeAt_of_mem htm le_rfl hl] at ha
  obtain ⟨t',-,h1',-,hb⟩ := mem_of_rangeAt ha.symm
  have hf : t.first = t'.first := congrArg Prod.fst hb
  exact mem_map.2 ⟨r,hr,by omega⟩

theorem mem_covered {ind i target : Nat} : (i, target) ∈ covered trs l ind ↔
      ind ≤ i ∧ ∃ f, l[i - ind]? = some f ∧ dataAt trs f = some target := by
  unfold covered
  simp only [mem_filterMap,map_eq_some_iff,Prod.mk.injEq,mem_zipIdx_iff_le_and_getElem?_sub]
  constructor
  · rintro ⟨⟨f,k⟩,⟨hl,hg⟩,target',hdt,rfl,rfl⟩
    exact ⟨hl,f,hg,hdt⟩
  · rintro ⟨hl,f,hg,hdt⟩
    exact ⟨(f, i),⟨hl,hg⟩,target,hdt,rfl,rfl⟩

theorem covered_pairwise (trs : List (MutableRange Nat)) (l : List Nat) (i : Nat) :
    (covered trs l i).Pairwise (fun a b => a.1 ≠ b.1) := by
  have hs : (l.zipIdx i).Pairwise (fun a b => a.2 ≠ b.2) := by
    have hn : ((l.zipIdx i).map Prod.snd).Nodup := by
      rw [zipIdx_map_snd]
      exact nodup_range'
    exact pairwise_map.1 hn
  refine pairwise_filterMap.2 (hs.imp ?_)
  intro a b hne x hx y hy
  obtain ⟨-,-,rfl⟩ := map_eq_some_iff.1 hx
  obtain ⟨-,-,rfl⟩ := map_eq_some_iff.1 hy
  exact hne

private theorem count_covered (trs : List (MutableRange Nat)) (ind i : Nat) {f : Nat} (hg : l[i]? = some f) :
    ((covered trs l ind).map Prod.fst).count (ind+i) = if (dataAt trs f).isSome then 1 else 0 := by
  have hn : ((covered trs l ind).map Prod.fst).Nodup := pairwise_map.2 (covered_pairwise trs l ind)
  cases hdt : dataAt trs f with
  | none =>
    rw [if_neg (by simp),count_eq_zero]
    intro hm
    obtain ⟨⟨i',tr⟩,hm,he⟩ := mem_map.1 hm
    subst he
    obtain ⟨-,f',hg',hdt'⟩ := mem_covered.1 hm
    rw [Nat.add_sub_cancel_left,hg] at hg'
    rw [← some.inj hg',hdt] at hdt'
    cases hdt'
  | some tr =>
    apply count_eq_one_of_mem hn
    refine mem_map.2 ⟨(ind + i, tr),mem_covered.2 ⟨le_add_right _ _,f,?_,hdt⟩,rfl⟩
    rw [Nat.add_sub_cancel_left]
    exact hg

section
variable {dfa : DFA}

/-- What the numbering relies on: ranges that lead to nodes, and no killed node. -/
structure Minimizable (dfa : DFA) : Prop extends dfa.WellFormed where
  live : ∀ node ∈ dfa.nodes, node.isKilled = false

theorem ordered_of_mem (h : dfa.WellFormed) {node : DFANode} (hn : node ∈ dfa.nodes) :
    OrderedFrom 0 (node.transitions dfa) := by
  obtain ⟨i,hi,rfl⟩ := getElem_of_mem hn
  have ho := h.ordered i
  rwa [DFA.transitionsOf,DFA.node_of_getElem? (getElem?_eq_getElem hi)] at ho

theorem singularTransitions_spec (h : Minimizable dfa) :
    Singular (dfa.nodes.map fun node => node.transitions dfa) (singularTransitions dfa) := by
  have hf : singularTransitions dfa =
      (dfa.nodes.map fun node => node.transitions dfa).foldl (extend counterConverter) [] := by
    rw [foldl_map]
    apply foldl_ext
    intro ranges node hn
    rw [h.live node hn,if_neg Bool.false_ne_true]
  rw [hf]
  apply singular_foldl
  intro trs htr
  obtain ⟨node,hn,rfl⟩ := mem_map.1 htr
  exact ordered_of_mem h.toWellFormed hn

def firsts (dfa : DFA) : List Nat := (singularTransitions dfa).map (·.first)

theorem flatTransitions_eq (h : Minimizable dfa) : flatTransitions dfa (firsts dfa) = dfa.nodes.zipIdx.flatMap fun p =>
      (covered (p.1.transitions dfa) (firsts dfa) 0).map fun c => ⟨p.2,c.1,c.2⟩ := by
  have hs := singularTransitions_spec h
  apply flatMap_congr
  intro p hp
  have hm := fst_mem_of_mem_zipIdx hp
  have ho := ordered_of_mem h.toWellFormed hm
  have hsr : (firsts dfa).Pairwise (· < ·) := firsts_sorted hs.ordered
  have hf : ∀ t ∈ p.1.transitions dfa, t.first ∈ firsts dfa :=
    fun t ht => hs.first_mem (mem_map.2 ⟨_,hm,rfl⟩) ho ht
  dsimp only
  rw [h.live _ hm,if_neg Bool.false_ne_true,iterateIntersections,intersectionsFrom_eq 0 ho hsr hf]

variable {t : FlatTransition}

theorem mem_flatTransitions (h : Minimizable dfa) : t ∈ flatTransitions dfa (firsts dfa) ↔
    t.source < dfa.nodes.length ∧ ∃ f, (firsts dfa)[t.symbol]? = some f ∧ dfa.next t.source f = some t.target := by
  rw [flatTransitions_eq h]
  simp only [mem_flatMap,mem_map]
  constructor
  · rintro ⟨⟨node,id⟩,hp,⟨s,tr⟩,hc,rfl⟩
    have hg := mem_zipIdx_iff_getElem?.1 hp
    obtain ⟨-,f,hf,hdt⟩ := mem_covered.1 hc
    refine ⟨(List.getElem?_eq_some_iff.1 hg).1,f,hf,?_⟩
    rw [DFA.next,DFA.transitionsOf,DFA.node_of_getElem? hg]
    exact hdt
  · rintro ⟨hlt,f,hf,hn⟩
    refine ⟨(dfa.nodes[t.source], t.source),mem_zipIdx_iff_getElem?.2 (getElem?_eq_getElem hlt),
      (t.symbol, t.target),mem_covered.2 ⟨zero_le _,f,hf,?_⟩,rfl⟩
    rwa [DFA.next,DFA.transitionsOf,DFA.node_of_getElem? (getElem?_eq_getElem hlt)] at hn

private theorem flatTransitions_pairwise (h : Minimizable dfa) :
    (flatTransitions dfa (firsts dfa)).Pairwise fun t u => ¬(t.source = u.source ∧ t.symbol = u.symbol) := by
  rw [flatTransitions_eq h,pairwise_flatMap]
  constructor
  · intro p _
    rw [pairwise_map]
    exact (covered_pairwise _ _ 0).imp fun hne he => hne he.2
  · have hs : dfa.nodes.zipIdx.Pairwise (fun a b => a.2 ≠ b.2) := by
      have hn : (dfa.nodes.zipIdx.map Prod.snd).Nodup := by
        rw [zipIdx_map_snd]
        exact nodup_range'
      exact pairwise_map.1 hn
    refine hs.imp ?_
    intro a b hne t ht u hu
    obtain ⟨c,-,rfl⟩ := mem_map.1 ht
    obtain ⟨c',-,rfl⟩ := mem_map.1 hu
    exact fun he => hne he.1

private theorem starts_cons (ss : Nat → Nat) (i : Nat) :
    starts ss (i+1) = ss 0 + starts (fun j => ss (j+1)) i := by
  induction i with
  | zero => simp [starts]
  | succ i ih => rw [starts,ih,starts,add_assoc]

private theorem sets_addSets_lt {p : Partition} {a : Nat} {ranges : List (MutableRange Nat)} {k : Nat}
    (hk : k < p.size) : (addSets p a ranges).sets k = p.sets k := by
  induction ranges generalizing p a with
  | nil => rfl
  | cons r ranges ih =>
    rw [addSets,ih (lt_succ_of_lt hk)]
    exact update_of_ne (Nat.ne_of_lt hk) _ _

/-- One set for every singular range, of the size in its data. -/
theorem marked_addSets (p : Partition) (a : Nat) (ranges : List (MutableRange Nat)) :
    (addSets p a ranges).setsMarkedInCurrentGeneration = p.setsMarkedInCurrentGeneration := by
  induction ranges generalizing p a with
  | nil => rfl
  | cons r ranges ih => exact ih _ _

theorem addSets_spec (p : Partition) (a : Nat) (ranges : List (MutableRange Nat)) :
    (addSets p a ranges).size = p.size + ranges.length ∧ ∀ i < ranges.length, (addSets p a ranges).sets (p.size+i) =
        ⟨a + starts (fun j => (ranges.map (·.data)).getD j 0) i,(ranges.map (·.data)).getD i 0,0⟩ := by
  induction ranges generalizing p a with
  | nil => exact ⟨rfl,by simp⟩
  | cons r ranges ih =>
    obtain ⟨hsz,hs⟩ := ih (p.addSetUnchecked a r.data) (a+r.data)
    have hsz' : (p.addSetUnchecked a r.data).size = p.size + 1 := rfl
    rw [addSets]
    refine ⟨by rw [hsz,hsz',length_cons]; omega,fun i hi => ?_⟩
    cases i with
    | zero =>
      rw [sets_addSets_lt (by omega)]
      exact update_self _ _ _
    | succ i =>
      rw [length_cons] at hi
      have hst := hs i (by omega)
      rw [hsz'] at hst
      rw [show p.size + (i+1) = p.size + 1 + i by omega,hst,starts_cons]
      simp [add_assoc]

private theorem count_symbols (h : Minimizable dfa) {i : Nat} {r : MutableRange Nat}
    (hi : (singularTransitions dfa)[i]? = some r) :
    ((flatTransitions dfa (firsts dfa)).map (·.symbol)).count i = r.data ∧ 0 < r.data := by
  have hs := singularTransitions_spec h
  have hm := mem_of_getElem? hi
  have hf : (firsts dfa)[i]? = some r.first := by
    rw [firsts,getElem?_map,hi]
    rfl
  have hdt := hs.count r.first
  rw [hs.ordered.dataAt_of_mem hm le_rfl (hs.ordered.first_le_last hm)] at hdt
  have hc : ∀ (nodes : List DFANode) (ind : Nat),
      (((nodes.zipIdx ind).flatMap fun p => (covered (p.1.transitions dfa) (firsts dfa) 0).map
          fun c => (⟨p.2,c.1,c.2⟩ : FlatTransition)).map (·.symbol)).count i =
        (nodes.map fun node => node.transitions dfa).countP (fun trs => (dataAt trs r.first).isSome) := by
    intro nodes
    induction nodes with
    | nil => exact fun _ => rfl
    | cons node nodes ih =>
      intro ind
      have hn := count_covered (node.transitions dfa) 0 i hf
      rw [zero_add] at hn
      rw [zipIdx_cons,flatMap_cons,map_append,count_append,ih,map_cons,countP_cons,map_map]
      rw [add_comm]
      exact congrArg _ hn
  rw [flatTransitions_eq h,hc]
  split at hdt
  · cases hdt
  next hne =>
    rw [some.inj hdt]
    exact ⟨rfl,pos_of_ne_zero hne⟩

/-- The tables when the first transitions are placed. -/
structure Filled (E : List FlatTransition) (initial : Partition) (m : Nat) (s : Filling) : Prop where
  sizePerNode : ∀ q, s.sizePerNode q = ((E.map (·.target)).take m).count q
  perRangeOffset : ∀ a, s.perRangeOffset a = ((E.map (·.symbol)).take m).count a
  sets : s.partition.sets = initial.sets
  size : s.partition.size = initial.size
  marked : s.partition.setsMarkedInCurrentGeneration = initial.setsMarkedInCurrentGeneration
  flattened : ∀ k < m, ∀ t, E[k]? = some t → s.flattened (slot (E.map (·.target)) k) = t.source
  element : ∀ k < m, s.partition.partitionedElements (slot (E.map (·.symbol)) k) = slot (E.map (·.target)) k
  position : ∀ k < m, s.partition.elementPositionInPartitionedNodes (slot (E.map (·.target)) k) =
    slot (E.map (·.symbol)) k
  set : ∀ k < m, ∀ t, E[k]? = some t → s.partition.setIndex (slot (E.map (·.target)) k) = t.symbol

variable {E : List FlatTransition}

private theorem slot_map (key : FlatTransition → Nat) {m : Nat} (ht : E[m]? = some t) : slot (E.map key) m =
      starts (fun q => (E.map key).count q) (key t) + ((E.map key).take m).count (key t) := by
  have hg : (E.map key).getD m 0 = key t := by
    rw [getD_eq_getElem?_getD,getElem?_map,ht]
    rfl
  rw [slot,rank,hg]

private theorem count_take_succ (key : FlatTransition → Nat) {m : Nat} (ht : E[m]? = some t) (q : Nat) :
    ((E.map key).take (m+1)).count q = ((E.map key).take m).count q + if q = key t then 1 else 0 := by
  obtain ⟨hm,rfl⟩ := List.getElem?_eq_some_iff.1 ht
  rw [take_add_one,getElem?_map,getElem?_eq_getElem hm,count_append]
  by_cases hq : q = key E[m]
  · simp [hq]
  · simp [hq,Ne.symm hq]

theorem Filled.add {i : Partition} {m : Nat} {s : Filling} (h : Filled E i m s) (ht : E[m]? = some t)
    (hs : ∀ u ∈ E, (i.sets u.symbol).start = starts (fun q => (E.map (·.symbol)).count q) u.symbol) :
    Filled E i (m+1) (s.add (starts fun q => (E.map (·.target)).count q) t) := by
  obtain ⟨hm,-⟩ := List.getElem?_eq_some_iff.1 ht
  have htg : starts (fun q => (E.map (·.target)).count q) t.target + s.sizePerNode t.target =
      slot (E.map (·.target)) m := by rw [slot_map _ ht,h.sizePerNode]
  have hsy : s.partition.startOffsetOfSet t.symbol + s.perRangeOffset t.symbol = slot (E.map (·.symbol)) m := by
    rw [slot_map _ ht,h.perRangeOffset,startOffsetOfSet,h.sets,hs t (mem_of_getElem? ht)]
  have hn : ∀ key : FlatTransition → Nat, ∀ k < m, slot (E.map key) k ≠ slot (E.map key) m := by
    intro key k hk he
    have := slot_injective (by rw [length_map]; omega) (by rwa [length_map]) he
    omega
  unfold Filling.add setElementUnchecked
  rw [htg,hsy]
  refine ⟨fun q => ?_,fun a => ?_,h.sets,h.size,h.marked,?_,?_,?_,?_⟩
  · dsimp only
    rw [count_take_succ _ ht,update_apply,← h.sizePerNode q]
    split
    next he => rw [he]
    · rfl
  · dsimp only
    rw [count_take_succ _ ht,update_apply,← h.perRangeOffset a]
    split
    next he => rw [he]
    · rfl
  · refine Nat.forall_lt_succ_right.2 ⟨fun k hk u hu => ?_,fun u hu => ?_⟩
    · exact (update_of_ne (hn _ k hk) ..).trans (h.flattened k hk u hu)
    · exact some.inj (hu.symm.trans ht) ▸ update_self ..
  · refine Nat.forall_lt_succ_right.2 ⟨fun k hk => ?_,update_self ..⟩
    exact (update_of_ne (hn _ k hk) ..).trans (h.element k hk)
  · refine Nat.forall_lt_succ_right.2 ⟨fun k hk => ?_,update_self ..⟩
    exact (update_of_ne (hn _ k hk) ..).trans (h.position k hk)
  · refine Nat.forall_lt_succ_right.2 ⟨fun k hk u hu => ?_,fun u hu => ?_⟩
    · exact (update_of_ne (hn _ k hk) ..).trans (h.set k hk u hu)
    · exact some.inj (hu.symm.trans ht) ▸ update_self ..

private theorem filled_foldl {i : Partition}
    (hst : ∀ u ∈ E, (i.sets u.symbol).start = starts (fun q => (E.map (·.symbol)).count q) u.symbol) :
    Filled E i E.length (E.foldl (Filling.add (starts fun q => (E.map (·.target)).count q))
      { partition := i }) := by
  apply foldl_induction (Filled E i)
  · intro k t s ht hs
    exact hs.add ht hst
  · refine ⟨?_,?_,rfl,rfl,rfl,?_,?_,?_,?_⟩ <;> simp

/-- The transitions that are numbered, in the order in which they are found. -/
def found (dfa : DFA) : List FlatTransition := flatTransitions dfa (firsts dfa)

/-- The transition at a place among those sorted by target. -/
noncomputable def transitionAt (dfa : DFA) (t : Nat) : FlatTransition :=
  (found dfa).getD (Classical.epsilon fun k => k < (found dfa).length ∧ slot ((found dfa).map (·.target)) k = t) ⟨0,0,0⟩

variable {u : FlatTransition}

theorem transitionAt_slot {k : Nat} (hk : (found dfa)[k]? = some u) :
    transitionAt dfa (slot ((found dfa).map (·.target)) k) = u := by
  have hlt := (List.getElem?_eq_some_iff.1 hk).1
  have hs := Classical.epsilon_spec (p := fun j => j < (found dfa).length ∧
    slot ((found dfa).map (·.target)) j = slot ((found dfa).map (·.target)) k) ⟨k,hlt,rfl⟩
  have he := slot_injective (by rw [length_map]; exact hs.1) (by rwa [length_map]) hs.2
  rw [transitionAt,he,getD_eq_getElem?_getD,hk]
  rfl

theorem exists_transition {t : Nat} (ht : t < (found dfa).length) :
    ∃ k u, k < (found dfa).length ∧ (found dfa)[k]? = some u ∧ slot ((found dfa).map (·.target)) k = t ∧
      transitionAt dfa t = u := by
  obtain ⟨k,hk,rfl⟩ := @exists_slot ((found dfa).map (·.target)) t (by rwa [length_map])
  rw [length_map] at hk
  have hg := getElem?_eq_getElem hk
  exact ⟨k,_,hk,hg,rfl,transitionAt_slot hg⟩

theorem found_spec (h : Minimizable dfa) (hu : u ∈ found dfa) :
    u.source < dfa.nodes.length ∧ u.target < dfa.nodes.length ∧ u.symbol < (singularTransitions dfa).length := by
  obtain ⟨hs,f,hf,hn⟩ := (mem_flatTransitions h).1 hu
  obtain ⟨r,hr,-,-,hdt⟩ := mem_of_dataAt hn
  refine ⟨hs,hdt ▸ h.target_lt _ r hr,?_⟩
  have := (List.getElem?_eq_some_iff.1 hf).1
  rwa [firsts,length_map] at this

noncomputable def graph (h : Minimizable dfa) : TransitionGraph where
  nodes := dfa.nodes.length
  transitions := (found dfa).length
  source t := (transitionAt dfa t).source
  target t := (transitionAt dfa t).target
  symbol t := (transitionAt dfa t).symbol
  source_lt := by
    intro t ht
    obtain ⟨k,u,hlt,hk,-,hu⟩ := exists_transition ht
    rw [hu]
    exact (found_spec h (mem_of_getElem? hk)).1
  target_lt := by
    intro t ht
    obtain ⟨k,u,hlt,hk,-,hu⟩ := exists_transition ht
    rw [hu]
    exact (found_spec h (mem_of_getElem? hk)).2.1
  deterministic := by
    intro t ht t' ht' hsource hsymbol
    obtain ⟨k,u,hlt,hk,rfl,hu⟩ := exists_transition ht
    obtain ⟨k',u',hlt',hk',rfl,hu'⟩ := exists_transition ht'
    rw [hu,hu'] at hsource hsymbol
    obtain ⟨hlt,rfl⟩ := List.getElem?_eq_some_iff.1 hk
    obtain ⟨hlt',rfl⟩ := List.getElem?_eq_some_iff.1 hk'
    have hpairwise := pairwise_iff_getElem.1 (flatTransitions_pairwise h)
    rcases lt_trichotomy k k' with hkk | rfl | hkk
    · exact absurd ⟨hsource,hsymbol⟩ (hpairwise k k' hlt hlt' hkk)
    · rfl
    · exact absurd ⟨hsource.symm,hsymbol.symm⟩ (hpairwise k' k hlt' hlt hkk)

private theorem foldl_counts (E : List FlatTransition) (cs : Nat → Nat) :
    E.foldl (fun cs tr => update cs tr.target (cs tr.target+1)) cs =
      fun q => cs q + (E.map (·.target)).count q := by
  induction E generalizing cs with
  | nil => rfl
  | cons t E ih =>
    rw [foldl_cons,ih]
    funext q
    rw [update_apply,map_cons,count_cons]
    by_cases hq : q = t.target
    · subst hq
      simp
      omega
    · simp [hq,Ne.symm hq]

private theorem ofDFA_eq (dfa : DFA) : ofDFA dfa =
    let filled := (found dfa).foldl (Filling.add (starts fun q => ((found dfa).map (·.target)).count q))
      { partition := addSets {} 0 (singularTransitions dfa) }
    { flattenedTransitionsStartOffsetPerNode := starts fun q => ((found dfa).map (·.target)).count q
      flattenedTransitionsSizePerNode := filled.sizePerNode
      flattenedTransitions := filled.flattened
      nodePartition := initializeWithSize dfa.nodes.length
      transitionPartition := filled.partition } := by
  unfold ofDFA
  simp only [foldl_counts,zero_add]
  rfl

/-- The set of a singular range before the transitions are placed. -/
theorem sets_initial (h : Minimizable dfa) {i : Nat} (hi : i < (singularTransitions dfa).length) :
    (addSets {} 0 (singularTransitions dfa)).sets i =
      ⟨starts (fun q => ((found dfa).map (·.symbol)).count q) i,((found dfa).map (·.symbol)).count i,0⟩ ∧
      0 < ((found dfa).map (·.symbol)).count i := by
  have hdt : ∀ j < (singularTransitions dfa).length, ((singularTransitions dfa).map (·.data)).getD j 0 =
      ((found dfa).map (·.symbol)).count j ∧ 0 < ((found dfa).map (·.symbol)).count j := by
    intro j hj
    obtain ⟨hc,hp⟩ := count_symbols h (getElem?_eq_getElem hj)
    rw [getD_eq_getElem _ _ (by rwa [length_map]),getElem_map]
    exact ⟨hc.symm,hc ▸ hp⟩
  have hs : ∀ j ≤ (singularTransitions dfa).length,
      starts (fun j => ((singularTransitions dfa).map (·.data)).getD j 0) j =
        starts (fun q => ((found dfa).map (·.symbol)).count q) j := by
    intro j
    induction j with
    | zero => exact fun _ => rfl
    | succ j ih =>
      intro hj
      rw [starts,starts,ih (by omega),(hdt j (by omega)).1]
  have hst := (addSets_spec {} 0 (singularTransitions dfa)).2 i hi
  rw [hs i (le_of_lt hi),(hdt i hi).1] at hst
  simp only [zero_add] at hst
  exact ⟨hst,(hdt i hi).2⟩

theorem getD_key (key : FlatTransition → Nat) {k : Nat} (hk : (found dfa)[k]? = some u) :
    ((found dfa).map key).getD k 0 = key u := by
  rw [getD_eq_getElem?_getD,getElem?_map,hk]
  rfl

theorem bucket_le {key : FlatTransition → Nat} {n : Nat} (hky : ∀ u ∈ found dfa, key u < n) {q : Nat} (hq : q < n) :
    starts (fun q => ((found dfa).map key).count q) q + ((found dfa).map key).count q ≤ (found dfa).length := by
  have hl : starts (fun q => ((found dfa).map key).count q) n = ((found dfa).map key).length :=
    starts_eq_length (forall_mem_map.2 hky)
  rw [length_map] at hl
  rw [← hl]
  exact starts_le _ hq

/-- The sets of a filled partition are the buckets of the symbols. -/
theorem Filled.valid (h : Minimizable dfa) {s : Filling}
    (hs : Filled (found dfa) (addSets {} 0 (singularTransitions dfa)) (found dfa).length s) :
    s.partition.Valid (found dfa).length [] := by
  have hsz : s.partition.size = (singularTransitions dfa).length := by
    rw [hs.size,(addSets_spec {} 0 (singularTransitions dfa)).1]
    exact zero_add _
  have hst : ∀ i < (singularTransitions dfa).length, s.partition.sets i =
      ⟨starts (fun q => ((found dfa).map (·.symbol)).count q) i,((found dfa).map (·.symbol)).count i,0⟩ := by
    intro i hi
    rw [hs.sets,(sets_initial h hi).1]
  have hp : ∀ i < (found dfa).length, ∃ k u, (found dfa)[k]? = some u ∧ k < (found dfa).length ∧
      slot ((found dfa).map (·.symbol)) k = i := by
    intro i hi
    obtain ⟨k,hk,rfl⟩ := @exists_slot ((found dfa).map (·.symbol)) i (by rwa [length_map])
    rw [length_map] at hk
    exact ⟨k,_,getElem?_eq_getElem hk,hk,rfl⟩
  have hsl : ∀ (key : FlatTransition → Nat) {k : Nat}, k < (found dfa).length →
      slot ((found dfa).map key) k < (found dfa).length := by
    intro key k hk
    have := @slot_lt ((found dfa).map key) k (by rwa [length_map])
    rwa [length_map] at this
  refine ⟨⟨?_,?_,?_,?_⟩,?_,?_,?_,?_,?_,?_,?_,nodup_nil,?_⟩
  · intro e he
    obtain ⟨k,u,hlt,hk,rfl,-⟩ := exists_transition he
    rw [hs.position k hlt]
    exact hsl _ hlt
  · intro e he
    obtain ⟨k,u,hlt,hk,rfl,-⟩ := exists_transition he
    rw [hs.position k hlt,hs.element k hlt]
  · intro i hi
    obtain ⟨k,u,hk,hlt,rfl⟩ := hp i hi
    rw [hs.element k hlt]
    exact hsl _ hlt
  · intro i hi
    obtain ⟨k,u,hk,hlt,rfl⟩ := hp i hi
    rw [hs.element k hlt,hs.position k hlt]
  · intro e he
    obtain ⟨k,u,hlt,hk,rfl,-⟩ := exists_transition he
    rw [hs.set k hlt u hk,hsz]
    exact (found_spec h (mem_of_getElem? hk)).2.2
  · intro e he
    obtain ⟨k,u,hlt,hk,rfl,-⟩ := exists_transition he
    rw [hs.set k hlt u hk,hs.position k hlt,hst _ (found_spec h (mem_of_getElem? hk)).2.2]
    have := starts_le_slot ((found dfa).map (·.symbol)) k
    rwa [getD_key _ hk] at this
  · intro e he
    obtain ⟨k,u,hlt,hk,rfl,-⟩ := exists_transition he
    rw [hs.set k hlt u hk,hs.position k hlt,hst _ (found_spec h (mem_of_getElem? hk)).2.2]
    have := @slot_lt_starts ((found dfa).map (·.symbol)) k (by rwa [length_map])
    rwa [getD_key _ hk] at this
  · intro j hj
    rw [hsz] at hj
    rw [hst j hj]
    exact bucket_le (fun u hu => (found_spec h hu).2.2) hj
  · intro j hj i hf hl
    rw [hsz] at hj
    rw [hst j hj] at hf hl
    obtain ⟨k,u,hk,hlt,rfl⟩ := hp i (hl.trans_le (bucket_le (fun u hu => (found_spec h hu).2.2) hj))
    rw [hs.element k hlt,hs.set k hlt u hk,← getD_key (·.symbol) hk]
    exact key_of_slot (by rwa [length_map]) hf hl
  · intro j hj
    rw [hsz] at hj
    rw [hst j hj]
    exact (sets_initial h hj).2
  · intro j hj
    rw [hsz] at hj
    rw [hst j hj]
    exact zero_le _
  · intro j
    constructor
    · intro hj
      cases hj
    · rintro ⟨hj,hps⟩
      rw [hsz] at hj
      rw [hst j hj] at hps
      cases hps

/-- The tables of an automaton number its graph; the transitions are partitioned by symbol. -/
theorem ofDFA_spec (h : Minimizable dfa) : (ofDFA dfa).Flattens (graph h) ∧
    (ofDFA dfa).transitionPartition.Valid (graph h).transitions [] ∧
    (ofDFA dfa).transitionPartition.setsMarkedInCurrentGeneration = [] ∧
    (∀ t < (graph h).transitions, (ofDFA dfa).transitionPartition.setIndex t = (graph h).symbol t) ∧
    (ofDFA dfa).nodePartition = initializeWithSize (graph h).nodes ∧
    (ofDFA dfa).nextTransitionSetToProcess = 0 := by
  rw [ofDFA_eq]
  have hs : ∀ u ∈ found dfa, ((addSets {} 0 (singularTransitions dfa)).sets u.symbol).start =
      starts (fun q => ((found dfa).map (·.symbol)).count q) u.symbol := by
    intro u hu
    rw [(sets_initial h (found_spec h hu).2.2).1]
  have hfl := filled_foldl hs
  have hm : (addSets {} 0 (singularTransitions dfa)).setsMarkedInCurrentGeneration = [] :=
    marked_addSets {} 0 _
  generalize (found dfa).foldl _ _ = s at hfl
  refine ⟨⟨?_,?_⟩,hfl.valid h,hfl.marked.trans hm,?_,rfl,rfl⟩
  · intro t ht
    obtain ⟨k,u,hlt,hk,rfl,hu⟩ := exists_transition ht
    change s.flattened _ = (transitionAt dfa _).source
    rw [hu,hfl.flattened k hlt u hk]
  · intro node hn t
    have hsz : s.sizePerNode node = ((found dfa).map (·.target)).count node := by
      rw [hfl.sizePerNode,take_of_length_le (by rw [length_map])]
    unfold incomingTransitions
    rw [mem_range'_1]
    dsimp only
    rw [hsz]
    constructor
    · rintro ⟨hf,hl⟩
      have ht := hl.trans_le (bucket_le (fun u hu => (found_spec h hu).2.1) hn)
      refine ⟨ht,?_⟩
      obtain ⟨k,u,hlt,hk,rfl,hu⟩ := exists_transition ht
      change (transitionAt dfa _).target = node
      rw [hu,← getD_key (·.target) hk]
      refine key_of_slot ?_ hf hl
      rwa [length_map]
    · rintro ⟨ht,htg⟩
      obtain ⟨k,u,hlt,hk,rfl,hu⟩ := exists_transition ht
      have hky : ((found dfa).map (·.target)).getD k 0 = node := by
        rw [getD_key _ hk,← hu]
        exact htg
      rw [← hky]
      refine ⟨starts_le_slot _ _,slot_lt_starts ?_⟩
      rwa [length_map]
  · intro t ht
    obtain ⟨k,u,hlt,hk,rfl,hu⟩ := exists_transition ht
    change _ = (transitionAt dfa _).symbol
    rw [hu]
    exact hfl.set k hlt u hk

/-- The graph has the transitions on the first character of a singular range. -/
theorem next_first (h : Minimizable dfa) {i f : Nat} (hf : (firsts dfa)[i]? = some f) {n : Nat}
    (hn : n < dfa.nodes.length) (q : Nat) : dfa.next n f = some q ↔
      ∃ t < (graph h).transitions, (graph h).source t = n ∧ (graph h).symbol t = i ∧ (graph h).target t = q := by
  constructor
  · intro hnx
    obtain ⟨k,hk⟩ := getElem?_of_mem ((mem_flatTransitions h (t := ⟨n,i,q⟩)).2 ⟨hn,f,hf,hnx⟩)
    have hs := @slot_lt ((found dfa).map (·.target)) k (by
      rw [length_map]
      exact (List.getElem?_eq_some_iff.1 hk).1)
    rw [length_map] at hs
    have ha := transitionAt_slot hk
    exact ⟨_,hs,congrArg (·.source) ha,congrArg (·.symbol) ha,congrArg (·.target) ha⟩
  · rintro ⟨t,ht,hsr,hsy,htg⟩
    obtain ⟨k,u,hlt,hk,-,hu⟩ := exists_transition ht
    obtain ⟨-,f',hf',hnx⟩ := (mem_flatTransitions h).1 (mem_of_getElem? hk)
    change (transitionAt dfa t).source = n at hsr
    change (transitionAt dfa t).symbol = i at hsy
    change (transitionAt dfa t).target = q at htg
    rw [hu] at hsr hsy htg
    rw [hsy,hf] at hf'
    rw [← some.inj hf',hsr,htg] at hnx
    exact hnx

private theorem transitions_mem {n : Nat} (hn : n < dfa.nodes.length) :
    dfa.transitionsOf n ∈ dfa.nodes.map fun node => node.transitions dfa :=
  mem_map.2 ⟨_,DFA.node_mem hn,rfl⟩

section
variable (h : Minimizable dfa)
include h

/-- A character with a transition stands for a symbol. -/
theorem exists_symbol {p c q : Nat} (hp : p < dfa.nodes.length) (hnx : dfa.next p c = some q) :
    ∃ i, ∀ n < dfa.nodes.length, ∀ q, dfa.next n c = some q ↔
      ∃ t < (graph h).transitions, (graph h).source t = n ∧ (graph h).symbol t = i ∧ (graph h).target t = q := by
  have hs := singularTransitions_spec h
  have hps : (dfa.nodes.map fun node => node.transitions dfa).countP
      (fun trs => (dataAt trs c).isSome) ≠ 0 := by
    intro hz
    have := countP_eq_zero.1 hz _ (transitions_mem hp)
    rw [DFA.next] at hnx
    rw [hnx] at this
    exact this rfl
  have hdt := hs.count c
  rw [if_neg hps] at hdt
  obtain ⟨r,hr,h1,h2,-⟩ := mem_of_dataAt hdt
  obtain ⟨i,hi⟩ := getElem?_of_mem hr
  have hf : (firsts dfa)[i]? = some r.first := by rw [firsts,getElem?_map,hi,map_some]
  refine ⟨i,fun n hn q => ?_⟩
  rw [← next_first h hf hn,DFA.next,DFA.next,
    (h.ordered n).dataAt_congr (hs.aligned _ (transitions_mem hn) r hr c h1 h2)]

theorem exists_character {t : Nat} (ht : t < (graph h).transitions) :
    ∃ c ≤ 127, ∀ n < dfa.nodes.length, ∀ q, dfa.next n c = some q ↔ ∃ u < (graph h).transitions,
      (graph h).source u = n ∧ (graph h).symbol u = (graph h).symbol t ∧ (graph h).target u = q := by
  obtain ⟨k,u,hlt,hk,-,hu⟩ := exists_transition ht
  obtain ⟨-,f,hf,hnx⟩ := (mem_flatTransitions h).1 (mem_of_getElem? hk)
  obtain ⟨r,hr,-,hl,-⟩ := mem_of_dataAt hnx
  refine ⟨f,hl.trans (h.last_le _ r hr),fun n hn q => ?_⟩
  change dfa.next n f = some q ↔ ∃ u < (graph h).transitions, (graph h).source u = n ∧
    (graph h).symbol u = (transitionAt dfa t).symbol ∧ (graph h).target u = q
  rw [hu,next_first h hf hn]

private theorem length_firsts : (firsts dfa).length ≤ 128 := by
  have hs := singularTransitions_spec h
  have hl : ∀ r ∈ singularTransitions dfa, r.last ≤ 127 := by
    intro r hr
    have hdt := hs.ordered.dataAt_of_mem hr (hs.ordered.first_le_last hr) le_rfl
    rw [hs.count] at hdt
    split at hdt
    case isTrue => cases hdt
    case isFalse hp =>
      obtain ⟨trs,hm,hsm⟩ := countP_pos_iff.1 (pos_of_ne_zero hp)
      obtain ⟨node,hn,rfl⟩ := mem_map.1 hm
      obtain ⟨tr,htg⟩ := isSome_iff_exists.1 hsm
      obtain ⟨rn,hrn,-,hle,-⟩ := mem_of_dataAt htg
      obtain ⟨i,hi⟩ := getElem?_of_mem hn
      refine hle.trans (h.last_le i rn ?_)
      rwa [DFA.transitionsOf,DFA.node_of_getElem? hi]
  rw [firsts,length_map]
  exact hs.ordered.length_le hl

theorem transitions_le : (graph h).transitions ≤ 128*dfa.nodes.length := by
  change (flatTransitions dfa (firsts dfa)).length ≤ _
  rw [flatTransitions_eq h,length_flatMap]
  have hl : ∀ p ∈ dfa.nodes.zipIdx, ((covered (p.1.transitions dfa) (firsts dfa) 0).map fun c =>
      (⟨p.2,c.1,c.2⟩ : FlatTransition)).length ≤ 128 := by
    intro p _
    rw [length_map,covered]
    refine (length_filterMap_le _ _).trans ?_
    rw [length_zipIdx]
    exact length_firsts h
  have hs := sum_le_card_nsmul (dfa.nodes.zipIdx.map fun p => ((covered (p.1.transitions dfa) (firsts dfa) 0).map
    fun c => (⟨p.2,c.1,c.2⟩ : FlatTransition)).length) 128 (forall_mem_map.2 hl)
  rw [length_map,length_zipIdx,nsmul_eq_mul,mul_comm] at hs
  exact hs

end

end

end FullGraphPartition
end WebKit.ContentExtensions
