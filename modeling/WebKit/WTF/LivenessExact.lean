import Mathlib.Algebra.Order.BigOperators.Group.Finset
import WebKit.WTF.LivenessSweep

/-! The analysis ends, and the sets it ends with are those of the live indices. -/
namespace WebKit.WTF.Liveness
open List IndexSparseSet Function Bool

variable {cfg : CFG} {ad : Adapter} {block : Nat} {values : List Nat} {state state' state'' : State}

/-- Between visits, a block that is not dirty has everything at its head that its tail says. -/
structure Invariant (cfg : CFG) (adapter : Adapter) (state : State) : Prop where
  sorted : state.Sorted
  bound : ∀ block, ∀ x ∈ state.liveAtTail block, x < adapter.numIndices
  nodup : ∀ block, (state.liveAtHead block).Nodup
  live : ∀ block, ∀ x ∈ state.liveAtTail block, Live cfg adapter x (tail adapter block)
  through : ∀ block, ∀ x ∈ state.liveAtHead block, LiveThrough adapter block (state.liveAtTail block) x
  lateUses : ∀ block, cfg.node block = true → ∀ x ∈ adapter.uses block (adapter.blockSize block), x ∈ state.liveAtTail block
  clean : ∀ block, cfg.node block = true → state.dirtyBlocks block = false →
    ∀ x, LiveThrough adapter block (state.liveAtTail block) x → x ∈ state.liveAtHead block
  edge : ∀ block, cfg.node block = true → ∀ predecessor ∈ cfg.predecessors block, ∀ x ∈ state.liveAtHead block,
    x ∈ state.liveAtTail predecessor

/-- A visit of a dirty block: the values are what is new at its head. -/
structure Visited (cfg : CFG) (adapter : Adapter) (block : Nat) (values : List Nat) (state state' : State) : Prop where
  nodup : values.Nodup
  new : ∀ x, x ∈ values ↔ LiveThrough adapter block (state.liveAtTail block) x ∧ x ∉ state.liveAtHead block
  liveAtHead : state'.liveAtHead = update state.liveAtHead block (state.liveAtHead block ++ values)
  sorted : state'.Sorted
  mem : ∀ other x, x ∈ state'.liveAtTail other ↔ x ∈ state.liveAtTail other ∨ other ∈ cfg.predecessors block ∧ x ∈ values
  dirty : ∀ other, state'.dirtyBlocks other = true ↔
    (other ≠ block ∧ state.dirtyBlocks other = true) ∨ ∃ x ∈ state'.liveAtTail other, x ∉ state.liveAtTail other
  changed : state'.changed = true ↔
    state.changed = true ∨ ∃ other, ∃ x ∈ state'.liveAtTail other, x ∉ state.liveAtTail other

private theorem update_false_eq_true {ds : Nat → Bool} {other : Nat} :
    update ds block false other ↔ other ≠ block ∧ ds other := by
  by_cases he : other = block
  · simp [he]
  · simp [he]

/-- A clean block, or one that is no node, is left alone. -/
theorem visitBlock_spec (h : Invariant cfg ad state) (block : Nat) :
    ∃ state', visitBlock cfg ad state block = some state' ∧
      ((cfg.node block → state.dirtyBlocks block = false) ∧ state' = state ∨
        cfg.node block ∧ ∃ values, Visited cfg ad block values state state') := by
  rw [visitBlock]
  split_ifs with hnd hdr
  · exact ⟨state,rfl,.inl ⟨fun hnd' => (by rw [hnd] at hnd'; cases hnd'),rfl⟩⟩
  · exact ⟨state,rfl,.inl ⟨fun _ => hdr,rfl⟩⟩
  obtain ⟨hl,hm⟩ := localHead_spec ad state.workset (state.liveAtTail block) block
  obtain ⟨hf,hmf⟩ := discoveries_spec hl (h.nodup block)
    (fun x hx => (hm x).2 (h.through block x hx))
  dsimp only
  generalize discoveries (localHead ad state.workset (state.liveAtTail block) block) (state.liveAtHead block) = workset at *
  have hnw (x : Nat) : x ∈ workset.values ↔
      LiveThrough ad block (state.liveAtTail block) x ∧ x ∉ state.liveAtHead block := by
    rw [hmf,hm]
  rw [not_eq_false] at hnd
  split_ifs with he
  · have hn : workset.values = [] := length_eq_zero_iff.1 (beq_iff_eq.1 he)
    refine ⟨_,rfl,.inr ⟨hnd,workset.values,hf.nodup,hnw,?_,h.sorted,?_,?_,?_⟩⟩
    · rw [hn,append_nil,update_eq_self]
    · simp [hn]
    · simp [update_false_eq_true]
    · simp
  · have hne : workset.sort.values ≠ [] := by
      intro hn
      apply he
      have hln := congrArg List.length hn
      rw [sort,length_mergeSort,length_nil] at hln
      exact beq_iff_eq.2 hln
    have hsr : State.Sorted { state with
        workset := workset.sort
        dirtyBlocks := update state.dirtyBlocks block false
        liveAtHead := update state.liveAtHead block (state.liveAtHead block ++ workset.values) } := h.sorted
    obtain ⟨state',hv,hs⟩ := visitPredecessors_spec (cfg.predecessors block) hsr hf.sorted_sort hne
    refine ⟨state',hv,.inr ⟨hnd,workset.values,hf.nodup,hnw,hs.liveAtHead,hs.sorted,?_,?_,
      hs.changed⟩⟩
    · intro other x
      rw [hs.mem,mem_sort]
    · intro other
      rw [hs.dirty,update_false_eq_true]

namespace Visited

variable (h : Invariant cfg ad state) (hnd : cfg.node block) (hvs : Visited cfg ad block values state state')
include hvs

variable {other : Nat}

private theorem tail_subset : ∀ x ∈ state.liveAtTail other, x ∈ state'.liveAtTail other :=
  fun x hx => (hvs.mem other x).2 (.inl hx)

private theorem head_block : state'.liveAtHead block = state.liveAtHead block ++ values := by
  rw [hvs.liveAtHead,update_self]

private theorem head_other (ho : other ≠ block) : state'.liveAtHead other = state.liveAtHead other := by
  rw [hvs.liveAtHead,update_of_ne ho]

private theorem tail_subset_old (hdr : state'.dirtyBlocks other = false) :
    ∀ x ∈ state'.liveAtTail other, x ∈ state.liveAtTail other := by
  intro x hx
  by_contra ho
  rw [(hvs.dirty other).2 (.inr ⟨x,hx,ho⟩)] at hdr
  cases hdr

variable {x : Nat}

private theorem clean_block (hdr : state'.dirtyBlocks block = false)
    (hx : LiveThrough ad block (state'.liveAtTail block) x) : x ∈ state'.liveAtHead block := by
  rw [hvs.head_block,mem_append]
  by_cases ho : x ∈ state.liveAtHead block
  · exact .inl ho
  · exact .inr ((hvs.new x).2 ⟨hx.mono (hvs.tail_subset_old hdr),ho⟩)

include h

private theorem clean_other (ho : other ≠ block) (hn : cfg.node other)
    (hdr : state'.dirtyBlocks other = false) (hx : LiveThrough ad other (state'.liveAtTail other) x) :
    x ∈ state'.liveAtHead other := by
  have hc : state.dirtyBlocks other = false := by
    by_contra hol
    rw [(hvs.dirty other).2 (.inl ⟨ho,eq_true_of_not_eq_false hol⟩)] at hdr
    cases hdr
  rw [hvs.head_other ho]
  exact h.clean other hn hc x (hx.mono (hvs.tail_subset_old hdr))

private theorem through_old (hx : x ∈ state'.liveAtHead other) : LiveThrough ad other (state.liveAtTail other) x := by
  by_cases he : other = block
  · rw [he,hvs.head_block,mem_append] at hx
    rw [he]
    obtain hx | hx := hx
    · exact h.through block x hx
    · exact ((hvs.new x).1 hx).1
  · rw [hvs.head_other he] at hx
    exact h.through other x hx

include hnd

private theorem live_tail (hx : x ∈ state'.liveAtTail other) : Live cfg ad x (tail ad other) := by
  obtain hx | ⟨ho,hx⟩ := (hvs.mem other x).1 hx
  · exact h.live other x hx
  · have hs := (cfg.consistent other block (cfg.predecessor_node block other hnd ho) hnd).2 ho
    exact .of_step (.edge hs) id (((hvs.new x).1 hx).1.live (h.live block))

private theorem invariant : Invariant cfg ad state' where
  sorted := hvs.sorted
  bound other x hx := by
    obtain hx | ⟨-,hx⟩ := (hvs.mem other x).1 hx
    · exact h.bound other x hx
    · exact ((hvs.new x).1 hx).1.1.lt (h.bound block)
  nodup other := by
    by_cases he : other = block
    · rw [he,hvs.head_block]
      refine (h.nodup block).append hvs.nodup fun x ho hn => ?_
      exact ((hvs.new x).1 hn).2 ho
    · rw [hvs.head_other he]
      exact h.nodup other
  live _ _ := live_tail h hnd hvs
  through _ _ hx := (through_old h hvs hx).mono hvs.tail_subset
  lateUses other hno x hx := hvs.tail_subset x (h.lateUses other hno x hx)
  clean other hno hdr x hx := by
    by_cases he : other = block
    · subst he
      exact hvs.clean_block hdr hx
    · exact clean_other h hvs he hno hdr hx
  edge other hno predecessor hp x hx := by
    by_cases he : other = block
    · subst he
      rw [hvs.head_block,mem_append] at hx
      obtain hx | hx := hx
      · exact hvs.tail_subset x (h.edge other hnd predecessor hp x hx)
      · exact (hvs.mem predecessor x).2 (.inr ⟨hp,hx⟩)
    · rw [hvs.head_other he] at hx
      exact hvs.tail_subset x (h.edge other hno predecessor hp x hx)

end Visited

def total (cfg : CFG) (state : State) : Nat := ∑ block ∈ Finset.range cfg.numNodes, (state.liveAtTail block).length

private theorem Invariant.total_le (h : Invariant cfg ad state) : total cfg state ≤ cfg.numNodes*ad.numIndices := by
  have hl (block : Nat) : (state.liveAtTail block).length ≤ ad.numIndices := by
    have hs : state.liveAtTail block ⊆ List.range ad.numIndices := fun x hx => mem_range.2 (h.bound block x hx)
    have hle := ((h.sorted block).nodup.subperm hs).length_le
    rwa [length_range] at hle
  have hsm := Finset.sum_le_card_nsmul (Finset.range cfg.numNodes) _ ad.numIndices fun block _ => hl block
  rwa [Finset.card_range,Nat.nsmul_eq_mul] at hsm

/-- A change makes a tail grow, and without one the visited blocks are clean. -/
structure Progress (cfg : CFG) (blocks : List Nat) (state state' : State) : Prop where
  total_le : total cfg state ≤ total cfg state'
  changed : state.changed = true → state'.changed = true
  total_lt : state.changed = false → state'.changed = true → total cfg state < total cfg state'
  calm : state'.changed = false → ∀ block, state'.dirtyBlocks block = true →
    state.dirtyBlocks block = true ∧ (block ∈ blocks → cfg.node block = false)

private theorem Visited.progress (h : Invariant cfg ad state) (hnd : cfg.node block)
    (hvs : Visited cfg ad block values state state') : Progress cfg [block] state state' := by
  have hl (other : Nat) : (state.liveAtTail other).length ≤ (state'.liveAtTail other).length :=
    ((h.sorted other).nodup.subperm hvs.tail_subset).length_le
  refine ⟨Finset.sum_le_sum fun other _ => hl other,fun hc => hvs.changed.2 (.inl hc),?_,?_⟩
  · intro hs hc
    rw [hvs.changed,hs,or_iff_right Bool.false_ne_true] at hc
    obtain ⟨other,x,hx,hnw⟩ := hc
    have ho : cfg.node other := by
      obtain hol | ⟨hp,-⟩ := (hvs.mem other x).1 hx
      · exact absurd hol hnw
      · exact cfg.predecessor_node block other hnd hp
    refine Finset.sum_lt_sum (fun other _ => hl other) ⟨other,Finset.mem_range.2 (cfg.node_lt other ho),?_⟩
    have hn : (x :: state.liveAtTail other).Nodup := nodup_cons.2 ⟨hnw,(h.sorted other).nodup⟩
    exact (hn.subperm (cons_subset.2 ⟨hx,hvs.tail_subset⟩)).length_le
  · intro hs other hdr
    obtain ⟨ho,hol⟩ | hg := (hvs.dirty other).1 hdr
    · exact ⟨hol,fun hm => absurd (mem_singleton.1 hm) ho⟩
    · rw [hvs.changed.2 (.inr ⟨other,hg⟩)] at hs
      cases hs

private theorem Progress.append {bs bs' : List Nat} (h : Progress cfg bs state state')
    (h' : Progress cfg bs' state' state'') : Progress cfg (bs ++ bs') state state'' := by
  refine ⟨h.total_le.trans h'.total_le,fun hc => h'.changed (h.changed hc),?_,?_⟩
  · intro hs hc
    cases hm : state'.changed with
    | false => exact h.total_le.trans_lt (h'.total_lt hm hc)
    | true => exact (h.total_lt hs hm).trans_le h'.total_le
  · intro hs block hdr
    have hm : state'.changed = false := by
      by_contra hm
      rw [h'.changed (eq_true_of_not_eq_false hm)] at hs
      cases hs
    obtain ⟨hdr',hb'⟩ := h'.calm hs block hdr
    obtain ⟨hdr'',hb⟩ := h.calm hm block hdr'
    exact ⟨hdr'',fun hmm => (mem_append.1 hmm).elim hb hb'⟩

private theorem visitBlocks_spec (h : Invariant cfg ad state) (bs : List Nat) :
    ∃ state', bs.foldlM (visitBlock cfg ad) state = some state' ∧ Invariant cfg ad state' ∧
      Progress cfg bs state state' := by
  induction bs generalizing state with
  | nil =>
    refine ⟨state,rfl,h,le_rfl,id,fun hs hc => ?_,fun _ block hdr => ⟨hdr,nofun⟩⟩
    rw [hs] at hc
    cases hc
  | cons block bs ih =>
    obtain ⟨state₁,hv,hcs⟩ := visitBlock_spec h block
    have hf : Invariant cfg ad state₁ ∧ Progress cfg [block] state state₁ := by
      obtain ⟨hsk,rfl⟩ | ⟨hnd,values,hvs⟩ := hcs
      · refine ⟨h,le_rfl,id,fun hs hc => ?_,fun _ other hdr => ⟨hdr,fun ho => ?_⟩⟩
        · rw [hs] at hc
          cases hc
        · rw [mem_singleton] at ho
          by_contra hnd
          rw [ho,hsk (ho ▸ eq_true_of_not_eq_false hnd)] at hdr
          cases hdr
      · exact ⟨hvs.invariant h hnd,hvs.progress h hnd⟩
    obtain ⟨state₂,hr,hi,hp⟩ := ih hf.1
    refine ⟨state₂,?_,hi,hf.2.append hp⟩
    rw [foldlM_cons,hv]
    exact hr

private theorem sweep_spec (h : Invariant cfg ad state) : ∃ state', sweep cfg ad state = some state' ∧ Invariant cfg ad state' ∧
      Progress cfg (List.range cfg.numNodes).reverse { state with changed := false } state' := by
  have hs : Invariant cfg ad { state with changed := false } :=
    ⟨h.sorted,h.bound,h.nodup,h.live,h.through,h.lateUses,h.clean,h.edge⟩
  exact visitBlocks_spec hs _

private theorem invariant_initial (cfg : CFG) (ad : Adapter) (m : Nat → Nat) : Invariant cfg ad (initial cfg ad m) := by
  have hm {block x : Nat} (hx : x ∈ (initial cfg ad m).liveAtTail block) :
      x ∈ ad.uses block (ad.blockSize block) := by
    rw [initial] at hx
    dsimp only at hx
    split_ifs at hx
    · rwa [lateUses,mem_removeRepeatedElements,mem_mergeSort] at hx
    · cases hx
  refine ⟨fun block => ?_,fun block x hx => ?_,fun _ => nodup_nil,fun block x hx => ?_,nofun,?_,?_,nofun⟩
  · rw [initial]
    dsimp only
    split_ifs
    · exact sorted_removeRepeatedElements (pairwise_mergeSort' (· ≤ ·) _)
    · exact List.Pairwise.nil
  · exact ad.uses_lt block _ x (hm hx)
  · exact .of_use (hm hx)
  · intro block hnd x hx
    rw [initial]
    dsimp only
    rwa [if_pos hnd,lateUses,mem_removeRepeatedElements,mem_mergeSort]
  · intro block hnd hc
    exact absurd (cfg.node_lt block hnd) (of_decide_eq_false hc)

/-- When no block is dirty the sets are exact. -/
theorem Invariant.exact (h : Invariant cfg ad state)
    (hc : ∀ block, cfg.node block → state.dirtyBlocks block = false) (hnd : cfg.node block) (i : Nat) :
    (i ∈ state.liveAtHead block ↔ Live cfg ad i (head block)) ∧
      (i ∈ state.liveAtTail block ↔ Live cfg ad i (tail ad block)) := by
  have hcl : Closed cfg ad state.liveAtHead state.liveAtTail := by
    refine ⟨h.lateUses,fun block hnd => h.clean block hnd (hc block hnd),fun block hnd s hs => ?_⟩
    have hnd' := cfg.successor_node block s hnd hs
    exact h.edge s hnd' block ((cfg.consistent block s hnd hnd').1 hs)
  exact ⟨⟨fun hx => (h.through block i hx).live (h.live block),hcl.mem_head hnd⟩,
    h.live block i,hcl.mem_tail hnd⟩

private theorem round_inl (h : Invariant cfg ad state) (hr : round cfg ad state = .inl state') : Invariant cfg ad state' ∧
      cfg.numNodes*ad.numIndices - total cfg state' < cfg.numNodes*ad.numIndices - total cfg state := by
  obtain ⟨s,hs,hi,hp⟩ := sweep_spec h
  rw [round,hs] at hr
  dsimp only at hr
  split_ifs at hr with hc
  cases hr
  have hlt : total cfg state < total cfg state' := hp.total_lt rfl hc
  have hl := hi.total_le
  exact ⟨hi,by omega⟩

private theorem round_inr {r : Option State} (h : Invariant cfg ad state) (hr : round cfg ad state = .inr r) :
    ∃ state', r = some state' ∧ Invariant cfg ad state' ∧
      ∀ block, cfg.node block → state'.dirtyBlocks block = false := by
  obtain ⟨s,hs,hi,hp⟩ := sweep_spec h
  rw [round,hs] at hr
  dsimp only at hr
  split_ifs at hr with hc
  cases hr
  refine ⟨s,rfl,hi,fun block hnd => ?_⟩
  by_contra hdr
  have hcl := hp.calm (eq_false_of_not_eq_true hc) block (eq_true_of_not_eq_false hdr)
  rw [hcl.2 (mem_reverse.2 (mem_range.2 (cfg.node_lt block hnd)))] at hnd
  cases hnd

/-- Liveness analysis ends without a failed assertion, and an index is in the list of a head or a tail exactly when some path
from there reaches a use of it before any def of it. -/
theorem compute_exact (cfg : CFG) (adapter : Adapter) (memory : Nat → Nat) :
    ∃ state, (∀ rounds, cfg.numNodes*adapter.numIndices < rounds → compute cfg adapter memory rounds = some (some state)) ∧
      ∀ block, cfg.node block = true → (state.liveAtHead block).Nodup ∧ (state.liveAtTail block).Nodup ∧
        ∀ index, (index ∈ state.liveAtHead block ↔ Live cfg adapter index (head block)) ∧
          (index ∈ state.liveAtTail block ↔ Live cfg adapter index (tail adapter block)) := by
  obtain ⟨result,hr,state,rfl,hi,hc⟩ := Base.loop_spec _ (fun _ _ => round_inl) (fun _ _ => round_inr)
    (cfg.numNodes*adapter.numIndices+1) (initial cfg adapter memory) (invariant_initial cfg adapter memory) (by omega)
  refine ⟨state,fun rounds hrn => Base.loop_mono hrn hr,fun block hnd => ?_⟩
  exact ⟨hi.nodup block,(hi.sorted block).nodup,hi.exact hc hnd⟩

/-- Two blocks that follow each other in a loop. -/
def loopCFG : CFG where
  numNodes := 2
  node block := block < 2
  predecessors block := [1-block]
  successors block := [1-block]
  node_lt _ h := of_decide_eq_true h
  predecessor_node _ _ _ h := decide_eq_true (by rw [mem_singleton] at h; omega)
  successor_node _ _ _ h := decide_eq_true (by rw [mem_singleton] at h; omega)
  consistent _ _ h h' := by
    simp only [decide_eq_true_eq,mem_singleton] at *
    omega

/-- The first instruction of the first block uses the only index. -/
def loopAdapter : Adapter where
  numIndices := 1
  blockSize _ := 1
  defs _ _ := []
  uses block i := if block = 0 ∧ i = 0 then [0] else []
  uses_lt block i index h := by
    split_ifs at h
    · exact mem_singleton.1 h ▸ one_pos
    · cases h

/-- The index is live throughout the second block, whose end leads back to the use. -/
theorem compute_exact_loop : ∃ state, (∀ rounds, 2 < rounds → compute loopCFG loopAdapter id rounds = some (some state)) ∧
    0 ∈ state.liveAtHead 1 ∧ 0 ∈ state.liveAtTail 1 := by
  obtain ⟨state,hc,hl⟩ := compute_exact loopCFG loopAdapter id
  obtain ⟨-,-,hl⟩ := hl 1 rfl
  have hu : Live loopCFG loopAdapter 0 (.uses 0 0) := .of_use (mem_singleton_self 0)
  have ht : Live loopCFG loopAdapter 0 (tail loopAdapter 1) :=
    .of_step (.edge (mem_singleton_self 0)) not_false (.of_step (.boundary 0 0) not_mem_nil hu)
  have hh : Live loopCFG loopAdapter 0 (head 1) :=
    .of_step (.boundary 1 0) not_mem_nil (.of_step (.instruction one_pos) not_false (.of_step (.boundary 1 1) not_mem_nil ht))
  exact ⟨state,hc,(hl 0).1.2 hh,(hl 0).2.2 ht⟩

end WebKit.WTF.Liveness
