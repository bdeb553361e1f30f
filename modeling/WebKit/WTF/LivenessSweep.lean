import Mathlib.Data.List.Perm.Subperm
import WebKit.WTF.LivenessPaths

/-! The parts of one round: the local calculation, the discoveries at a head and their spread to the tails of the
predecessors. -/
namespace WebKit.WTF.Liveness
open Function List Nat

variable {cfg : CFG} {ad : Adapter} {block : Nat} {workset : IndexSparseSet} {liveAtHead liveAtTail : List Nat}

private theorem execute_spec {i : Nat} (hi : i < ad.blockSize block) (hw : workset.Coherent)
    (hm : ∀ x, x ∈ workset.values ↔ LiveBefore ad block liveAtTail x (i+1)) :
    (execute ad block workset i).Coherent ∧
      ∀ x, x ∈ (execute ad block workset i).values ↔ LiveBefore ad block liveAtTail x i := by
  obtain ⟨hr,hmr⟩ := hw.removeAll (ad.defs block (i+1))
  obtain ⟨ha,hma⟩ := hr.addAll (ad.uses block i)
  refine ⟨ha,fun x => ?_⟩
  rw [execute,hma,hmr,hm,liveBefore_lt hi,or_comm,and_comm]

private theorem executeAll_spec {i : Nat} (hi : i ≤ ad.blockSize block) (hw : workset.Coherent)
    (hm : ∀ x, x ∈ workset.values ↔ LiveBefore ad block liveAtTail x i) :
    ((range i).reverse.foldl (execute ad block) workset).Coherent ∧
      ∀ x, x ∈ ((range i).reverse.foldl (execute ad block) workset).values ↔ LiveBefore ad block liveAtTail x 0 := by
  induction i generalizing workset with
  | zero => exact ⟨hw,hm⟩
  | succ i ih =>
    rw [range_succ,reverse_concat,foldl_cons]
    obtain ⟨he,hme⟩ := execute_spec hi hw hm
    exact ih (le_of_succ_le hi) he hme

theorem localHead_spec (ad : Adapter) (workset : IndexSparseSet) (liveAtTail : List Nat) (block : Nat) :
    (localHead ad workset liveAtTail block).Coherent ∧
      ∀ x, x ∈ (localHead ad workset liveAtTail block).values ↔ LiveThrough ad block liveAtTail x := by
  obtain ⟨ht,hmt⟩ := IndexSparseSet.coherent_clear.addAll liveAtTail
  have hm (x : Nat) : x ∈ (localCalc workset liveAtTail).values ↔
      LiveBefore ad block liveAtTail x (ad.blockSize block) := by
    rw [liveBefore_size,localCalc,hmt,or_iff_right]
    exact not_mem_nil
  obtain ⟨he,hme⟩ := executeAll_spec le_rfl ht hm
  obtain ⟨hr,hmr⟩ := he.removeAll (ad.defs block 0)
  refine ⟨hr,fun x => ?_⟩
  rw [localHead,LiveThrough,← hme]
  exact hmr x

/-- Comparing the sizes shows that there is nothing new: what was known is still live. -/
theorem discoveries_spec (hw : workset.Coherent) (hn : liveAtHead.Nodup)
    (hk : ∀ x ∈ liveAtHead, x ∈ workset.values) :
    (discoveries workset liveAtHead).Coherent ∧
      ∀ x, x ∈ (discoveries workset liveAtHead).values ↔ x ∈ workset.values ∧ x ∉ liveAtHead := by
  rw [discoveries]
  split_ifs with hs
  · refine ⟨IndexSparseSet.coherent_clear,fun x => ⟨nofun,?_⟩⟩
    rintro ⟨hx,hnw⟩
    have hp := (hn.subperm hk).perm_of_length_le (le_of_eq hs)
    exact absurd (hp.mem_iff.2 hx) hnw
  · exact hw.removeAll liveAtHead

def State.Sorted (state : State) : Prop := ∀ block, (state.liveAtTail block).Pairwise (· < ·)

/-- The values are handed to the given blocks' tails, and blocks whose tails grow become dirty. -/
structure Spread (values blocks : List Nat) (state state' : State) : Prop where
  workset : state'.workset = state.workset
  liveAtHead : state'.liveAtHead = state.liveAtHead
  sorted : state'.Sorted
  mem : ∀ block x, x ∈ state'.liveAtTail block ↔ x ∈ state.liveAtTail block ∨ block ∈ blocks ∧ x ∈ values
  dirty : ∀ block, state'.dirtyBlocks block = true ↔
    state.dirtyBlocks block = true ∨ ∃ x ∈ state'.liveAtTail block, x ∉ state.liveAtTail block
  changed : state'.changed = true ↔
    state.changed = true ∨ ∃ block, ∃ x ∈ state'.liveAtTail block, x ∉ state.liveAtTail block

variable {values blocks blocks' : List Nat} {state state' state'' : State} {pred : Nat}

theorem Spread.nil (h : state.Sorted) : Spread values [] state state where
  workset := rfl
  liveAtHead := rfl
  sorted := h
  mem := by simp
  dirty := by simp
  changed := by simp

theorem Spread.tail_subset (h : Spread values blocks state state') {x : Nat} (hx : x ∈ state.liveAtTail block) :
    x ∈ state'.liveAtTail block := (h.mem block x).2 (.inl hx)

theorem Spread.append (h : Spread values blocks state state') (h' : Spread values blocks' state' state'') :
    Spread values (blocks ++ blocks') state state'' := by
  -- a tail that grows grows in one of the two parts
  have hg (block : Nat) : (∃ x ∈ state''.liveAtTail block, x ∉ state.liveAtTail block) ↔
      (∃ x ∈ state'.liveAtTail block, x ∉ state.liveAtTail block) ∨
        ∃ x ∈ state''.liveAtTail block, x ∉ state'.liveAtTail block := by
    constructor
    · rintro ⟨x,hx,ho⟩
      by_cases hm : x ∈ state'.liveAtTail block
      · exact .inl ⟨x,hm,ho⟩
      · exact .inr ⟨x,hx,hm⟩
    · rintro (⟨x,hx,ho⟩ | ⟨x,hx,ho⟩)
      · exact ⟨x,h'.tail_subset hx,ho⟩
      · exact ⟨x,hx,fun hx' => ho (h.tail_subset hx')⟩
  constructor
  · rw [h'.workset,h.workset]
  · rw [h'.liveAtHead,h.liveAtHead]
  · exact h'.sorted
  · intro block x
    rw [h'.mem,h.mem,mem_append,or_assoc,or_and_right]
  · intro block
    rw [h'.dirty,h.dirty,hg,or_assoc]
  · simp only [h'.changed,h.changed,hg,exists_or,or_assoc]

theorem Spread.update {l : List Nat} (hs : state.Sorted) (hl : l.Pairwise (· < ·))
    (hm : ∀ x, x ∈ l ↔ x ∈ state.liveAtTail pred ∨ x ∈ values)
    (hg : (state.liveAtTail pred).length < l.length) :
    Spread values [pred] state
      { state with
        liveAtTail := update state.liveAtTail pred l
        dirtyBlocks := update state.dirtyBlocks pred true
        changed := true } := by
  have hnw : ∃ x ∈ l, x ∉ state.liveAtTail pred := by
    by_contra hn
    have hsb : l ⊆ state.liveAtTail pred := by
      intro x hx
      by_contra ho
      exact hn ⟨x,hx,ho⟩
    exact Nat.not_le_of_lt hg (hl.nodup.subperm hsb).length_le
  refine ⟨rfl,rfl,fun block => ?_,fun block x => ?_,fun block => ?_,?_⟩
  · by_cases he : block = pred
    · rw [he]
      simpa only [update_self] using hl
    · simpa only [update_of_ne he] using hs block
  · by_cases he : block = pred
    · simp [he,hm]
    · simp [he]
  · by_cases he : block = pred
    · simpa [he] using .inr hnw
    · simp [he]
  · refine ⟨fun _ => .inr ⟨pred,?_⟩,fun _ => rfl⟩
    simpa only [update_self] using hnw

private theorem visitPredecessor_spec (hs : state.Sorted) (hv : state.workset.values.Pairwise (· < ·))
    (hn : state.workset.values ≠ []) (pred : Nat) :
    ∃ state', visitPredecessor state pred = some state' ∧ Spread state.workset.values [pred] state state' := by
  have ht := hs pred
  rw [visitPredecessor]
  dsimp only
  split_ifs with he hsm hb
  · rw [List.isEmpty_iff] at he
    refine ⟨_,rfl,.update hs hv (fun x => ?_) ?_⟩
    · rw [he,or_iff_right not_mem_nil]
    · rw [he]
      exact length_pos_of_ne_nil hn
  · refine ⟨state,rfl,rfl,rfl,hs,fun block x => ?_,by simp,by simp⟩
    have hsb : state.liveAtTail pred ⊆ mergeDeduplicatedSorted (state.liveAtTail pred) state.workset.values :=
      fun x hx => mem_mergeDeduplicatedSorted.2 (.inl hx)
    have hp := (ht.nodup.subperm hsb).perm_of_length_le (le_of_eq hsm)
    refine ⟨.inl,?_⟩
    rintro (hx | ⟨hbl,hx⟩)
    · exact hx
    · rw [mem_singleton.1 hbl]
      exact hp.mem_iff.2 (mem_mergeDeduplicatedSorted.2 (.inr hx))
  · exact ⟨_,rfl,.update hs (sorted_mergeDeduplicatedSorted ht hv) (fun x => mem_mergeDeduplicatedSorted) hb⟩
  · have hsb : state.liveAtTail pred ⊆ mergeDeduplicatedSorted (state.liveAtTail pred) state.workset.values :=
      fun x hx => mem_mergeDeduplicatedSorted.2 (.inl hx)
    have := (ht.nodup.subperm hsb).length_le
    omega

theorem visitPredecessors_spec (ps : List Nat) (hso : state.Sorted)
    (hv : state.workset.values.Pairwise (· < ·)) (hn : state.workset.values ≠ []) :
    ∃ state', ps.foldlM visitPredecessor state = some state' ∧
      Spread state.workset.values ps state state' := by
  induction ps generalizing state with
  | nil => exact ⟨state,rfl,.nil hso⟩
  | cons pred ps ih =>
    obtain ⟨state₁,hvs,hs⟩ := visitPredecessor_spec hso hv hn pred
    obtain ⟨state₂,hr,hsr⟩ := ih hs.sorted (by rwa [hs.workset]) (by rwa [hs.workset])
    rw [hs.workset] at hsr
    refine ⟨state₂,?_,hs.append hsr⟩
    rw [foldlM_cons,hvs]
    exact hr

end WebKit.WTF.Liveness
