import WebKit.Base.Loop
import WebKit.WTF.IndexSparseSet
import WebKit.WTF.SortedVector

/-! Liveness analysis over a control-flow graph. Boundaries lie between the instructions of a block, before the first and
after the last; there the adapter's defs happen, then its uses. -/
namespace WebKit.WTF
open IndexSparseSet Function

/-- Some indices below the number of nodes may have no node. -/
structure CFG where
  numNodes : Nat
  node : Nat → Bool
  predecessors : Nat → List Nat
  successors : Nat → List Nat
  node_lt : ∀ block, node block = true → block < numNodes
  predecessor_node : ∀ block predecessor, node block = true → predecessor ∈ predecessors block → node predecessor = true
  successor_node : ∀ block successor, node block = true → successor ∈ successors block → node successor = true
  consistent : ∀ block successor, node block = true → node successor = true →
    (successor ∈ successors block ↔ block ∈ predecessors successor)

structure Adapter where
  numIndices : Nat
  blockSize : Nat → Nat
  defs : Nat → Nat → List Nat
  uses : Nat → Nat → List Nat
  uses_lt : ∀ block instBoundaryIndex, ∀ index ∈ uses block instBoundaryIndex, index < numIndices

namespace Liveness

structure State where
  workset : IndexSparseSet
  liveAtHead : Nat → List Nat
  liveAtTail : Nat → List Nat
  dirtyBlocks : Nat → Bool
  changed : Bool

section
variable (cfg : CFG) (adapter : Adapter)

def execute (block : Nat) (workset : IndexSparseSet) (instIndex : Nat) : IndexSparseSet :=
  let workset := (adapter.defs block (instIndex+1)).foldl remove workset
  (adapter.uses block instIndex).foldl add workset

def localCalc (workset : IndexSparseSet) (liveAtTail : List Nat) : IndexSparseSet :=
  liveAtTail.foldl add workset.clear

/-- What is live at a block's head when the given list is live at its tail. -/
def localHead (workset : IndexSparseSet) (liveAtTail : List Nat) (block : Nat) : IndexSparseSet :=
  let workset := (List.range (adapter.blockSize block)).reverse.foldl (execute adapter block) (localCalc workset liveAtTail)
  (adapter.defs block 0).foldl remove workset

/-- Leave the values that are not yet known at the head. -/
def discoveries (workset : IndexSparseSet) (liveAtHead : List Nat) : IndexSparseSet :=
  if workset.size = liveAtHead.length then workset.clear
  else liveAtHead.foldl remove workset

/-- Hand the discoveries to a predecessor; none is a failed assertion. -/
def visitPredecessor (state : State) (predecessor : Nat) : Option State :=
  let liveAtTail := state.liveAtTail predecessor
  let update := fun (list : List Nat) =>
    { state with
      liveAtTail := update state.liveAtTail predecessor list
      dirtyBlocks := update state.dirtyBlocks predecessor true
      changed := true }
  if liveAtTail.isEmpty then some (update state.workset.values)
  else
    let mergeBuffer := mergeDeduplicatedSorted liveAtTail state.workset.values
    if mergeBuffer.length = liveAtTail.length then some state
    else if mergeBuffer.length > liveAtTail.length then some (update mergeBuffer)
    else none

def visitBlock (state : State) (block : Nat) : Option State :=
  if cfg.node block = false then some state
  else if state.dirtyBlocks block = false then some state
  else
    let workset := discoveries (localHead adapter state.workset (state.liveAtTail block) block) (state.liveAtHead block)
    let state := { state with workset := workset, dirtyBlocks := update state.dirtyBlocks block false }
    if workset.isEmpty then some state
    else
      let liveAtHead := state.liveAtHead block ++ workset.values
      let state := { state with
        workset := workset.sort
        liveAtHead := update state.liveAtHead block liveAtHead }
      (cfg.predecessors block).foldlM visitPredecessor state

def sweep (state : State) : Option State :=
  (List.range cfg.numNodes).reverse.foldlM (visitBlock cfg adapter) { state with changed := false }

/-- The uses after the last instruction of a block. -/
def lateUses (block : Nat) : List Nat :=
  removeRepeatedElements (adapter.uses block (adapter.blockSize block)).mergeSort

/-- The memory of the work set's table is not initialised. -/
def initial (memory : Nat → Nat) : State where
  workset := ⟨memory,[]⟩
  liveAtHead _ := []
  liveAtTail block := if cfg.node block then lateUses adapter block else []
  dirtyBlocks block := decide (block < cfg.numNodes)
  changed := true

def round (state : State) : State ⊕ Option State :=
  match sweep cfg adapter state with
  | none => .inr none
  | some state => if state.changed then .inl state else .inr (some state)

/-- A bound on the rounds; the inner option is none at a failed assertion. -/
def compute (memory : Nat → Nat) (rounds : Nat) : Option (Option State) :=
  Base.loop (round cfg adapter) rounds (initial cfg adapter memory)

end
end Liveness
end WebKit.WTF
