import Mathlib.Data.Finset.Max
import WebKit.Base.Runs
import WebKit.IndexedDB.MemoryObjectStore

/-! Read-write transactions on in-memory object stores: what each operation logs, and how an
abort uses the log. -/
namespace WebKit.IndexedDB
open Finset

/-- A bound is none when its key is null. -/
structure IDBKeyRangeData (K : Type*) where
  isNull : Bool
  lowerKey : Option K
  upperKey : Option K
  lowerOpen : Bool
  upperOpen : Bool

/-- Record data, key numbers, and the injection of a generated key into a value. -/
structure DatabaseRules (K D J : Type*) extends ValueRules K D J where
  numberValue : Nat → K
  number : K → Option Int
  injectKey : K → Option D → Option D

structure IDBObjectStoreInfo where
  autoIncrement : Bool
  hasKeyPath : Bool

inductive ObjectStoreOverwriteMode where
  | noOverwrite | overwrite | overwriteForCursor
  deriving DecidableEq, Repr

/-- The key of a put request; only a store with a key generator takes an invalid one. -/
inductive RequestKey (K : Type*) (autoIncrement : Bool)
  | valid (key : K)
  | invalid (generates : autoIncrement = true)

/-- What the first clear of a store has taken from it. -/
structure ClearedStore (K D J : Type*) where
  keyValueMap : Option (K → Option (Option D))
  orderedKeys : Option (Finset K)
  indexes : List (MemoryIndex K J)

/-- What a transaction remembers of an object store. A key without a record is logged with a null buffer. -/
structure UndoLog (K D J : Type*) where
  originalValues : List (K × Option D)
  cleared : Option (ClearedStore K D J)
  originalKeyGenerator : Nat

/-- An object store with its transaction's log. -/
structure WrittenStore (K D J : Type*) where
  store : MemoryObjectStore K D J
  log : UndoLog K D J

variable {K D J : Type*} [LinearOrder K]

namespace IDBKeyRangeData

def only (key : K) : IDBKeyRangeData K := ⟨false,some key,some key,false,false⟩

def isExactlyOneKey (range : IDBKeyRangeData K) : Bool :=
  !range.isNull && !range.lowerOpen && !range.upperOpen && range.upperKey.isSome && range.lowerKey.isSome &&
    range.lowerKey = range.upperKey

end IDBKeyRangeData

namespace MemoryObjectStore

/-- The ordered keys from the lower bound of a range on. -/
def keysFromLower (store : MemoryObjectStore K D J) (range : IDBKeyRangeData K) : Finset K :=
  (store.orderedKeys.getD ∅).filter fun key =>
    range.lowerKey.all fun lower => lower < key || (!range.lowerOpen && lower = key)

/-- The first key from the lower bound on, if the upper bound admits it. -/
def lowestKeyWithRecordInRange (store : MemoryObjectStore K D J) (range : IDBKeyRangeData K) : Option K :=
  if store.keyValueStore.isNone then none
  else if range.isExactlyOneKey && range.lowerKey.any store.containsRecord then range.lowerKey
  else
    let lowest : Option K := (store.keysFromLower range).min
    lowest.filter fun key => range.upperKey.all fun upper => key < upper || (!range.upperOpen && key = upper)

end MemoryObjectStore

namespace UndoLog

def start (store : MemoryObjectStore K D J) : UndoLog K D J := ⟨[],none,store.keyGeneratorValue⟩

/-- Remember the first value of a key, unless the whole map has been saved. -/
def recordValueChanged (log : UndoLog K D J) (key : K) (value : Option (Option D)) : UndoLog K D J :=
  if log.cleared.isSome then log
  else if key ∈ log.originalValues.map Prod.fst then log
  else { log with originalValues := log.originalValues ++ [(key, value.join)] }

end UndoLog

namespace WrittenStore

def deleteRecord (written : WrittenStore K D J) (key : K) : WrittenStore K D J where
  store := written.store.deleteRecord key
  log := written.log.recordValueChanged key (written.store.records key)

def after (range : IDBKeyRangeData K) (key : K) : IDBKeyRangeData K := { range with lowerKey := some key, lowerOpen := true }

theorem isExactlyOneKey_after (range : IDBKeyRangeData K) (key : K) : (after range key).isExactlyOneKey = false := by
  simp [IDBKeyRangeData.isExactlyOneKey,after]

variable {store : MemoryObjectStore K D J} {range : IDBKeyRangeData K}

section
variable (hone : range.isExactlyOneKey = false)
include hone

theorem mem_keysFromLower_of_lowest {key : K}
    (h : store.lowestKeyWithRecordInRange range = some key) :
    key ∈ store.keysFromLower range := by
  simp only [MemoryObjectStore.lowestKeyWithRecordInRange,hone,Bool.false_and,Bool.false_eq_true,if_false] at h
  split_ifs at h
  exact mem_of_min (Option.filter_eq_some_iff.1 h).1

theorem mem_orderedKeys_of_lowest {key : K}
    (h : store.lowestKeyWithRecordInRange range = some key) :
    key ∈ store.orderedKeys.getD ∅ :=
  (mem_filter.1 (mem_keysFromLower_of_lowest hone h)).1

private theorem keysFromLower_card_lt {key : K}
    (h : store.lowestKeyWithRecordInRange range = some key) :
    ((store.deleteRecord key).keysFromLower (after range key)).card < (store.keysFromLower range).card := by
  have hky := mem_keysFromLower_of_lowest hone h
  have ho : (store.deleteRecord key).orderedKeys.getD ∅ ⊆ store.orderedKeys.getD ∅ := by
    rw [MemoryObjectStore.deleteRecord]
    split
    · exact subset_rfl
    · split_ifs
      · exact subset_rfl
      · cases store.orderedKeys <;> simp [erase_subset]
  apply card_lt_card
  rw [ssubset_iff_of_subset]
  · exact ⟨key,hky,by simp [MemoryObjectStore.keysFromLower,after]⟩
  · intro k hk
    obtain ⟨hm,hlt⟩ := mem_filter.1 hk
    obtain ⟨-,hb⟩ := mem_filter.1 hky
    refine mem_filter.2 ⟨ho hm,?_⟩
    replace hlt : key < k := by simpa [after] using hlt
    cases hl : range.lowerKey with
    | none => rfl
    | some l =>
      simp only [hl,Option.all_some,Bool.or_eq_true,decide_eq_true_eq,Bool.and_eq_true] at hb ⊢
      rcases hb with hb | hb
      · exact .inl (hb.trans hlt)
      · exact .inl (hb.2.trans_lt hlt)

end

/-- Delete the lowest record of a range, then go on behind it. -/
def deleteInRange (written : WrittenStore K D J) (range : IDBKeyRangeData K) (_hone : range.isExactlyOneKey = false) :
    WrittenStore K D J :=
  match _hkey : written.store.lowestKeyWithRecordInRange range with
  | none => written
  | some key => (written.deleteRecord key).deleteInRange (after range key) (isExactlyOneKey_after range key)
termination_by (written.store.keysFromLower range).card
decreasing_by exact keysFromLower_card_lt _hone _hkey

def deleteRange (written : WrittenStore K D J) (range : IDBKeyRangeData K) : WrittenStore K D J :=
  if hone : range.isExactlyOneKey then range.lowerKey.elim written written.deleteRecord
  else written.deleteInRange range (by simpa using hone)

/-- Only the first clear takes the maps; a later one is not remembered and finds them still in place. -/
def clear (written : WrittenStore K D J) : WrittenStore K D J :=
  if written.log.cleared.isSome then written
  else
    { store :=
        { written.store with
          keyValueStore := none
          orderedKeys := none
          indexes := written.store.indexes.map fun index => { index with records := none } }
      log :=
        { written.log with
          cleared := some ⟨written.store.keyValueStore,written.store.orderedKeys,written.store.indexes⟩ } }

end WrittenStore

section
variable (rules : DatabaseRules K D J)

/-- The keys 1 to 2 ^ 53 can be generated. -/
def maxGeneratedKeyValue : Nat := 0x20000000000000

namespace WrittenStore

def setKeyGeneratorValue (written : WrittenStore K D J) (keyNumber : Nat) : WrittenStore K D J :=
  { written with store := { written.store with keyGeneratorValue := keyNumber } }

/-- Move the generator behind a number key, given its integer part. -/
def maybeUpdateKeyGeneratorNumber (written : WrittenStore K D J) (newKeyNumber : Int) : WrittenStore K D J :=
  if newKeyNumber < written.store.keyGeneratorValue then written
  else written.setKeyGeneratorValue (newKeyNumber.toNat+1)

def storeRecord (written : WrittenStore K D J) (key : K) (value : Option D) : WrittenStore K D J × IDBError :=
  let deleted := written.deleteRange (.only key)
  let result := deleted.store.addRecord rules.toValueRules key value
  ({ deleted with store := result.1 }, result.2)

/-- A generated key is injected into the value. -/
def putOrAddUsedKey (info : IDBObjectStoreInfo) (written : WrittenStore K D J) (usedKey : K) (usedKeyIsGenerated : Bool)
    (value : Option D) (overwriteMode : ObjectStoreOverwriteMode) : WrittenStore K D J × IDBError :=
  if overwriteMode = .noOverwrite ∧ written.store.containsRecord usedKey then (written, some .constraintError)
  else if usedKeyIsGenerated && info.hasKeyPath then
    match rules.injectKey usedKey value with
    | none => (written, some .constraintError)
    | some injectedRecordValue => written.storeRecord rules usedKey (some injectedRecordValue)
  else written.storeRecord rules usedKey value

/-- A generated key number is taken back when the put fails. -/
def performPutOrAdd (info : IDBObjectStoreInfo) (written : WrittenStore K D J) (value : Option D)
    (overwriteMode : ObjectStoreOverwriteMode) : RequestKey K info.autoIncrement → WrittenStore K D J × IDBError
  | .invalid _ =>
    let keyNumber := written.store.keyGeneratorValue
    if maxGeneratedKeyValue < keyNumber then (written, some .constraintError)
    else
      let generated := written.setKeyGeneratorValue (keyNumber+1)
      let result := generated.putOrAddUsedKey rules info (rules.numberValue keyNumber) true value overwriteMode
      if result.2.isSome then (result.1.setKeyGeneratorValue keyNumber, result.2) else result
  | .valid key =>
    let result := written.putOrAddUsedKey rules info key false value overwriteMode
    if result.2.isSome || overwriteMode = .overwriteForCursor || !info.autoIncrement then result
    else (((rules.number key).elim result.1 result.1.maybeUpdateKeyGeneratorNumber), none)

end WrittenStore

inductive WriteRequest (K D : Type*) (autoIncrement : Bool)
  | putOrAdd (keyData : RequestKey K autoIncrement) (value : Option D) (overwriteMode : ObjectStoreOverwriteMode)
  | deleteRecord (range : IDBKeyRangeData K)
  | clearObjectStore

namespace WrittenStore

def perform (info : IDBObjectStoreInfo) (written : WrittenStore K D J) :
    WriteRequest K D info.autoIncrement → WrittenStore K D J
  | .putOrAdd keyData value overwriteMode => (written.performPutOrAdd rules info value overwriteMode keyData).1
  | .deleteRecord range => written.deleteRange range
  | .clearObjectStore => written.clear

/-- What a clear has saved is put back, but no saved map that is null. -/
def replayStart (written : WrittenStore K D J) : MemoryObjectStore K D J :=
  let store := { written.store with keyGeneratorValue := written.log.originalKeyGenerator }
  match written.log.cleared with
  | none => store
  | some ⟨some keyValueMap,orderedKeys,indexes⟩ =>
    { store with keyValueStore := some keyValueMap, orderedKeys := orderedKeys, indexes := indexes }
  | some ⟨none,_,indexes⟩ => { store with indexes := indexes }

/-- Put an original value back, whatever the insertion returns. -/
def restoreRecord (store : MemoryObjectStore K D J) (entry : K × Option D) : MemoryObjectStore K D J :=
  ((store.deleteRecord entry.1).addRecord rules.toValueRules entry.1 entry.2).1

/-- Put back what the log has, in the order of its table of original values. -/
def abort (order : Base.IterationOrder (K × Option D)) (written : WrittenStore K D J) : MemoryObjectStore K D J :=
  (order.visit written.log.originalValues).foldl (restoreRecord rules) written.replayStart

end WrittenStore
end

namespace ReadWriteTransaction
section
variable {ι : Type*} [DecidableEq ι] (rules : DatabaseRules K D J) (info : ι → IDBObjectStoreInfo)

abbrev Action (K D : Type*) (info : ι → IDBObjectStoreInfo) : Type _ := (i : ι) × WriteRequest K D (info i).autoIncrement

def start (stores : ι → MemoryObjectStore K D J) (i : ι) : WrittenStore K D J := ⟨stores i,.start (stores i)⟩

def step (state : ι → WrittenStore K D J) (action : Action K D info) : ι → WrittenStore K D J :=
  Function.update state action.1 ((state action.1).perform rules (info action.1) action.2)

def run (stores : ι → MemoryObjectStore K D J) (actions : List (Action K D info)) : ι → WrittenStore K D J :=
  actions.foldl (step rules info) (start stores)

end
end ReadWriteTransaction
end WebKit.IndexedDB
