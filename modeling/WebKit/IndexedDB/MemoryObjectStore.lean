import Mathlib.Data.Finset.Lattice.Fold
import WebKit.IndexedDB.KeyOrder
import WebKit.IndexedDB.MemoryIndex

/-! In-memory object stores: records in a hash map beside their ordered keys, and the indexes
that every insertion and deletion keeps up to date. -/
namespace WebKit.IndexedDB
open List MemoryIndex Function
open Option hiding any_eq_true map_id' map_map

/-- Key data and what the script engine makes of record data: none for undefined and null. -/
structure ValueRules (K D J : Type*) extends KeyRules K where
  deserialize : D → Option J

/-- The maps are null until a record is added; the indexes stand in the order in which they are visited; a null buffer is none.
The hash map and the ordered set share the equality of keys. -/
structure MemoryObjectStore (K D J : Type*) where
  keyValueStore : Option (K → Option (Option D))
  orderedKeys : Option (Finset K)
  indexes : List (MemoryIndex K J)
  keyGeneratorValue : Nat

variable {K D J : Type*} [DecidableEq K]

namespace MemoryObjectStore

/-- The record map, empty when it is null. -/
def records (store : MemoryObjectStore K D J) : K → Option (Option D) := store.keyValueStore.getD fun _ => none

def containsRecord (store : MemoryObjectStore K D J) (key : K) : Bool := (store.records key).isSome

def deleteRecord (store : MemoryObjectStore K D J) (key : K) : MemoryObjectStore K D J :=
  match store.keyValueStore with
  | none => store
  | some keyValueStore =>
    if (keyValueStore key).isNone then store
    else
      { store with
        keyValueStore := some (update keyValueStore key none)
        orderedKeys := store.orderedKeys.map (·.erase key)
        indexes := store.indexes.map (·.removeEntriesWithValueKey key) }

variable (rules : ValueRules K D J)

/-- Put a value's index keys until one fails: the indexes, each with the index key that went through, and the error. -/
def putIndexKeys (key : K) (value : J) : List (MemoryIndex K J) → List (MemoryIndex K J × Option (List K)) × IDBError
  | [] => ([], none)
  | index::indexes =>
    let indexKey := index.info.keyPath value
    if indexKey = [] then
      let rest := putIndexKeys key value indexes
      ((index, none) :: rest.1, rest.2)
    else
      let result := index.putIndexKey rules.toKeyRules key indexKey
      if result.2.isSome then ((result.1, none) :: indexes.map (·, none), result.2)
      else
        let rest := putIndexKeys key value indexes
        ((result.1, some indexKey) :: rest.1, rest.2)

def revertIndexKey (key : K) : MemoryIndex K J × Option (List K) → MemoryIndex K J
  | (index, some indexKey) => index.removeRecord rules.toKeyRules key indexKey
  | (index, none) => index

def updateIndexesForPutRecord (indexes : List (MemoryIndex K J)) (key : K) (value : Option D) :
    List (MemoryIndex K J) × IDBError :=
  match value.bind rules.deserialize with
  | none => (indexes, none)
  | some value =>
    let result := putIndexKeys rules key value indexes
    if result.2.isSome then (result.1.map (revertIndexKey rules key), result.2)
    else (result.1.map Prod.fst, none)

def addRecord (store : MemoryObjectStore K D J) (key : K) (value : Option D) : MemoryObjectStore K D J × IDBError :=
  let keyValueStore := update store.records key (some value)
  let orderedKeys := insert key (store.orderedKeys.getD ∅)
  let result := updateIndexesForPutRecord rules store.indexes key value
  if result.2.isSome then
    ({ store with
       keyValueStore := some (update keyValueStore key none)
       orderedKeys := some (orderedKeys.erase key)
       indexes := result.1 }, result.2)
  else ({ store with keyValueStore := some keyValueStore, orderedKeys := some orderedKeys, indexes := result.1 }, none)

/-- The keys under which a record with the given value is filed. -/
def valueKeys (info : IDBIndexInfo K J) (value : Option D) : List K :=
  match value.bind rules.deserialize with
  | none => []
  | some value =>
    if info.keyPath value = [] then [] else filedKeys rules.toKeyRules info (info.keyPath value)

/-- The index already has a key of the value. -/
def violates (value : Option D) (index : MemoryIndex K J) : Bool :=
  index.info.unique && (valueKeys rules index.info value).any index.store.contains

/-- The pairs that an index holds for the given records. -/
def indexPairs (info : IDBIndexInfo K J) (records : K → Option (Option D)) (indexKey valueKey : K) : Prop :=
  ∃ value ∈ records valueKey, indexKey ∈ valueKeys rules info value

def KeysAgree (store : MemoryObjectStore K D J) : Prop :=
  ∀ key, key ∈ store.orderedKeys.getD ∅ ↔ store.containsRecord key

/-- The key map, the ordered keys and the indexes agree. -/
structure Consistent (store : MemoryObjectStore K D J) : Prop where
  mem_orderedKeys : store.KeysAgree
  holds : ∀ index ∈ store.indexes, index.store.Holds (indexPairs rules index.info store.records)

/-- Records, ordered keys and index records, an absent map being empty. -/
def content (store : MemoryObjectStore K D J) : (K → Option (Option D)) × Finset K × List (MemoryIndex K J) :=
  (store.records, store.orderedKeys.getD ∅, store.indexes.map withStore)

section
variable {rules : ValueRules K D J} {records : K → Option (Option D)}

/-- An index with a value filed, beside the index key. -/
def filed (rules : ValueRules K D J) (key : K) (value : J) (index : MemoryIndex K J) :
    MemoryIndex K J × Option (List K) :=
  let indexKey := index.info.keyPath value
  if indexKey = [] then (index, none)
  else
    (index.setStore (index.store.addRecords (filedKeys rules.toKeyRules index.info indexKey) key),
      some indexKey)

variable {data : Option D} {value : J} {index : MemoryIndex K J} {pairs : K → K → Prop}

theorem valueKeys_of_deserialize (h : data.bind rules.deserialize = some value) (i : IDBIndexInfo K J) :
    valueKeys rules i data =
      if i.keyPath value = [] then [] else filedKeys rules.toKeyRules i (i.keyPath value) := by
  rw [valueKeys,h]

variable (rules) in
theorem violates_iff (h : index.store.Holds pairs) (value : Option D) : violates rules value index ↔
      index.info.unique ∧ ∃ key ∈ valueKeys rules index.info value, ∃ p, pairs key p := by
  simp only [violates,Bool.and_eq_true,any_eq_true,IndexValueStore.contains,h.isSome_iff]

section
variable (hvl : data.bind rules.deserialize = some value) (key : K)
include hvl key

private theorem putIndexKeys_cons_of_not_violates (h : index.store.Holds pairs) (hf : violates rules data index = false)
    (indexes : List (MemoryIndex K J)) :
    putIndexKeys rules key value (index::indexes) =
      (filed rules key value index :: (putIndexKeys rules key value indexes).1,
        (putIndexKeys rules key value indexes).2) := by
  rw [putIndexKeys,filed]
  by_cases hn : index.info.keyPath value = []
  · simp only [hn,if_true]
  · have hcn : ¬ MemoryIndex.Conflicts rules.toKeyRules index.info pairs (index.info.keyPath value) := by
      intro hc
      have := (violates_iff rules h data).2 (by rwa [valueKeys_of_deserialize hvl,if_neg hn])
      simp [hf] at this
    simp only [hn,if_false,putIndexKey_of_not_conflicts h key hcn,isSome_none,
      Bool.false_eq_true]

private theorem putIndexKeys_cons_of_violates (h : index.store.Holds pairs) (hv : violates rules data index)
    (indexes : List (MemoryIndex K J)) :
    putIndexKeys rules key value (index::indexes) =
      ((index.setStore index.store, none) :: indexes.map (·, none), some .constraintError) := by
  have hc := (violates_iff rules h data).1 hv
  rw [valueKeys_of_deserialize hvl] at hc
  have hk : index.info.keyPath value ≠ [] := by
    intro hn
    simp [hn] at hc
  rw [if_neg hk] at hc
  rw [putIndexKeys]
  simp only [hk,if_false,putIndexKey_of_conflicts h key hc,isSome_some,if_true]

/-- Indexes that take the value come first and are filed. -/
theorem putIndexKeys_append
    {before : List (MemoryIndex K J)}
    (h : ∀ index ∈ before, ∃ pairs, index.store.Holds pairs)
    (hf : ∀ index ∈ before, violates rules data index = false) (after : List (MemoryIndex K J)) :
    putIndexKeys rules key value (before ++ after) =
      (before.map (filed rules key value) ++ (putIndexKeys rules key value after).1,
        (putIndexKeys rules key value after).2) := by
  induction before with
  | nil => rfl
  | cons index before ih =>
    obtain ⟨pairs,hp⟩ := h index mem_cons_self
    have hr := ih (fun i hi => h i (mem_cons_of_mem _ hi)) fun i hi => hf i (mem_cons_of_mem _ hi)
    rw [cons_append,putIndexKeys_cons_of_not_violates hvl key hp (hf index mem_cons_self),hr]
    rfl

end

end

section
variable {rules : ValueRules K D J} {store : MemoryObjectStore K D J}

variable {data value : Option D} {index : MemoryIndex K J} {pairs : K → K → Prop}
  {before after indexes : List (MemoryIndex K J)} {records : K → Option (Option D)} {store' : MemoryObjectStore K D J}

theorem not_pairs_of_not_violates {value : J} (hvl : data.bind rules.deserialize = some value)
    (h : index.store.Holds pairs) (hn : index.info.keyPath value ≠ []) (hf : violates rules data index = false)
    (hu : index.info.unique) :
    ∀ key ∈ filedKeys rules.toKeyRules index.info (index.info.keyPath value), ∀ p, ¬ pairs key p := by
  intro key hk p hp
  have hvk : key ∈ valueKeys rules index.info data := by rwa [valueKeys_of_deserialize hvl,if_neg hn]
  have hv := (violates_iff rules h data).2 ⟨hu,key,hvk,p,hp⟩
  simp [hf] at hv

private theorem revert_filed_iff {value : J} (hvl : data.bind rules.deserialize = some value)
    (key : K) (h : index.store.Holds pairs)
    (hf : violates rules data index = false) :
    (revertIndexKey rules key (filed rules key value index)).withStore = index.withStore ↔
      valueKeys rules index.info data = [] := by
  rw [valueKeys_of_deserialize hvl,filed]
  by_cases hn : index.info.keyPath value = []
  · simp only [hn,if_true,revertIndexKey]
  · rw [if_neg hn,if_neg hn,revertIndexKey,removeRecord_eq]
    exact (setStore_eq_withStore_iff _).trans (IndexValueStore.removeRecords_addRecords_eq_iff h
      (filedKeys_nodup _ _) (not_pairs_of_not_violates hvl h hn hf))

/-- The insertion stops at the first index that the value violates, and takes back what those before it had filed. -/
theorem updateIndexesForPutRecord_of_violates (h : ∀ index ∈ store.indexes, ∃ pairs, index.store.Holds pairs) (key : K)
    (hs : store.indexes = before ++ index::after) (hf : ∀ i ∈ before, violates rules data i = false)
    (hv : violates rules data index) :
    ∃ value, data.bind rules.deserialize = some value ∧ updateIndexesForPutRecord rules store.indexes key data =
        (before.map (fun i => revertIndexKey rules key (filed rules key value i)) ++
          index.setStore index.store :: after, some .constraintError) := by
  cases hvl : data.bind rules.deserialize with
  | none => simp [violates,valueKeys,hvl] at hv
  | some value =>
    rw [hs] at h
    obtain ⟨pairs,hp⟩ := h index (by simp)
    refine ⟨value,rfl,?_⟩
    rw [updateIndexesForPutRecord,hvl,hs]
    simp only [putIndexKeys_append hvl key (fun i hi => h i (mem_append_left _ hi)) hf,
      putIndexKeys_cons_of_violates hvl key hp hv,isSome_some,if_true,map_append,
      map_map,map_cons,comp_def,revertIndexKey,map_id']

theorem exists_first_violated
    (h : ∃ index ∈ indexes, violates rules value index) :
    ∃ index before after, indexes = before ++ index :: after ∧ (∀ i ∈ before, violates rules value i = false) ∧
      violates rules value index := by
  obtain ⟨index,hi⟩ := isSome_iff_exists.1 (find?_isSome.2 h)
  obtain ⟨hv,before,after,hs,hf⟩ := find?_eq_some_iff_append.1 hi
  exact ⟨index,before,after,hs,by simpa using hf,hv⟩

theorem takeWhile_not_violates
    (hs : indexes = before ++ index::after)
    (hf : ∀ i ∈ before, violates rules value i = false) (hi : violates rules value index) :
    indexes.takeWhile (fun i => !violates rules value i) = before := by
  rw [hs,takeWhile_append_of_pos (by simpa using hf)]
  simp [hi]

/-- A refused insertion restores all of the store but the indexes that had filed a key of the value. -/
theorem content_addRecord_iff (hst : store.Consistent rules) {key : K} (hk : store.containsRecord key = false)
    (hs : store.indexes = before ++ index::after) (hf : ∀ i ∈ before, violates rules value i = false)
    (hv : violates rules value index) :
    (store.addRecord rules key value).2 = some .constraintError ∧
      ((store.addRecord rules key value).1.content = store.content ↔
        ∀ i ∈ before, valueKeys rules i.info value = []) := by
  have hh (i : MemoryIndex K J) (hi : i ∈ store.indexes) : ∃ pairs, i.store.Holds pairs := ⟨_,hst.holds i hi⟩
  obtain ⟨data,hdt,hu⟩ := updateIndexesForPutRecord_of_violates hh key hs hf hv
  have hr : update (update store.records key (some value)) key none = store.records := by
    have hn : store.records key = none := by simpa [containsRecord] using hk
    rw [update_idem,← hn,update_eq_self]
  have ho : (insert key (store.orderedKeys.getD ∅)).erase key = store.orderedKeys.getD ∅ := by
    simp [hst.mem_orderedKeys key,hk]
  have hin : (index.setStore index.store).withStore = index.withStore := rfl
  rw [addRecord,hu]
  refine ⟨rfl,?_⟩
  rw [content,content,hs]
  simp only [isSome_some,if_true,records,getD_some] at hr ⊢
  rw [hr,ho]
  simp only [Prod.mk.injEq,true_and,map_append,map_cons,map_map]
  rw [hin,append_left_inj,map_inj_left]
  exact forall₂_congr fun i hi => revert_filed_iff hdt key
    (hst.holds i (hs ▸ mem_append_left _ hi)) (hf i hi)

theorem filed_holds {value : J} (hvl : data.bind rules.deserialize = some value) (key : K)
    (h : index.store.Holds pairs)
    (hf : violates rules data index = false) :
    (filed rules key value index).1.info = index.info ∧ (filed rules key value index).1.store.Holds fun j p =>
        pairs j p ∨ j ∈ valueKeys rules index.info data ∧ p = key := by
  rw [valueKeys_of_deserialize hvl,filed]
  by_cases hn : index.info.keyPath value = []
  · rw [if_pos hn,if_pos hn]
    exact ⟨rfl,h.congr fun j p => by simp⟩
  · rw [if_neg hn,if_neg hn]
    exact ⟨rfl,IndexValueStore.addRecords_holds h (filedKeys_nodup _ _) key
      (not_pairs_of_not_violates hvl h hn hf)⟩

private theorem updateIndexesForPutRecord_of_not_violates (h : store.Consistent rules) (key : K)
    (hf : ∀ index ∈ store.indexes, violates rules data index = false) :
    ∃ f : MemoryIndex K J → MemoryIndex K J,
      updateIndexesForPutRecord rules store.indexes key data = (store.indexes.map f, none) ∧
        ∀ index ∈ store.indexes, (f index).info = index.info ∧ (f index).store.Holds fun j p =>
          indexPairs rules index.info store.records j p ∨ j ∈ valueKeys rules index.info data ∧ p = key := by
  rw [updateIndexesForPutRecord]
  cases hvl : data.bind rules.deserialize with
  | none =>
    refine ⟨id,by simp,fun index hin => ⟨rfl,(h.holds index hin).congr fun j p => ?_⟩⟩
    simp [valueKeys,hvl]
  | some value =>
    refine ⟨fun index => (filed rules key value index).1,?_,
      fun index hin => filed_holds hvl key (h.holds index hin) (hf index hin)⟩
    have hp := putIndexKeys_append hvl key (fun i hi => ⟨_,h.holds i hi⟩) hf []
    rw [append_nil] at hp
    simp [hp,putIndexKeys]

private theorem indexPairs_update {key : K} (hk : records key = none) (i : IDBIndexInfo K J) (value : Option D) (j p : K) :
    indexPairs rules i (update records key (some value)) j p ↔
      indexPairs rules i records j p ∨ j ∈ valueKeys rules i value ∧ p = key := by
  by_cases hp : p = key
  · subst hp
    simp [indexPairs,hk]
  · simp [indexPairs,hp]

theorem indexPairs_erase (records : K → Option (Option D)) (key : K) (i : IDBIndexInfo K J) (j p : K) :
    indexPairs rules i (update records key none) j p ↔ indexPairs rules i records j p ∧ p ≠ key := by
  by_cases hp : p = key
  · subst hp
    simp [indexPairs]
  · simp [indexPairs,hp]

theorem KeysAgree.deleteRecord (h : store.KeysAgree) (key : K) : (store.deleteRecord key).KeysAgree := by
  rw [MemoryObjectStore.deleteRecord]
  split
  · exact h
  next kv hm =>
    split_ifs
    · exact h
    · intro k
      have hk := h k
      have ho : (store.orderedKeys.map (·.erase key)).getD ∅ = (store.orderedKeys.getD ∅).erase key := by
        cases store.orderedKeys <;> simp
      simp only [containsRecord,records,hm,getD_some] at hk ⊢
      rw [ho,Finset.mem_erase,hk]
      by_cases hn : k = key
      · simp [hn]
      · simp [hn]

variable (rules) in
theorem KeysAgree.addRecord (h : store.KeysAgree) (key : K) (value : Option D) :
    (store.addRecord rules key value).1.KeysAgree := by
  intro k
  have hk := h k
  rw [MemoryObjectStore.addRecord]
  by_cases hn : k = key
  · split_ifs <;> simp [hn,containsRecord,records]
  · split_ifs <;> simpa [hn,containsRecord,records] using hk

theorem addRecord_of_not_violates (h : store.Consistent rules) {key : K} (hky : store.containsRecord key = false)
    (hfr : ∀ index ∈ store.indexes, violates rules value index = false) :
    ∃ store', store.addRecord rules key value = (store', none) ∧ store'.Consistent rules ∧
      store'.records = update store.records key (some value) ∧
      store'.indexes.map (·.info) = store.indexes.map (·.info) ∧ store'.keyGeneratorValue = store.keyGeneratorValue := by
  obtain ⟨f,hu,hf⟩ := updateIndexesForPutRecord_of_not_violates h key hfr
  have hn : store.records key = none := by simpa [containsRecord] using hky
  have hk := KeysAgree.addRecord rules h.mem_orderedKeys key value
  rw [addRecord,hu] at hk ⊢
  refine ⟨_,rfl,⟨hk,?_⟩,rfl,?_,rfl⟩
  · intro index' hi'
    obtain ⟨index,hi,rfl⟩ := mem_map.1 hi'
    obtain ⟨hin,hh⟩ := hf index hi
    refine hh.congr fun j p => ?_
    rw [hin]
    exact (indexPairs_update hn index.info value j p).symm
  · rw [map_map]
    exact map_congr_left fun index hi => (hf index hi).1

private theorem removeEntriesWithValueKey_holds
    (h : index.store.Holds pairs) (key : K) :
    (index.removeEntriesWithValueKey key).store.Holds fun j p => pairs j p ∧ p ≠ key := by
  have hs : (index.removeEntriesWithValueKey key).store = index.store.removeEntriesWithValueKey key := by
    simp only [store,removeEntriesWithValueKey]
    cases index.records with
    | none => simp [IndexValueStore.removeEntriesWithValueKey,IndexValueStore.new]
    | some records => rfl
  rw [hs]
  exact IndexValueStore.removeEntriesWithValueKey_holds h key

omit [DecidableEq K] in
theorem containsRecord_eq_false_iff (key : K) : store.containsRecord key = false ↔ store.records key = none := by
  simp [containsRecord]

theorem containsRecord_deleteRecord (store : MemoryObjectStore K D J) (key : K) :
    (store.deleteRecord key).containsRecord key = false := by
  rw [containsRecord_eq_false_iff,deleteRecord]
  split
  next hm => simp [records,hm]
  next k hm =>
    split_ifs with hk
    · simpa [records,hm] using hk
    · simp [records]

theorem deleteRecord_spec (h : store.Consistent rules) (key : K) : (store.deleteRecord key).Consistent rules ∧
      (store.deleteRecord key).records = update store.records key none ∧
      (store.deleteRecord key).indexes.map (·.info) = store.indexes.map (·.info) ∧
      (store.deleteRecord key).keyGeneratorValue = store.keyGeneratorValue := by
  by_cases hk : store.records key = none
  · have hdl : store.deleteRecord key = store := by
      rw [deleteRecord]
      rw [records] at hk
      cases hm : store.keyValueStore with
      | none => rfl
      | some keyValueStore =>
        rw [hm,getD_some] at hk
        simp [hk]
    rw [hdl]
    refine ⟨h,?_,rfl,rfl⟩
    rw [← hk,update_eq_self]
  · cases hm : store.keyValueStore with
    | none => simp [records,hm] at hk
    | some keyValueStore =>
      have hr : store.records = keyValueStore := by rw [records,hm,getD_some]
      rw [hr] at hk
      have hdl : store.deleteRecord key = { store with
            keyValueStore := some (update keyValueStore key none)
            orderedKeys := store.orderedKeys.map (·.erase key)
            indexes := store.indexes.map (·.removeEntriesWithValueKey key) } := by
        simp [deleteRecord,hm,hk]
      rw [hdl]
      refine ⟨⟨hdl ▸ KeysAgree.deleteRecord h.mem_orderedKeys key,?_⟩,by rw [hr]; rfl,?_,rfl⟩
      · intro index' hi'
        obtain ⟨index,hi,rfl⟩ := mem_map.1 hi'
        refine (removeEntriesWithValueKey_holds (h.holds index hi) key).congr fun j p => ?_
        rw [hr]
        exact (indexPairs_erase keyValueStore key index.info j p).symm
      · rw [map_map]
        rfl

private theorem withStore_eq {index' : MemoryIndex K J} (h : index.store.Holds (indexPairs rules index.info records))
    (h' : index'.store.Holds (indexPairs rules index'.info records)) (hi : index.info = index'.info) :
    index.withStore = index'.withStore := by
  obtain ⟨info,records⟩ := index
  obtain ⟨info',records'⟩ := index'
  obtain rfl : info = info' := hi
  exact congrArg (fun store => MemoryIndex.mk info (some store)) (h.eq h')

private theorem map_withStore_eq {indexes' : List (MemoryIndex K J)}
    (h : ∀ index ∈ indexes, index.store.Holds (indexPairs rules index.info records))
    (h' : ∀ index ∈ indexes', index.store.Holds (indexPairs rules index.info records))
    (hin : indexes.map (·.info) = indexes'.map (·.info)) :
    indexes.map withStore = indexes'.map withStore := by
  induction indexes generalizing indexes' with
  | nil =>
    obtain rfl := map_eq_nil_iff.1 hin.symm
    rfl
  | cons index indexes ih =>
    obtain ⟨index',r,rfl,hh,ht⟩ := map_eq_cons_iff.1 hin.symm
    rw [map_cons,map_cons,withStore_eq (h index mem_cons_self) (h' index' mem_cons_self) hh.symm,
      ih (fun i hi => h i (mem_cons_of_mem _ hi)) (fun i hi => h' i (mem_cons_of_mem _ hi)) ht.symm]

/-- The records determine the contents of a consistent store. -/
theorem Consistent.content_eq (h : store.Consistent rules)
    (h' : store'.Consistent rules) (hr : store.records = store'.records)
    (hin : store.indexes.map (·.info) = store'.indexes.map (·.info)) : store.content = store'.content := by
  have ho : store.orderedKeys.getD ∅ = store'.orderedKeys.getD ∅ := by
    ext key
    rw [h.mem_orderedKeys,h'.mem_orderedKeys,containsRecord,containsRecord,hr]
  have hi := map_withStore_eq (hr ▸ h.holds) h'.holds hin
  rw [content,content,hr,ho,hi]

theorem Consistent.of_content_eq (h : store.Consistent rules)
    (hc : store'.content = store.content) : store'.Consistent rules := by
  simp only [content,Prod.mk.injEq] at hc
  obtain ⟨hr,ho,hin⟩ := hc
  refine ⟨fun key => ?_,fun index' hi' => ?_⟩
  · rw [ho,containsRecord,hr]
    exact h.mem_orderedKeys key
  · obtain ⟨index,hi,he⟩ := mem_map.1 (hin ▸ mem_map_of_mem hi')
    rw [hr]
    have hh : index.withStore.store.Holds (indexPairs rules index.withStore.info store.records) := h.holds index hi
    rw [he] at hh
    exact hh

omit [DecidableEq K] in
theorem infos_of_content_eq (hc : store'.content = store.content) :
    store'.indexes.map (·.info) = store.indexes.map (·.info) := by
  have hi := congrArg (fun content => content.2.2.map (·.info)) hc
  simpa [content,comp_def,withStore,setStore] using hi

theorem consistent_of_null (hm : store.keyValueStore = none) (ho : store.orderedKeys = none)
    (hi : ∀ index ∈ store.indexes, index.records = none) : store.Consistent rules where
  mem_orderedKeys key := by simp [ho,containsRecord,records,hm]
  holds index hin := by
    rw [MemoryIndex.store,hi index hin,getD_none]
    refine IndexValueStore.new_holds.congr fun j p => ?_
    simp [indexPairs,records,hm]

/-- An insertion that violates uniqueness fails. It leaves the store as it was exactly when no
index visited before the violated one had filed a key of the value. -/
theorem addRecord_unchanged_iff {K D J : Type*} [LinearOrder K] [IDBKeyData.KeySet K] {rules : ValueRules K D J}
    {store : MemoryObjectStore K D J} (hstore : store.Consistent rules) {key : K} (hkey : store.containsRecord key = false)
    {value : Option D} (hviolates : ∃ index ∈ store.indexes, violates rules value index = true) :
    (store.addRecord rules key value).2 = some .constraintError ∧
      ((store.addRecord rules key value).1.content = store.content ↔
        ∀ index ∈ store.indexes.takeWhile fun index => !violates rules value index,
          valueKeys rules index.info value = []) := by
  obtain ⟨index,before,after,hs,hf,hi⟩ := exists_first_violated hviolates
  rw [takeWhile_not_violates hs hf hi]
  exact content_addRecord_iff hstore hkey hs hf hi

end

section
/-- Keys and data are numbers, and every number is a value. -/
def numberRules : ValueRules Nat Nat Nat where
  isValid _ := true
  arrayKey _ := 0
  deserialize := some

def tens : MemoryIndex Nat Nat := ⟨⟨false,false,fun n => [n/10]⟩,none⟩

def uniqueOnes : MemoryIndex Nat Nat := ⟨⟨true,false,fun n => [n%10]⟩,none⟩

def emptyStore (indexes : List (MemoryIndex Nat Nat)) : MemoryObjectStore Nat Nat Nat := ⟨none,none,indexes,0⟩

def storeWith15 (indexes : List (MemoryIndex Nat Nat)) : MemoryObjectStore Nat Nat Nat :=
  ((emptyStore indexes).addRecord numberRules 0 (some 15)).1

theorem storeWith15_consistent {indexes : List (MemoryIndex Nat Nat)}
    (h : ∀ index ∈ indexes, index.records = none) : (storeWith15 indexes).Consistent numberRules := by
  have hf (index : MemoryIndex Nat Nat) (hi : index ∈ indexes) : violates numberRules (some 15) index = false := by
    simp [violates,store,h index hi,IndexValueStore.contains,IndexValueStore.new]
  have he : (emptyStore indexes).Consistent numberRules := consistent_of_null rfl rfl h
  have hk : (emptyStore indexes).containsRecord 0 = false := rfl
  obtain ⟨store',ha,hc,-⟩ := addRecord_of_not_violates he hk hf
  rw [storeWith15,ha]
  exact hc

/-- With the unique index first, a second record ending in 5 leaves no trace. -/
theorem addRecord_unchanged_unique_first :
    ((storeWith15 [uniqueOnes, tens]).addRecord numberRules 1 (some 15)).1.content =
      (storeWith15 [uniqueOnes, tens]).content := by
  have hv : ∃ index ∈ (storeWith15 [uniqueOnes, tens]).indexes,
      violates numberRules (some 15) index := ⟨_,mem_cons_self,by decide⟩
  refine (addRecord_unchanged_iff (storeWith15_consistent (by simp [uniqueOnes,tens])) (by decide) hv).2.2 ?_
  exact forall_mem_nil _

/-- With the unique index last, taking a second record ending in 5 back drops the entry that the
first record has in the other index. -/
theorem addRecord_drops_other_entry : (storeWith15 [tens, uniqueOnes]).Consistent numberRules ∧
      (storeWith15 [tens, uniqueOnes]).containsRecord 1 = false ∧
      (∃ index ∈ (storeWith15 [tens, uniqueOnes]).indexes, violates numberRules (some 15) index = true) ∧
      ((storeWith15 [tens, uniqueOnes]).addRecord numberRules 1 (some 15)).1.content ≠
        (storeWith15 [tens, uniqueOnes]).content := by
  refine ⟨storeWith15_consistent (by simp [uniqueOnes,tens]),by decide,
    ⟨_,mem_cons_of_mem _ mem_cons_self,by decide⟩,fun he => ?_⟩
  have ho := congrArg (fun content => content.2.2.map fun index => index.store.contains 1) he
  revert ho
  decide

end

end MemoryObjectStore
end WebKit.IndexedDB
