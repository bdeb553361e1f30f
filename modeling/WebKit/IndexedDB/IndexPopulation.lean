import WebKit.IndexedDB.MemoryObjectStore

/-! Filling a new or a restored index from the records of its object store, in the order in which
the hash map visits them. -/
namespace WebKit.IndexedDB
open List

/-- The entries of a record map in the order in which it visits them. -/
structure RecordOrder {K D : Type*} (records : K → Option (Option D)) where
  entries : List (K × Option D)
  nodup : (entries.map Prod.fst).Nodup
  mem_entries : ∀ key value, (key, value) ∈ entries ↔ records key = some value

namespace MemoryObjectStore
variable {K D J : Type*} [DecidableEq K]

section
variable (rules : ValueRules K D J)

def populateIndexWithExistingRecords : List (K × Option D) → MemoryIndex K J → MemoryIndex K J × IDBError
  | [], index => (index, none)
  | (key, data) :: entries, index =>
    match data.bind rules.deserialize with
    | none => (index, none)
    | some value =>
      let indexKey := index.info.keyPath value
      if indexKey = [] then populateIndexWithExistingRecords entries index
      else
        let result := index.putIndexKey rules.toKeyRules key indexKey
        if result.2.isSome then result else populateIndexWithExistingRecords entries result.1

variable (store : MemoryObjectStore K D J) (info : IDBIndexInfo K J) (order : RecordOrder store.records)

/-- Create an index, in a version change transaction that writes the store or not. -/
def createIndex (isVersionChange : Bool) : MemoryObjectStore K D J × IDBError :=
  if !isVersionChange then (store, some .constraintError)
  else
    let result := populateIndexWithExistingRecords rules order.entries ⟨info,none⟩
    if result.2.isSome then (store, result.2) else ({ store with indexes := store.indexes ++ [result.1] }, none)

/-- Register an index again unless its name is taken; the error is only asserted. -/
def maybeRestoreDeletedIndex (hasIndex : Bool) : MemoryObjectStore K D J × IDBError :=
  if hasIndex then (store, none)
  else
    let result := populateIndexWithExistingRecords rules order.entries ⟨info,none⟩
    ({ store with indexes := store.indexes ++ [result.1] }, result.2)

/-- A unique index cannot hold these pairs. -/
def Clash (pairs : K → K → Prop) : Prop := info.unique = true ∧ ∃ j p p', p ≠ p' ∧ pairs j p ∧ pairs j p'

/-- A new index holds what all records give, and fails just on a clash. -/
def IndexesAllRecords (result : MemoryObjectStore K D J × IDBError) : Prop :=
  (result.2 = none → ∃ index, result.1.indexes = store.indexes ++ [index] ∧ index.info = info ∧
    index.store.Holds (indexPairs rules index.info store.records)) ∧
  (result.2 ≠ none ↔ Clash info (indexPairs rules info store.records))

/-- The entries before the first undefined or null value. -/
def visited (entries : List (K × Option D)) : List (K × Option D) :=
  entries.takeWhile fun entry => (entry.2.bind rules.deserialize).isSome

def visitedPairs (entries : List (K × Option D)) (j p : K) : Prop :=
  ∃ data, (p, data) ∈ visited rules entries ∧ j ∈ valueKeys rules info data

end

section
variable {rules : ValueRules K D J} {info : IDBIndexInfo K J} {index : MemoryIndex K J} {pairs : K → K → Prop} {key : K}
  {data : Option D} {entries : List (K × Option D)}

private theorem populate_cons {v : J} (hvl : data.bind rules.deserialize = some v) (h : index.store.Holds pairs) :
    populateIndexWithExistingRecords rules ((key, data) :: entries) index =
      if violates rules data index then (index.setStore index.store, some .constraintError)
      else populateIndexWithExistingRecords rules entries (filed rules key v index).1 := by
  have hi := violates_iff rules h data
  rw [valueKeys_of_deserialize hvl] at hi
  rw [populateIndexWithExistingRecords,hvl,filed]
  by_cases hn : index.info.keyPath v = []
  · simp [hn] at hi
    simp [hn,hi]
  · rw [if_neg hn] at hi
    cases hv : violates rules data index with
    | false =>
      have hf := hi.not.1 (by simp [hv])
      simp [hn,MemoryIndex.putIndexKey_of_not_conflicts h key hf]
    | true => simp [hn,MemoryIndex.putIndexKey_of_conflicts h key (hi.1 hv)]

omit [DecidableEq K] in
theorem Clash.congr {pairs' : K → K → Prop} (h : Clash info pairs) (hpr : ∀ j p, pairs j p → pairs' j p) :
    Clash info pairs' := by
  obtain ⟨hu,j,p,p',hn,hp,hp'⟩ := h
  exact ⟨hu,j,p,p',hn,hpr _ _ hp,hpr _ _ hp'⟩

private theorem not_clash_insert (h : index.store.Holds pairs) (hf : ¬ Clash index.info pairs)
    (hv : violates rules data index = false) (key : K) :
    ¬ Clash index.info fun j p => pairs j p ∨ j ∈ valueKeys rules index.info data ∧ p = key := by
  have hn (j p : K) (hu : index.info.unique) (hj : j ∈ valueKeys rules index.info data) : ¬ pairs j p := by
    intro hp
    rw [(violates_iff rules h data).2 ⟨hu,j,hj,p,hp⟩] at hv
    cases hv
  rintro ⟨hu,j,p,p',hne,hp | ⟨hj,rfl⟩,hp' | ⟨hj',rfl⟩⟩
  · exact hf ⟨hu,j,p,p',hne,hp,hp'⟩
  · exact hn j p hu hj' hp
  · exact hn j p' hu hj hp'
  · exact hne rfl

/-- The index takes the pairs of the visited entries, or fails when it cannot. -/
theorem populate_spec (hi : index.info = info) (h : index.store.Holds pairs) (hn : (entries.map Prod.fst).Nodup)
    (hf : ∀ key ∈ entries.map Prod.fst, ∀ j, ¬ pairs j key) (hfr : ¬ Clash info pairs) :
    let all j p := pairs j p ∨ visitedPairs rules info entries j p
    let result := populateIndexWithExistingRecords rules entries index
    (Clash info all ∧ result.2 ≠ none) ∨
      ¬ Clash info all ∧ result.2 = none ∧ result.1.info = info ∧ result.1.store.Holds all := by
  induction entries generalizing index pairs with
  | nil => simpa [visitedPairs,visited,populateIndexWithExistingRecords] using ⟨hfr,hi,h⟩
  | cons e entries ih =>
    obtain ⟨key,data⟩ := e
    cases hvl : data.bind rules.deserialize with
    | none =>
      rw [populateIndexWithExistingRecords,hvl]
      simpa [visitedPairs,visited,hvl] using ⟨hfr,hi,h⟩
    | some v =>
      have ha (j p : K) : (pairs j p ∨ j ∈ valueKeys rules info data ∧ p = key) ∨ visitedPairs rules info entries j p ↔
          pairs j p ∨ visitedPairs rules info ((key, data) :: entries) j p := by
        rw [or_assoc]
        refine or_congr_right ?_
        simp only [visitedPairs,visited,takeWhile_cons,hvl,Option.isSome_some,if_true,mem_cons,Prod.mk.injEq,
          or_and_right,exists_or,and_assoc]
        refine or_congr_left ⟨fun ⟨hj,hp⟩ => ⟨data,hp,rfl,hj⟩,?_⟩
        rintro ⟨data',hp,rfl,hj⟩
        exact ⟨hj,hp⟩
      subst hi
      rw [populate_cons hvl h]
      cases hv : violates rules data index with
      | true =>
        obtain ⟨hu,j,hj,p,hp⟩ := (violates_iff rules h data).1 hv
        refine .inl ⟨⟨hu,j,p,key,?_,.inl hp,(ha j key).1 (.inl (.inr ⟨hj,rfl⟩))⟩,by simp⟩
        rintro rfl
        exact hf p mem_cons_self j hp
      | false =>
        obtain ⟨hi',hfl⟩ := filed_holds hvl key h hv
        rw [map_cons,nodup_cons] at hn
        have hf' : ∀ k ∈ entries.map Prod.fst, ∀ j, ¬ (pairs j k ∨ j ∈ valueKeys rules index.info data ∧ k = key) := by
          rintro k hk j (hp | ⟨-,rfl⟩)
          · exact hf k (mem_cons_of_mem _ hk) j hp
          · exact hn.1 hk
        rcases ih hi' hfl hn.2 hf' (not_clash_insert h hfr hv key) with ⟨hcl,hne⟩ | ⟨hcl,hnn,hi,hh⟩
        · exact .inl ⟨hcl.congr fun j p => (ha j p).1,hne⟩
        · exact .inr ⟨fun hc => hcl (hc.congr fun j p => (ha j p).2),hnn,hi,hh.congr ha⟩

end

section
variable (rules : ValueRules K D J) (store : MemoryObjectStore K D J) (info : IDBIndexInfo K J)
  (order : RecordOrder store.records)

/-- No record with index keys comes after an undefined or null value, or two of those before it clash already. -/
def PopulatesAll : Prop :=
  Clash info (visitedPairs rules info order.entries) ∨
    ∀ entry ∈ order.entries, valueKeys rules info entry.2 ≠ [] → entry ∈ visited rules order.entries

variable {rules store info order}

theorem visitedPairs_indexPairs {j p : K} (h : visitedPairs rules info order.entries j p) :
    indexPairs rules info store.records j p := by
  obtain ⟨data,hm,hj⟩ := h
  exact ⟨data,(order.mem_entries p data).1 ((takeWhile_sublist _).subset hm),hj⟩

/-- The visited entries give all pairs when those with index keys are visited. -/
theorem visitedPairs_iff : (∀ j p, visitedPairs rules info order.entries j p ↔ indexPairs rules info store.records j p) ↔
    ∀ e ∈ order.entries, valueKeys rules info e.2 ≠ [] → e ∈ visited rules order.entries := by
  constructor
  · rintro h ⟨p,data⟩ he hk
    obtain ⟨j,hj⟩ := exists_mem_of_ne_nil _ hk
    have hdt := (order.mem_entries p data).1 he
    obtain ⟨data',hm,-⟩ := (h j p).2 ⟨data,hdt,hj⟩
    have hdt' := (order.mem_entries p data').1 ((takeWhile_sublist _).subset hm)
    rw [hdt,Option.some.injEq] at hdt'
    rwa [hdt']
  · intro h j p
    refine ⟨visitedPairs_indexPairs,?_⟩
    rintro ⟨data,hdt,hj⟩
    exact ⟨data,h (p, data) ((order.mem_entries p data).2 hdt) (ne_nil_of_mem hj),hj⟩

private theorem indexesAllRecords_iff {r : MemoryObjectStore K D J × IDBError} {f : MemoryIndex K J × IDBError}
    (hf : populateIndexWithExistingRecords rules order.entries ⟨info,none⟩ = f) (he : r.2 = f.2)
    (hi : r.2 = none → r.1.indexes = store.indexes ++ [f.1]) :
    IndexesAllRecords rules store info r ↔ PopulatesAll rules store info order := by
  have hs := @populate_spec K D J _ rules info ⟨info,none⟩ _ _ rfl IndexValueStore.new_holds order.nodup
    (fun _ _ _ => not_false) (by simp [Clash])
  simp only [false_or] at hs
  rw [hf] at hs
  rw [he] at hi
  rw [IndexesAllRecords,he]
  rcases hs with ⟨hcl,hne⟩ | ⟨hcl,hn,hif,hh⟩
  · refine iff_of_true ⟨fun h => absurd h hne,iff_of_true hne ?_⟩ (.inl hcl)
    exact hcl.congr fun _ _ => visitedPairs_indexPairs
  · rw [PopulatesAll,or_iff_right hcl,← visitedPairs_iff,hi hn]
    constructor
    · rintro ⟨h,-⟩ j p
      obtain ⟨index,heq,hin,ha⟩ := h hn
      obtain rfl : f.1 = index := by simpa using heq
      rw [← hh.mem_keysAt,ha.mem_keysAt,hif]
    · intro h
      refine ⟨fun _ => ⟨_,rfl,hif,hh.congr fun j p => by rw [h,hif]⟩,iff_of_false (not_not.2 hn) ?_⟩
      exact fun hc => hcl (hc.congr fun j p => (h j p).2)

/-- An index is filled exactly from all records when no value stops the walk too early. -/
theorem createIndex_iff {K D J : Type*} [LinearOrder K] [IDBKeyData.KeySet K] (rules : ValueRules K D J)
    (store : MemoryObjectStore K D J) (info : IDBIndexInfo K J) (order : RecordOrder store.records) :
    (IndexesAllRecords rules store info (store.createIndex rules info order true) ∧
      IndexesAllRecords rules store info (store.maybeRestoreDeletedIndex rules info order false)) ↔
    PopulatesAll rules store info order := by
  obtain ⟨filled,hf⟩ : ∃ filled, populateIndexWithExistingRecords rules order.entries ⟨info,none⟩ = filled := ⟨_,rfl⟩
  have hc : (store.createIndex rules info order true).2 = filled.2 := by
    cases h : filled.2 <;> simp [createIndex,hf,h]
  rw [indexesAllRecords_iff hf hc,indexesAllRecords_iff hf,and_self]
  · simp [maybeRestoreDeletedIndex,hf]
  · simp [maybeRestoreDeletedIndex,hf]
  · intro hn
    rw [hc] at hn
    simp [createIndex,hf,hn]

end

/-- Values are themselves, zero for undefined. -/
def zeroUndefined : ValueRules Nat Nat Nat := ⟨⟨fun _ => true,fun _ => 0⟩,fun data => if data = 0 then none else some data⟩

/-- An undefined value under the first key, another value under the second. -/
def undefinedFirst : MemoryObjectStore Nat Nat Nat :=
  ⟨some fun key => if key = 1 then some (some 0) else if key = 2 then some (some 5) else none,some {1, 2},[],0⟩

def undefinedFirstOrder : RecordOrder undefinedFirst.records where
  entries := [(1, some 0), (2, some 5)]
  nodup := by decide
  mem_entries key value := by
    by_cases h1 : key = 1
    · simp [undefinedFirst,records,h1,eq_comm]
    · by_cases h2 : key = 2 <;> simp [undefinedFirst,records,h1,h2,eq_comm]

theorem createIndex_skips_record :
    ¬ IndexesAllRecords zeroUndefined undefinedFirst ⟨false,false,fun value => [value]⟩
      (undefinedFirst.createIndex zeroUndefined ⟨false,false,fun value => [value]⟩ undefinedFirstOrder true) := by
  rintro ⟨h,-⟩
  obtain ⟨index,hi,-,hh⟩ := h rfl
  obtain rfl : (⟨⟨false,false,fun value => [value]⟩,none⟩ : MemoryIndex Nat Nat) = index := (cons.inj hi).1
  exact absurd ((hh.mem_keysAt 5 2).2 ⟨some 5,rfl,by decide⟩) (by decide)

end MemoryObjectStore
end WebKit.IndexedDB
