import WebKit.IndexedDB.ReadWriteTransaction

/-! Aborting a read-write transaction: under which conditions on its steps the log suffices to
restore every object store. -/
namespace WebKit.IndexedDB
open List WrittenStore Function
open Option hiding forall_mem_map

variable {K D J : Type*} [LinearOrder K]

theorem IndexValueStore.Holds.eq_of_pairs {K : Type*} {s : IndexValueStore K true} {ps : K → K → Prop}
    (h : s.Holds ps) {j p p' : K} (hp : ps j p) (hp' : ps j p') : p = p' := by
  rw [← h.mem_keysAt,IndexValueStore.keysAt] at hp hp'
  cases he : s.records j with
  | none => simp [he] at hp
  | some e =>
    cases e with
    | unique st =>
      simp only [he,elim_some,IndexValueEntry.keys,mem_toFinset,mem_def] at hp hp'
      exact some_inj.1 (hp.symm.trans hp')

section
variable {rules : ValueRules K D J} {start base : MemoryObjectStore K D J}
  {olds : List (K × Option D)}

open MemoryObjectStore

theorem MemoryObjectStore.Consistent.eq_of_shared (h : start.Consistent rules) {info : IDBIndexInfo K J}
    (hin : info ∈ start.indexes.map (·.info)) (hu : info.unique) {p p' j : K} {v v' : Option D}
    (hp : start.records p = some v) (hp' : start.records p' = some v') (hj : j ∈ valueKeys rules info v)
    (hj' : j ∈ valueKeys rules info v') : p = p' := by
  obtain ⟨⟨⟨u,m,k⟩,records⟩,hi,rfl⟩ := mem_map.1 hin
  obtain rfl : u := hu
  exact (h.holds _ hi).eq_of_pairs ⟨v,hp,hj⟩ ⟨v',hp',hj'⟩

/-- A state from which the original values lead back to the start. -/
structure Recoverable (rules : ValueRules K D J) (start : MemoryObjectStore K D J) (originals : List (K × Option D))
    (base : MemoryObjectStore K D J) : Prop where
  consistent : base.Consistent rules
  infos : base.indexes.map (·.info) = start.indexes.map (·.info)
  nodup : (originals.map Prod.fst).Nodup
  original : ∀ entry ∈ originals, start.records entry.1 = some entry.2
  untouched : ∀ key ∉ originals.map Prod.fst, base.records key = start.records key

/-- No original value needs a key of a unique index that another record has. -/
def ReplaysFreely (rules : ValueRules K D J) (originals : List (K × Option D)) (base : MemoryObjectStore K D J) : Prop :=
  ∀ entry ∈ originals, ∀ index ∈ (base.deleteRecord entry.1).indexes, violates rules entry.2 index = false

private theorem not_violates_iff {s : MemoryObjectStore K D J} (h : s.Consistent rules) (value : Option D) :
    (∀ i ∈ s.indexes, violates rules value i = false) ↔
      ∀ info ∈ s.indexes.map (·.info), info.unique → ∀ j ∈ valueKeys rules info value,
        ∀ p, ¬ indexPairs rules info s.records j p := by
  simp only [forall_mem_map,← Bool.not_eq_true]
  refine forall₂_congr fun i hi => ?_
  rw [violates_iff rules (h.holds i hi)]
  push Not
  rfl

private theorem not_violates_deleteRecord_iff (h : base.Consistent rules) (key : K) (value : Option D) :
    (∀ i ∈ (base.deleteRecord key).indexes, violates rules value i = false) ↔
      ∀ info ∈ base.indexes.map (·.info), info.unique → ∀ j ∈ valueKeys rules info value,
        ∀ p ≠ key, ¬ indexPairs rules info base.records j p := by
  obtain ⟨hc,hr,hi,-⟩ := deleteRecord_spec h key
  rw [not_violates_iff hc,hr,hi]
  simp only [indexPairs_erase,not_and,not_not,ne_eq]
  refine forall₂_congr fun info _ => forall_congr' fun _ => forall₂_congr fun j _ => forall_congr' fun p => ?_
  tauto

end

section
variable {rules : DatabaseRules K D J} {start base : MemoryObjectStore K D J}
  {olds : List (K × Option D)}

open MemoryObjectStore

theorem Recoverable.restoreRecord (hs : start.Consistent rules.toValueRules) {en : K × Option D}
    (h : Recoverable rules.toValueRules start (en::olds) base)
    (hfr : ReplaysFreely rules.toValueRules (en::olds) base) :
    Recoverable rules.toValueRules start olds (restoreRecord rules base en) ∧
      ReplaysFreely rules.toValueRules olds (restoreRecord rules base en) ∧
      (restoreRecord rules base en).keyGeneratorValue = base.keyGeneratorValue := by
  obtain ⟨hdl,hdr,hdi,hdk⟩ := deleteRecord_spec h.consistent en.1
  have hnn : (base.deleteRecord en.1).containsRecord en.1 = false := by
    simp [containsRecord,hdr]
  obtain ⟨s,ha,hc,hr,hi,hk⟩ :=
    addRecord_of_not_violates hdl hnn (hfr en mem_cons_self)
  rw [hdr,update_idem] at hr
  rw [hdi,h.infos] at hi
  rw [WrittenStore.restoreRecord,ha]
  obtain ⟨hf,hn⟩ := nodup_cons.1 h.nodup
  refine ⟨⟨hc,hi,hn,fun e he => h.original e (mem_cons_of_mem _ he),fun key hm => ?_⟩,?_,
    hk.trans hdk⟩
  · rw [hr]
    by_cases hne : key = en.1
    · rw [hne,update_self,h.original en mem_cons_self]
    · rw [update_of_ne hne]
      exact h.untouched key (by simp [hne,hm])
  · intro e he
    have hne : en.1 ≠ e.1 := fun heq => hf (heq ▸ mem_map_of_mem he)
    rw [not_violates_deleteRecord_iff hc,hi]
    rintro info hin hu j hj p hp ⟨w,hw,hjw⟩
    rw [hr] at hw
    by_cases hpe : p = en.1
    · rw [hpe,update_self] at hw
      -- the value just put back and the one of e were both there at the start
      obtain rfl : en.2 = w := some_inj.1 hw
      exact hne (hs.eq_of_shared hin hu (h.original en mem_cons_self)
        (h.original e (mem_cons_of_mem _ he)) hjw hj)
    · rw [update_of_ne hpe] at hw
      refine (not_violates_deleteRecord_iff h.consistent e.1 e.2).1 (hfr e (mem_cons_of_mem _ he)) info
        (h.infos ▸ hin) hu j hj p hp ⟨w,hw,hjw⟩

theorem Recoverable.replay (hs : start.Consistent rules.toValueRules)
    (h : Recoverable rules.toValueRules start olds base)
    (hf : ReplaysFreely rules.toValueRules olds base) :
    (olds.foldl (WrittenStore.restoreRecord rules) base).content = start.content ∧
      (olds.foldl (WrittenStore.restoreRecord rules) base).keyGeneratorValue = base.keyGeneratorValue := by
  induction olds generalizing base with
  | nil =>
    refine ⟨h.consistent.content_eq hs (funext fun key => h.untouched key (by simp)) h.infos,rfl⟩
  | cons e olds ih =>
    obtain ⟨hr,hfr,hk⟩ := h.restoreRecord hs hf
    obtain ⟨hc,hg⟩ := ih hr hfr
    exact ⟨hc,hg.trans hk⟩

theorem Recoverable.perm {olds' : List (K × Option D)} (hp : olds'.Perm olds)
    {rules : ValueRules K D J} (h : Recoverable rules start olds base) :
    Recoverable rules start olds' base where
  consistent := h.consistent
  infos := h.infos
  nodup := (hp.map Prod.fst).nodup_iff.2 h.nodup
  original entry he := h.original entry (hp.mem_iff.1 he)
  untouched key hk := h.untouched key fun hm => hk ((hp.map Prod.fst).mem_iff.2 hm)

namespace WrittenStore

/-- What the first clear saved, or the store itself. -/
def saved (written : WrittenStore K D J) : MemoryObjectStore K D J :=
  match written.log.cleared with
  | none => written.store
  | some cleared => ⟨cleared.keyValueMap,cleared.orderedKeys,cleared.indexes,written.log.originalKeyGenerator⟩

/-- What every allowed step keeps: the log leads back to the start. -/
structure Undoable (rules : DatabaseRules K D J) (start : MemoryObjectStore K D J) (written : WrittenStore K D J) :
    Prop where
  recoverable : Recoverable rules.toValueRules start written.log.originalValues written.saved
  keysAgree : written.store.KeysAgree
  generator : written.log.originalKeyGenerator = start.keyGeneratorValue

/-- Until the store is cleared, a key may only be written when its record can be logged or has been. -/
def Logged (written : WrittenStore K D J) (key : K) : Prop :=
  written.log.cleared = none → key ∈ written.log.originalValues.map Prod.fst ∨ written.store.containsRecord key

variable {out : WrittenStore K D J}

theorem Undoable.of_begin (hs : start.Consistent rules.toValueRules) : Undoable rules start ⟨start,.start start⟩ :=
  ⟨⟨hs,rfl,nodup_nil,by simp [UndoLog.start],fun _ _ => rfl⟩,hs.mem_orderedKeys,rfl⟩

section
variable (h : Undoable rules start out)
include h

theorem Undoable.setKeyGeneratorValue (k : Nat) :
    Undoable rules start (out.setKeyGeneratorValue k) := by
  refine ⟨?_,h.keysAgree,h.generator⟩
  have hr := h.recoverable
  rw [saved] at hr ⊢
  simp only [WrittenStore.setKeyGeneratorValue]
  cases hc : out.log.cleared with
  | none =>
    rw [hc] at hr
    exact ⟨⟨hr.consistent.1,hr.consistent.2⟩,hr.infos,hr.nodup,hr.original,hr.untouched⟩
  | some c =>
    rw [hc] at hr
    exact hr

/-- A change to a cleared store whose key maps stay in agreement. -/
theorem Undoable.of_cleared (hc : out.log.cleared ≠ none)
    {store : MemoryObjectStore K D J} (hs : store.KeysAgree) : Undoable rules start { out with store := store } := by
  refine ⟨?_,hs,h.generator⟩
  have hr := h.recoverable
  rw [saved] at hr ⊢
  obtain ⟨c,he⟩ := ne_none_iff_exists'.1 hc
  simp only [he] at hr ⊢
  exact hr

theorem Undoable.of_not_cleared (hc : out.log.cleared = none) :
    Recoverable rules.toValueRules start out.log.originalValues out.store := by
  simpa only [saved,hc] using h.recoverable

end

variable {key : K} {value : Option D} {info : IDBObjectStoreInfo}

theorem Undoable.deleteRecord (h : Undoable rules start out) (hl : out.Logged key) :
    Undoable rules start (out.deleteRecord key) := by
  by_cases hc : out.log.cleared = none
  · have hrc := h.of_not_cleared hc
    obtain ⟨hcn,hr,hi,-⟩ := deleteRecord_spec hrc.consistent key
    rw [WrittenStore.deleteRecord,UndoLog.recordValueChanged]
    simp only [hc,isSome_none,Bool.false_eq_true,if_false]
    by_cases hm : key ∈ out.log.originalValues.map Prod.fst
    · rw [if_pos hm]
      refine ⟨?_,h.keysAgree.deleteRecord key,h.generator⟩
      simp only [saved,hc]
      refine ⟨hcn,hi.trans hrc.infos,hrc.nodup,hrc.original,fun k hk => ?_⟩
      have hne : k ≠ key := fun heq => hk (heq ▸ hm)
      rw [hr,update_of_ne hne]
      exact hrc.untouched k hk
    · rw [if_neg hm]
      obtain ⟨value,hv⟩ := isSome_iff_exists.1 ((hl hc).resolve_left hm)
      refine ⟨?_,h.keysAgree.deleteRecord key,h.generator⟩
      simp only [saved,hv,join_some]
      refine ⟨hcn,hi.trans hrc.infos,?_,fun e he => ?_,fun k hk => ?_⟩
      · rw [map_append,map_singleton,← concat_eq_append]
        exact hrc.nodup.concat hm
      · rcases mem_append.1 he with ho | hn
        · exact hrc.original e ho
        · obtain rfl := mem_singleton.1 hn
          rw [← hrc.untouched key hm,hv]
      · simp only [map_append,map_cons,map_nil,mem_append,mem_singleton,not_or] at hk
        rw [hr,update_of_ne hk.2]
        exact hrc.untouched k hk.1
  · have hlg : out.log.recordValueChanged key (out.store.records key) = out.log := by
      rw [UndoLog.recordValueChanged,if_pos (isSome_iff_ne_none.2 hc)]
    rw [WrittenStore.deleteRecord,hlg]
    exact h.of_cleared hc (h.keysAgree.deleteRecord key)

/-- No index takes a key of a value before another one refuses it. -/
def RefusesCleanly (rules : ValueRules K D J) (value : Option D) (store : MemoryObjectStore K D J) : Prop :=
  (∃ index ∈ store.indexes, violates rules value index) →
    ∀ index ∈ store.indexes.takeWhile fun index => !violates rules value index, valueKeys rules index.info value = []

section
variable (h : Undoable rules start out)
include h

theorem Undoable.addRecord
    (hky : out.log.cleared = none → key ∈ out.log.originalValues.map Prod.fst)
    (hn : out.store.containsRecord key = false)
    (hr : out.log.cleared = none → RefusesCleanly rules.toValueRules value out.store) :
    Undoable rules start { out with store := (out.store.addRecord rules.toValueRules key value).1 } := by
  by_cases hc : out.log.cleared = none
  · have hre := h.of_not_cleared hc
    refine ⟨?_,h.keysAgree.addRecord _ key value,h.generator⟩
    simp only [saved,hc]
    by_cases hvl : ∃ i ∈ out.store.indexes, violates rules.toValueRules value i
    · obtain ⟨i,b,a,hs,hf,hi⟩ := exists_first_violated hvl
      have hcn := (content_addRecord_iff hre.consistent hn hs hf hi).2.2 (by
        rw [← takeWhile_not_violates hs hf hi]
        exact hr hc hvl)
      have hrc := congrArg Prod.fst hcn
      refine ⟨hre.consistent.of_content_eq hcn,(infos_of_content_eq hcn).trans hre.infos,
        hre.nodup,hre.original,fun k hk => ?_⟩
      rw [← hre.untouched k hk]
      exact congrFun hrc k
    · obtain ⟨store,ha,hco,hrc,hin,-⟩ := addRecord_of_not_violates hre.consistent hn
        (fun i hi => Bool.eq_false_iff.2 fun hv => hvl ⟨i,hi,hv⟩)
      rw [ha]
      refine ⟨hco,hin.trans hre.infos,hre.nodup,hre.original,fun k hk => ?_⟩
      have hne : k ≠ key := fun he => hk (he ▸ hky hc)
      rw [hrc,update_of_ne hne]
      exact hre.untouched k hk
  · exact h.of_cleared hc (h.keysAgree.addRecord _ key value)

theorem Undoable.storeRecord (hl : out.Logged key)
    (hr : out.log.cleared = none → RefusesCleanly rules.toValueRules value (out.store.deleteRecord key)) :
    Undoable rules start (out.storeRecord rules key value).1 := by
  have hdl : out.deleteRange (.only key) = out.deleteRecord key := by
    simp [deleteRange,IDBKeyRangeData.isExactlyOneKey,IDBKeyRangeData.only]
  have hc : (out.deleteRecord key).log.cleared = out.log.cleared := by
    simp only [WrittenStore.deleteRecord,UndoLog.recordValueChanged]
    split_ifs <;> rfl
  simp only [WrittenStore.storeRecord,hdl]
  refine (h.deleteRecord hl).addRecord (fun hn => ?_) (containsRecord_deleteRecord out.store key)
    (hc ▸ hr)
  rw [hc] at hn
  simp only [WrittenStore.deleteRecord,UndoLog.recordValueChanged,hn,isSome_none,Bool.false_eq_true,
    if_false]
  split_ifs with hm
  · exact hm
  · simp

theorem Undoable.deleteInRange {r : IDBKeyRangeData K}
    (ho : r.isExactlyOneKey = false) : Undoable rules start (out.deleteInRange r ho) := by
  induction out, r, ho using deleteInRange.induct with
  | case1 out r ho hn =>
    rw [WrittenStore.deleteInRange]
    split
    · exact h
    next key hk => simp [hn] at hk
  | case2 out r ho key hk ih =>
    rw [WrittenStore.deleteInRange]
    split
    · exact h
    next key' hk' =>
      obtain rfl : key = key' := some_inj.1 (hk.symm.trans hk')
      exact ih (h.deleteRecord fun _ => .inr ((h.keysAgree key).1 (mem_orderedKeys_of_lowest ho hk)))

theorem Undoable.clear : Undoable rules start out.clear := by
  by_cases hc : out.log.cleared = none
  · rw [WrittenStore.clear]
    simp only [hc,isSome_none,Bool.false_eq_true,if_false]
    have hr := h.of_not_cleared hc
    exact ⟨⟨⟨hr.consistent.1,hr.consistent.2⟩,hr.infos,hr.nodup,
      hr.original,hr.untouched⟩,fun key => by simp [containsRecord,records],h.generator⟩
  · rw [WrittenStore.clear,if_pos (isSome_iff_ne_none.2 hc)]
    exact h

end

/-- The record's key is logged, and an index that refuses it does so first. -/
structure Storable (rules : DatabaseRules K D J) (written : WrittenStore K D J) (key : K) (value : Option D) : Prop where
  logged : written.Logged key
  refusesCleanly : written.log.cleared = none → RefusesCleanly rules.toValueRules value (written.store.deleteRecord key)

/-- The key that a put uses, when one is given or can be generated. -/
def usedKey (rules : DatabaseRules K D J) (written : WrittenStore K D J) {autoIncrement : Bool} :
    RequestKey K autoIncrement → Option K
  | .valid key => some key
  | .invalid _ =>
    if maxGeneratedKeyValue < written.store.keyGeneratorValue then none
    else some (rules.numberValue written.store.keyGeneratorValue)

/-- The value that a put stores, when the key can be injected. -/
def storedValue (rules : DatabaseRules K D J) (info : IDBObjectStoreInfo) (key : K) (value : Option D) :
    RequestKey K info.autoIncrement → Option (Option D)
  | .valid _ => some value
  | .invalid _ => if info.hasKeyPath then (rules.injectKey key value).map some else some value

/-- What a request stores may be stored, and a single key that it deletes is logged. -/
def Allowed (rules : DatabaseRules K D J) (info : IDBObjectStoreInfo) (written : WrittenStore K D J) :
    WriteRequest K D info.autoIncrement → Prop
  | .putOrAdd keyData value overwriteMode =>
    ∀ key ∈ written.usedKey rules keyData, ∀ stored ∈ storedValue rules info key value keyData,
      ¬ (overwriteMode = .noOverwrite ∧ written.store.containsRecord key) → written.Storable rules key stored
  | .deleteRecord range => range.isExactlyOneKey → ∀ key ∈ range.lowerKey, written.Logged key
  | .clearObjectStore => True

theorem Storable.setKeyGeneratorValue (h : out.Storable rules key value)
    (k : Nat) : (out.setKeyGeneratorValue k).Storable rules key value := by
  refine ⟨h.logged,fun hc => ?_⟩
  have hi : ((out.setKeyGeneratorValue k).store.deleteRecord key).indexes =
      (out.store.deleteRecord key).indexes := by
    simp only [WrittenStore.setKeyGeneratorValue,MemoryObjectStore.deleteRecord]
    cases out.store.keyValueStore with
    | none => rfl
    | some kv =>
      dsimp only
      split_ifs <;> rfl
  rw [RefusesCleanly,hi]
  exact h.refusesCleanly hc

variable {overwriteMode : ObjectStoreOverwriteMode}

section
variable (h : Undoable rules start out)
include h

theorem Undoable.putOrAddUsedKey {g : Bool}
    (hst : ∀ s ∈ (if g && info.hasKeyPath then (rules.injectKey key value).map some else some value),
      ¬ (overwriteMode = .noOverwrite ∧ out.store.containsRecord key) → out.Storable rules key s) :
    Undoable rules start (out.putOrAddUsedKey rules info key g value overwriteMode).1 := by
  rw [WrittenStore.putOrAddUsedKey]
  split_ifs with he hi
  · exact h
  · rw [if_pos hi] at hst
    cases hin : rules.injectKey key value with
    | none => exact h
    | some i =>
      have hs := hst (some i) (by simp [hin]) he
      exact h.storeRecord hs.logged hs.refusesCleanly
  · rw [if_neg hi] at hst
    have hs := hst value rfl he
    exact h.storeRecord hs.logged hs.refusesCleanly

theorem Undoable.performPutOrAdd {k : RequestKey K info.autoIncrement}
    (ha : out.Allowed rules info (.putOrAdd k value overwriteMode)) :
    Undoable rules start (out.performPutOrAdd rules info value overwriteMode k).1 := by
  cases k with
  | valid key =>
    have hp : Undoable rules start (out.putOrAddUsedKey rules info key false value overwriteMode).1 := by
      apply h.putOrAddUsedKey
      intro s hst
      exact ha key rfl s (by simpa [storedValue] using hst)
    simp only [WrittenStore.performPutOrAdd]
    split_ifs
    · exact hp
    · cases rules.number key with
      | none => exact hp
      | some n =>
        simp only [elim_some,maybeUpdateKeyGeneratorNumber]
        split_ifs
        · exact hp
        · exact hp.setKeyGeneratorValue _
  | invalid gs =>
    by_cases hm : maxGeneratedKeyValue < out.store.keyGeneratorValue
    · simpa [WrittenStore.performPutOrAdd,hm] using h
    · have hp : Undoable rules start ((out.setKeyGeneratorValue (out.store.keyGeneratorValue+1)).putOrAddUsedKey
          rules info (rules.numberValue out.store.keyGeneratorValue) true value overwriteMode).1 := by
        apply (h.setKeyGeneratorValue _).putOrAddUsedKey
        intro s hst he
        have hs := ha _ (by simp [usedKey,hm]) s (by simpa [storedValue] using hst) he
        exact hs.setKeyGeneratorValue _
      simp only [WrittenStore.performPutOrAdd,hm,if_false]
      split_ifs
      · exact hp.setKeyGeneratorValue _
      · exact hp

/-- One allowed request. -/
theorem Undoable.perform
    {r : WriteRequest K D info.autoIncrement} (ha : out.Allowed rules info r) :
    Undoable rules start (out.perform rules info r) := by
  cases r with
  | putOrAdd k value overwriteMode => exact h.performPutOrAdd ha
  | deleteRecord rn =>
    simp only [WrittenStore.perform,deleteRange]
    split_ifs with ho
    · cases hl : rn.lowerKey with
      | none => exact h
      | some key => exact h.deleteRecord (ha ho key hl)
    · exact h.deleteInRange _
  | clearObjectStore => exact h.clear

end

/-- A store whose first clear found no map has no record, and the original values can be put back in any order. -/
structure Restorable (rules : DatabaseRules K D J) (written : WrittenStore K D J) : Prop where
  empty : ∀ cleared ∈ written.log.cleared, cleared.keyValueMap = none → ∀ key, written.store.containsRecord key = false
  free : ReplaysFreely rules.toValueRules written.log.originalValues written.replayStart

theorem Undoable.replayStart (h : Undoable rules start out) (hr : out.Restorable rules) :
    Recoverable rules.toValueRules start out.log.originalValues out.replayStart := by
  have hre := h.recoverable
  have he := hr.empty
  rw [saved] at hre
  rw [WrittenStore.replayStart]
  rcases hc : out.log.cleared with _ | ⟨_ | keyValueMap,os,ind⟩ <;>
    rw [hc] at hre he
  · exact ⟨⟨hre.consistent.1,hre.consistent.2⟩,hre.infos,hre.nodup,hre.original,hre.untouched⟩
  · have hrc : out.store.records = fun _ => none :=
      funext fun key => (containsRecord_eq_false_iff key).1 (he _ rfl rfl key)
    refine ⟨⟨h.keysAgree,fun i hi => ?_⟩,hre.infos,hre.nodup,hre.original,fun key hk => ?_⟩
    · exact hrc ▸ hre.consistent.holds i hi
    · exact (congrFun hrc key).trans (hre.untouched key hk)
  · exact hre

theorem Undoable.abort (hs : start.Consistent rules.toValueRules) (h : Undoable rules start out)
    (hr : out.Restorable rules) (o : Base.IterationOrder (K × Option D)) :
    (out.abort rules o).content = start.content ∧
      (out.abort rules o).keyGeneratorValue = start.keyGeneratorValue := by
  have hp := o.visit_perm out.log.originalValues
  have hf : ReplaysFreely rules.toValueRules (o.visit out.log.originalValues) out.replayStart :=
    fun e he => hr.free e (hp.mem_iff.1 he)
  obtain ⟨hc,hg⟩ := ((h.replayStart hr).perm hp).replay hs hf
  refine ⟨hc,hg.trans (Eq.trans ?_ h.generator)⟩
  rw [WrittenStore.replayStart]
  rcases out.log.cleared with _ | ⟨_ | keyValueMap,os,i⟩ <;> rfl

end WrittenStore
end

namespace ReadWriteTransaction
section
variable {ι : Type*} [DecidableEq ι] (rules : DatabaseRules K D J) (info : ι → IDBObjectStoreInfo)

/-- Every request is allowed when it is made. -/
def AllowedRun (stores : ι → MemoryObjectStore K D J) (actions : List (Action K D info)) : Prop :=
  Base.Guarded (step rules info) (fun state action => (state action.1).Allowed rules (info action.1) action.2)
    (start stores) actions

variable {rules info}

/-- Aborting an allowed run gives every object store in scope its contents and key generator back. -/
theorem abort_restores [IDBKeyData.KeySet K] {stores : ι → MemoryObjectStore K D J}
    (hstores : ∀ i, (stores i).Consistent rules.toValueRules) {actions : List (Action K D info)}
    (hallowed : AllowedRun rules info stores actions) {i : ι}
    (hrestorable : (run rules info stores actions i).Restorable rules) (order : Base.IterationOrder (K × Option D)) :
    ((run rules info stores actions i).abort rules order).content = (stores i).content ∧
      ((run rules info stores actions i).abort rules order).keyGeneratorValue = (stores i).keyGeneratorValue := by
  have hu : ∀ j, (run rules info stores actions j).Undoable rules (stores j) := by
    refine Base.Guarded.invariant (I := fun state => ∀ j, (state j).Undoable rules (stores j))
      (fun state action hs ha j => ?_) hallowed fun j => WrittenStore.Undoable.of_begin (hstores j)
    by_cases hj : j = action.1
    · subst hj
      rw [step,update_self]
      exact (hs _).perform ha
    · rw [step,update_of_ne hj]
      exact hs j
  exact (hu i).abort (hstores i) hrestorable order

end

section
def plainRules : DatabaseRules Nat Nat Nat where
  isValid _ := true
  arrayKey _ := 0
  deserialize := some
  numberValue := id
  number key := some key
  injectKey _ value := value

def plainInfo (_ : Unit) : IDBObjectStoreInfo := ⟨false,false⟩

def lastDigit : MemoryIndex Nat Nat := ⟨⟨true,false,fun n => [n%10]⟩,none⟩

def noRecords : MemoryObjectStore Nat Nat Nat := ⟨none,none,[lastDigit],1⟩

def oneRecord : MemoryObjectStore Nat Nat Nat := (noRecords.addRecord plainRules.toValueRules 0 (some 15)).1

def put (key value : Nat) : Action Nat Nat plainInfo := ⟨(),.putOrAdd (.valid key) (some value) .overwrite⟩

def clear : Action Nat Nat plainInfo := ⟨(),.clearObjectStore⟩

theorem noRecords_consistent : noRecords.Consistent plainRules.toValueRules :=
  MemoryObjectStore.consistent_of_null rfl rfl (by simp [noRecords,lastDigit])

private theorem oneRecord_consistent : oneRecord.Consistent plainRules.toValueRules := by
  have hk : noRecords.containsRecord 0 = false := rfl
  have hf : ∀ i ∈ noRecords.indexes, MemoryObjectStore.violates plainRules.toValueRules (some 15) i = false := by
    decide
  obtain ⟨s,ha,hc,-⟩ := MemoryObjectStore.addRecord_of_not_violates noRecords_consistent hk hf
  rw [oneRecord,ha]
  exact hc

private theorem replaced_allowed : AllowedRun plainRules plainInfo (fun _ => oneRecord) [put 0 27, clear, put 3 15] := by
  refine ⟨?_,trivial,?_,trivial⟩
  · rintro _ ⟨⟩ _ ⟨⟩ -
    exact ⟨fun _ => .inr (by decide),fun _ hv => absurd hv (by decide)⟩
  · rintro _ ⟨⟩ _ ⟨⟩ -
    exact ⟨fun hc => (nomatch hc),fun hc => (nomatch hc)⟩

private theorem replaced_restorable :
    (run plainRules plainInfo (fun _ => oneRecord) [put 0 27, clear, put 3 15] ()).Restorable plainRules := by
  refine ⟨?_,?_⟩
  · rintro _ ⟨⟩ hn
    nomatch hn
  · unfold ReplaysFreely
    decide

/-- A record that is replaced, then cleared away while a new one takes its index key, comes back. -/
theorem abort_restores_replaced :
    ((run plainRules plainInfo (fun _ => oneRecord) [put 0 27, clear, put 3 15] ()).abort plainRules
      (.insertion _)).content = oneRecord.content :=
  (abort_restores (fun _ => oneRecord_consistent) replaced_allowed replaced_restorable _).1

/-- A new record is left behind with a null buffer, and so is one put after the clear of a store
that never had a record. -/
theorem abort_leaves_records : noRecords.Consistent plainRules.toValueRules ∧
      ((run plainRules plainInfo (fun _ => noRecords) [put 3 15] ()).abort plainRules (.insertion _)).content ≠
        noRecords.content ∧
      ((run plainRules plainInfo (fun _ => noRecords) [clear, put 3 15] ()).abort plainRules (.insertion _)).content ≠
        noRecords.content := by
  refine ⟨noRecords_consistent,fun he => ?_,fun he => ?_⟩
  · have hr := congrFun (congrArg Prod.fst he) 3
    revert hr
    decide
  · have hr := congrFun (congrArg Prod.fst he) 3
    revert hr
    decide

end
end ReadWriteTransaction
end WebKit.IndexedDB
