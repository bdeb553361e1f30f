import WebKit.Base.HashMap

/-! Hash maps with their invariant: lists of entries in which no key occurs twice. -/
namespace WebKit.Base

structure Table (κ ν : Type*) where
  entries : List (κ × ν)
  nodup : (entries.map Prod.fst).Nodup

namespace Table
variable {κ ν : Type*}

def empty : Table κ ν := ⟨[],List.nodup_nil⟩

def values (table : Table κ ν) : List ν := table.entries.map Prod.snd

variable [DecidableEq κ]

def get (table : Table κ ν) (key : κ) : Option ν := HashMap.get key table.entries

/-- Change the value of a key, first added with an initial value if absent. -/
def update (table : Table κ ν) (key : κ) (initial : ν) (f : ν → ν) : Table κ ν where
  entries := HashMap.update key initial f table.entries
  nodup := by
    rw [HashMap.keys_update]
    exact HashSet.nodup_add table.nodup

def set (table : Table κ ν) (key : κ) (value : ν) : Table κ ν := table.update key value fun _ => value

def add (table : Table κ ν) (key : κ) (value : ν) : Table κ ν := table.update key value id

def remove (table : Table κ ν) (key : κ) : Table κ ν where
  entries := table.entries.filter fun entry => entry.1 ≠ key
  nodup := table.nodup.sublist (List.filter_sublist.map _)

variable {table : Table κ ν} {key k : κ} {value v : ν}

theorem get_eq_some_iff : table.get k = some v ↔ (k, v) ∈ table.entries := HashMap.get_eq_some_iff table.nodup

theorem mem_values_iff : v ∈ table.values ↔ ∃ k, table.get k = some v := by
  simp [values,get_eq_some_iff]

@[simp] theorem get_empty : (empty : Table κ ν).get k = none := rfl

theorem get_set : (table.set key value).get k = if k = key then some value else table.get k :=
  HashMap.get_update key value _ table.entries k

theorem get_add : (table.add key value).get k = if k = key then some ((table.get key).getD value) else table.get k :=
  HashMap.get_update key value _ table.entries k

theorem get_remove : (table.remove key).get k = if k = key then none else table.get k := by
  ext v
  rw [get_eq_some_iff,remove,List.mem_filter]
  by_cases hk : k = key
  · simp [hk]
  · simp [hk,get_eq_some_iff]

end Table
end WebKit.Base
