import Mathlib.Data.List.Basic

/-! Decoders that take a value from the front of their input: what they accept is what an encoder has written. -/
namespace WebKit.Base
open List

section
universe u

variable {ε : Type*} {α β : Type u} {x : Except ε α} {f : α → Except ε β}

theorem bind_eq_ok {b : β} : x >>= f = .ok b ↔ ∃ a, x = .ok a ∧ f a = .ok b := by
  cases x with
  | error e => exact ⟨nofun,fun ⟨_,h,_⟩ => nomatch h⟩
  | ok a => exact ⟨fun h => ⟨a,rfl,h⟩,fun ⟨_,ha,h⟩ => Except.ok.inj ha ▸ h⟩

theorem bind_eq_error {e : ε} : x >>= f = .error e ↔ x = .error e ∨ ∃ a, x = .ok a ∧ f a = .error e := by
  cases x with
  | error e' =>
    refine ⟨fun h => .inl (congrArg _ (Except.error.inj h)),?_⟩
    rintro (h | ⟨_,ha,_⟩)
    · exact congrArg _ (Except.error.inj h)
    · cases ha
  | ok a => exact ⟨fun h => .inr ⟨a,rfl,h⟩,fun h => h.elim (fun h => nomatch h) fun ⟨_,ha,h⟩ => Except.ok.inj ha ▸ h⟩

/-- A value is made of what has been decoded. -/
theorem bind_make_eq_ok {α' β' : Type u} {rest : β'} {d : Except ε (α' × β')} {m : α' → α} {a : α} :
    (do
      let (value, data) ← d
      return (m value, data)) = .ok (a, rest) ↔ ∃ value, d = .ok (value, rest) ∧ a = m value := by
  rw [bind_eq_ok]
  constructor
  · rintro ⟨⟨value,rest'⟩,hdc,h⟩
    cases h
    exact ⟨value,hdc,rfl⟩
  · rintro ⟨value,hdc,rfl⟩
    exact ⟨(value, rest),hdc,rfl⟩

end

section
variable {ε α β : Type*}

/-- The decoder accepts just what stands for a value, with anything after it, up to a length. -/
def Parses (decode : List β → Except ε (α × List β)) (code : α → List β → Prop) (bound : Nat) : Prop :=
  ∀ data a rest, data.length ≤ bound → (decode data = .ok (a, rest) ↔ ∃ bytes, code a bytes ∧ data = bytes ++ rest)

/-- The decoder accepts just the encodings of a kind of values, with anything after them, up to a length. -/
def Decodes (decode : List β → Except ε (α × List β)) (encode : α → List β) (kind : α → Prop) (bound : Nat) : Prop :=
  ∀ data a rest, data.length ≤ bound → (decode data = .ok (a, rest) ↔ kind a ∧ data = encode a ++ rest)

/-- What stands for several values, one after the other. -/
inductive Sequence (code : α → List β → Prop) : List α → List β → Prop where
  | nil : Sequence code [] []
  | cons {a : α} {as : List α} {bytes bytes' : List β} (ha : code a bytes) (has : Sequence code as bytes') :
    Sequence code (a::as) (bytes ++ bytes')

def decodeElements (decode : List β → Except ε (α × List β)) : Nat → List β → Except ε (List α × List β)
  | 0, data => .ok ([], data)
  | count + 1, data => do
    let (element, data) ← decode data
    let (elements, data) ← decodeElements decode count data
    return (element::elements, data)

variable {decode : List β → Except ε (α × List β)} {encode : α → List β} {kind : α → Prop} {bound count : Nat}
  {data rest : List β}

theorem decodeElements_succ {as : List α} : decodeElements decode (count+1) data = .ok (as, rest) ↔
    ∃ a data' as', decode data = .ok (a, data') ∧ decodeElements decode count data' = .ok (as', rest) ∧ as = a::as' := by
  rw [decodeElements,bind_eq_ok]
  constructor
  · rintro ⟨⟨a,data'⟩,ha,h⟩
    obtain ⟨⟨as',rest'⟩,has,h⟩ := bind_eq_ok.1 h
    cases h
    exact ⟨a,data',as',ha,has,rfl⟩
  · rintro ⟨a,data',as',ha,has,rfl⟩
    exact ⟨(a, data'),ha,bind_eq_ok.2 ⟨(as', rest),has,rfl⟩⟩

theorem decodeElements_succ_error {e : ε} : decodeElements decode (count+1) data = .error e ↔
    decode data = .error e ∨ ∃ a data', decode data = .ok (a, data') ∧ decodeElements decode count data' = .error e := by
  rw [decodeElements,bind_eq_error]
  refine or_congr_right ⟨?_,?_⟩
  · rintro ⟨⟨a,data'⟩,ha,h⟩
    obtain has | ⟨_,_,h⟩ := bind_eq_error.1 h
    · exact ⟨a,data',ha,has⟩
    · cases h
  · rintro ⟨a,data',ha,has⟩
    exact ⟨(a, data'),ha,bind_eq_error.2 (.inl has)⟩

theorem Decodes.mono {bound' : Nat} (h : Decodes decode encode kind bound) (hl : bound' ≤ bound) :
    Decodes decode encode kind bound' :=
  fun data a rest hb => h data a rest (Nat.le_trans hb hl)

theorem Decodes.parses (h : Decodes decode encode kind bound) :
    Parses decode (fun a bytes => kind a ∧ bytes = encode a) bound := by
  intro data a rest hb
  simp only [h data a rest hb,and_assoc,exists_and_left,exists_eq_left]

section
variable {code code' : α → List β → Prop} {as : List α} {bytes : List β}

theorem sequence_nil_iff : Sequence code [] bytes ↔ bytes = [] :=
  ⟨fun h => by cases h; rfl,fun h => h ▸ .nil⟩

theorem sequence_cons_iff {a : α} :
    Sequence code (a::as) bytes ↔ ∃ first rest, code a first ∧ Sequence code as rest ∧ bytes = first ++ rest := by
  refine ⟨fun h => ?_,fun ⟨_,_,ha,has,h⟩ => h ▸ .cons ha has⟩
  cases h with
  | cons ha has => exact ⟨_,_,ha,has,rfl⟩

theorem sequence_iff :
    Sequence (fun a bytes => kind a ∧ bytes = encode a) as bytes ↔ (∀ a ∈ as, kind a) ∧ bytes = as.flatMap encode := by
  induction as generalizing bytes with
  | nil => simp [sequence_nil_iff]
  | cons a as ih => simp [sequence_cons_iff,ih,and_assoc]

theorem Sequence.exists_of_mem (h : Sequence code as bytes) : ∀ a ∈ as, ∃ bytes, code a bytes := by
  induction h with
  | nil => exact nofun
  | cons ha _ ih => exact forall_mem_cons.2 ⟨⟨_,ha⟩,ih⟩

theorem exists_sequence (h : ∀ a ∈ as, ∃ bytes, code a bytes) : ∃ bytes, Sequence code as bytes := by
  induction as with
  | nil => exact ⟨[],.nil⟩
  | cons a as ih =>
    obtain ⟨⟨bytes,ha⟩,h⟩ := forall_mem_cons.1 h
    obtain ⟨bytes',has⟩ := ih h
    exact ⟨bytes ++ bytes',.cons ha has⟩

theorem Sequence.imp_of_mem (h : Sequence code as bytes) (hi : ∀ a ∈ as, ∀ bytes, code a bytes → code' a bytes) :
    Sequence code' as bytes := by
  induction h with
  | nil => exact .nil
  | cons ha _ ih =>
    obtain ⟨hf,hi⟩ := forall_mem_cons.1 hi
    exact .cons (hf _ ha) (ih hi)

end

/-- Decoded elements stand one after the other in the input. -/
theorem Parses.elements {code : α → List β → Prop} (h : Parses decode code bound) (count : Nat) :
    Parses (decodeElements decode count) (fun as bytes => as.length = count ∧ Sequence code as bytes) bound := by
  intro data as rest hb
  induction count generalizing data as with
  | zero =>
    cases as with
    | nil => simp [decodeElements,sequence_nil_iff]
    | cons => simp [decodeElements]
  | succ count ih =>
    rw [decodeElements_succ]
    constructor
    · rintro ⟨a,data',as',ha,has,rfl⟩
      obtain ⟨bytes,hby,rfl⟩ := (h data a data' hb).1 ha
      rw [length_append] at hb
      obtain ⟨bytes',⟨rfl,hby'⟩,rfl⟩ := (ih data' as' (by omega)).1 has
      exact ⟨bytes ++ bytes',⟨rfl,.cons hby hby'⟩,(append_assoc _ _ _).symm⟩
    · rintro ⟨_,⟨hl,hby⟩,rfl⟩
      cases hby with
      | nil => cases hl
      | @cons a as' bytes bytes' ha has =>
        rw [append_assoc] at hb ⊢
        refine ⟨a,bytes' ++ rest,as',(h _ a _ hb).2 ⟨bytes,ha,rfl⟩,?_,rfl⟩
        rw [length_append] at hb
        exact (ih _ as' (by omega)).2 ⟨bytes',⟨Nat.succ.inj hl,has⟩,rfl⟩

/-- Decoded elements have been encoded one after the other. -/
theorem Decodes.elements (h : Decodes decode encode kind bound) (count : Nat) :
    Decodes (decodeElements decode count) (List.flatMap encode) (fun as => as.length = count ∧ ∀ a ∈ as, kind a) bound := by
  intro data as rest hb
  simp only [h.parses.elements count data as rest hb,sequence_iff,and_assoc,exists_and_left,exists_eq_left]

/-- Elements fail as the first one that fails. -/
theorem Decodes.elements_error (h : Decodes decode encode kind bound) {e : ε} (hb : data.length ≤ bound) :
    decodeElements decode count data = .error e ↔
      ∃ (as : List α) (rest : List β), as.length < count ∧ (∀ a ∈ as, kind a) ∧ data = as.flatMap encode ++ rest ∧
        decode rest = .error e := by
  induction count generalizing data with
  | zero => exact ⟨nofun,fun ⟨_,_,hl,_⟩ => absurd hl (Nat.not_lt_zero _)⟩
  | succ count ih =>
    rw [decodeElements_succ_error]
    constructor
    · rintro (he | ⟨a,data',ha,he⟩)
      · exact ⟨[],data,Nat.succ_pos _,nofun,rfl,he⟩
      · obtain ⟨hkn,rfl⟩ := (h data a data' hb).1 ha
        rw [length_append] at hb
        obtain ⟨as,rest,hl,hk,rfl,hr⟩ := (ih (by omega)).1 he
        exact ⟨a::as,rest,Nat.succ_lt_succ hl,forall_mem_cons.2 ⟨hkn,hk⟩,
          by rw [flatMap_cons,append_assoc],hr⟩
    · rintro ⟨as,rest,hl,hk,rfl,hr⟩
      cases as with
      | nil => exact .inl hr
      | cons a as =>
        obtain ⟨hkn,hk⟩ := forall_mem_cons.1 hk
        rw [flatMap_cons,append_assoc] at hb ⊢
        refine .inr ⟨a,_,(h _ a _ hb).2 ⟨hkn,rfl⟩,?_⟩
        rw [length_append] at hb
        exact (ih (by omega)).2 ⟨as,rest,Nat.lt_of_succ_lt_succ hl,hk,rfl,hr⟩

end
end WebKit.Base
