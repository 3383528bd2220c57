import LiskEngine.DiffdbHandles

/-! Tables in a store of byte strings. Each table has a first byte of its own, a code for its
keys and an encoding for its values; writes to one table leave the others as they are. -/
namespace LiskEngine.KeyFamily
open Diffdb List Option OrderedMap

structure KeyCode (K : Type) [LinearOrder K] where
  code : K → Bytes
  valid : K → Prop
  ordered : ∀ k k', valid k → valid k' → k < k' → code k < code k'

def plainKeys : KeyCode Bytes := ⟨id,fun _ => True,fun _ _ _ _ less => less⟩

def under (first : UInt8) (writes : List (Write Bytes Bytes)) : List (Write Bytes Bytes) :=
  writes.filter (fun w => w.key.head? = some first)

section
variable (first p : UInt8) (k v : Bytes) (writes others : List (Write Bytes Bytes))

theorem underNil : under first [] = [] := by simp [under]

theorem underSet : under first (.set (p::k) v::writes) =
    if p = first then .set (p::k) v::under first writes else under first writes := by
  simp [under,filter_cons,Write.key]

theorem underDel : under first (.del (p::k)::writes) = if p = first then .del (p::k)::under first writes else under first writes := by
  simp [under,filter_cons,Write.key]

theorem underAppend : under first (writes ++ others) = under first writes ++ under first others := filter_append _ _

theorem underIf (cond : Prop) [Decidable cond] : under first (if cond then writes else others) =
    if cond then under first writes else under first others := apply_ite (under first) _ _ _

theorem underAll {writes} (all : ∀ w ∈ writes, w.key.head? = some p) : under first writes = if p = first then writes else [] := by
  split
  · rename_i same
    exact filter_eq_self.mpr (fun w mem => by simpa [same] using all w mem)
  · rename_i apart
    exact filter_eq_nil_iff.mpr (fun w mem => by simpa [all w mem] using apart)

end

section
variable {K V : Type} [LinearOrder K]

theorem KeyCode.injective (c : KeyCode K) (valid : c.valid k) (valid' : c.valid k') (same : c.code k = c.code k') : k = k' := by
  rcases lt_trichotomy k k' with smaller | eq | more
  · exact absurd same (c.ordered k k' valid valid' smaller).ne
  · exact eq
  · exact absurd same.symm (c.ordered k' k valid' valid more).ne

structure Family (raw : OrderedMap Bytes Bytes) (first : UInt8) (c : KeyCode K) (encode : V → Option Bytes)
    (table : OrderedMap K V) : Prop where
  reads : ∀ k, c.valid k → raw.get (first :: c.code k) = (table.get k).bind encode
  only : ∀ key, (∀ k, c.valid k → c.code k ≠ key) → raw.get (first :: key) = none
  held : ∀ k v, table.get k = some v → c.valid k ∧ ∃ data, encode v = some data

variable {raw : OrderedMap Bytes Bytes} {first : UInt8} {c : KeyCode K} {encode : V → Option Bytes} {table : OrderedMap K V}

theorem familyEmpty : Family OrderedMap.empty first c encode (OrderedMap.empty : OrderedMap K V) where
  reads _ _ := rfl
  only _ _ := rfl
  held k v found := by cases found

section
variable (family : Family raw first c encode table)
include family

theorem Family.change {k} (valid : c.valid k) {w : Write Bytes Bytes}
    (key : w.key = first::c.code k) {x : Option V} (res : w.result = x.bind encode)
    (encodable : ∀ v ∈ x, ∃ data, encode v = some data) {table' : OrderedMap K V}
    (gets : ∀ k', table'.get k' = if k' = k then x else table.get k') : Family (applyWrite raw w) first c encode table' where
  reads k' valid' := by
    rw [applyWriteGet,gets,key,family.reads k' valid',res]
    by_cases same : k' = k
    · simp [same]
    · have apart : c.code k' ≠ c.code k := fun eq => same (c.injective valid' valid eq)
      simp [same,apart]
  only other unused := by
    rw [applyWriteGet,key,if_neg (by simpa using (unused k valid).symm)]
    exact family.only other unused
  held k' v' found := by
    rw [gets] at found
    split at found
    · rename_i same
      exact ⟨same ▸ valid,encodable v' found⟩
    · exact family.held k' v' found

theorem Family.set (valid : c.valid k) (enc : encode v = some data) :
    Family (applyWrite raw (.set (first::c.code k) data)) first c encode (table.set k v) :=
  family.change valid rfl (by simp [Write.result,enc]) (by simp [enc]) (fun k' => table.getSet k k' v)

theorem Family.del (valid : c.valid k) : Family (applyWrite raw (.del (first::c.code k))) first c encode (table.del k) :=
  family.change (x := none) valid rfl rfl nofun (fun k' => table.getDel k k')

theorem Family.lookup (valid : c.valid k) (code : c.code k = key) : (table.get k = none ∧ raw.get (first::key) = none) ∨
      ∃ v data, table.get k = some v ∧ encode v = some data ∧ raw.get (first::key) = some data := by
  subst code
  have read := family.reads k valid
  cases stored : table.get k with
  | none => exact .inl ⟨rfl,by rw [read,stored]; rfl⟩
  | some v =>
    obtain ⟨_,data,enc⟩ := family.held k v stored
    exact .inr ⟨v,data,rfl,enc,by rw [read,stored]; exact enc⟩

end

theorem getFiltered (same : ∀ key, raw.get (first::key) = raw'.get (first::key)) (writes : List (Write Bytes Bytes))
    (key : Bytes) : (applyWrites raw writes).get (first::key) = (applyWrites raw' (under first writes)).get (first::key) := by
  induction writes generalizing raw raw' with
  | nil => exact same key
  | cons w rest ih =>
    rw [under,filter_cons]
    split
    · exact ih (fun other => by rw [applyWriteGet,applyWriteGet,same])
    · rename_i apart
      refine ih (fun other => ?_)
      rw [applyWriteGet,if_neg (fun eq => apart (by simp [← eq])),same]

theorem Family.filtered (family : Family (applyWrites raw (under first writes)) first c encode table) :
    Family (applyWrites raw writes) first c encode table where
  reads k valid := (getFiltered (fun _ => rfl) writes _).trans (family.reads k valid)
  only key other := (getFiltered (fun _ => rfl) writes _).trans (family.only key other)
  held := family.held

theorem Family.ite {cond : Prop} [Decidable cond] (yes : cond → Family (applyWrites raw writes) first c encode table)
    (no : ¬cond → Family (applyWrites raw others) first c encode table') :
    Family (applyWrites raw (if cond then writes else others)) first c encode (if cond then table else table') := by
  split
  · exact yes ‹_›
  · exact no ‹_›

theorem Family.entries (family : Family raw first c encode table) : raw.entries.filter (fun e => [first].isPrefixOf e.1) =
      table.entries.filterMap (fun e => (encode e.2).map (fun data => (first::c.code e.1,data))) := by
  refine ascendingEq (raw.sorted.filter _) ?_ (fun e => ?_)
  · refine List.Pairwise.filterMap _ (fun a b less a' from_ b' from_' => ?_) (List.Pairwise.and_mem.mp table.sorted)
    obtain ⟨_,_,rfl⟩ := map_eq_some_iff.mp from_
    obtain ⟨_,_,rfl⟩ := map_eq_some_iff.mp from_'
    have valid : ∀ x ∈ table.entries, c.valid x.1 := fun x mem => (family.held x.1 x.2 ((table.memIffGet _ _).mp mem)).1
    exact cons_lt_cons_iff.mpr (.inr ⟨rfl,c.ordered _ _ (valid a less.1) (valid b less.2.1) less.2.2⟩)
  · obtain ⟨key,data⟩ := e
    rw [mem_filter,memIffGet,mem_filterMap]
    constructor
    · rintro ⟨hit,starts⟩
      obtain ⟨rest,rfl⟩ : ∃ rest, key = first::rest := by
        cases key with
        | nil => cases starts
        | cons byte rest =>
          obtain rfl : first = byte := by simpa using starts
          exact ⟨rest,rfl⟩
      by_cases coded : ∃ k, c.valid k ∧ c.code k = rest
      · obtain ⟨k,valid,rfl⟩ := coded
        rw [family.reads k valid] at hit
        obtain ⟨v,held,enc⟩ := bind_eq_some_iff.mp hit
        exact ⟨(k,v),(table.memIffGet k v).mpr held,by simp [enc]⟩
      · rw [family.only rest (fun k valid same => coded ⟨k,valid,same⟩)] at hit
        cases hit
    · rintro ⟨⟨k,v⟩,mem,made⟩
      obtain ⟨data',enc,same⟩ := map_eq_some_iff.mp made
      cases same
      have held := (table.memIffGet k v).mp mem
      refine ⟨?_,by simp⟩
      rw [family.reads k (family.held k v held).1,held]
      exact enc

end

end LiskEngine.KeyFamily
