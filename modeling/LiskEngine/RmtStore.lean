import LiskEngine.RmtLayers
import LiskEngine.SmtRoot
import LiskEngine.CodecRoundTrip

/-! The node tables of the regular Merkle tree. Hashes are 32 bytes and locations 16, so
that the two tables, the information and the deleted keys never meet. -/
namespace LiskEngine.Rmt
open List hiding span
open SplitTree OrderedMap
open Nat (clog)
open Smt (CollisionFree)
open Codec (Normalizer)

theorem fromUint64Length (n : Nat) : (fromUint64 n).length = 8 := by simp [fromUint64]

theorem toUint64Back (small : n < 18446744073709551616) (rest : Bytes) : toUint64 (fromUint64 n ++ rest) = n := by
  have front : (fromUint64 n ++ rest).take 8 = fromUint64 n := by
    rw [take_append_of_le_length (by rw [fromUint64Length]),take_of_length_le (by rw [fromUint64Length])]
  have digit : ∀ k, 256*(n/256^(k+1))+n/256^k % 2^8 = n/256^k := by
    intro k
    rw [Nat.pow_succ,← Nat.div_div_eq_div_mul]
    exact Nat.div_add_mod (n/256^k) 256
  have top : n/256^7 % 2^8 = n/256^7 := Nat.mod_eq_of_lt (Nat.div_lt_of_lt_mul small)
  rw [toUint64,front]
  simp only [fromUint64,show range 8 = [0,1,2,3,4,5,6,7] from rfl,map_cons,map_nil,foldl_cons,
    foldl_nil,UInt8.toNat_ofNat',Nat.reduceSub]
  rw [Nat.mul_zero,Nat.zero_add,top,digit 6,digit 5,digit 4,digit 3,digit 2,digit 1,digit 0,Nat.pow_zero,Nat.div_one]

structure NodeLocation.Small (loc : NodeLocation) : Prop where
  node : loc.nodeIndex < 18446744073709551616
  layer : loc.layerIndex < 18446744073709551616

theorem keyLength (loc : NodeLocation) : loc.key.length = 16 := by
  simp [NodeLocation.key,fromUint64Length]

theorem keyBack (small : loc.Small) : newNodeLocationFromKey loc.key = .ok loc := by
  have later : loc.key.drop 8 = fromUint64 loc.nodeIndex ++ [] := by
    rw [NodeLocation.key,drop_left' (fromUint64Length _),append_nil]
  rw [newNodeLocationFromKey,if_neg (by rw [keyLength]; decide),later,toUint64Back small.node,NodeLocation.key,
    toUint64Back small.layer]

theorem keyInjective {loc loc' : NodeLocation} (small : loc.Small) (small' : loc'.Small) (same : loc.key = loc'.key) : loc = loc' := by
  have back := keyBack small
  rw [same,keyBack small'] at back
  exact (Except.ok.inj back).symm

section
variable {db : Db} {hash : Bytes} {loc : NodeLocation} (long : hash.length = 32) (small : loc.Small)
include long

theorem hashKeyApart (loc : NodeLocation) : storePrefixHashToLoc::hash ≠ storePrefixHashToLoc::loc.key := by
  intro same
  have lens := congrArg List.length same
  simp only [length_cons,keyLength,long] at lens
  omega

theorem getHashDel (loc : NodeLocation) : getHash (db.del hash) loc = getHash db loc := by
  rw [getHash,getDel,if_neg,getHash]
  intro same
  have lens := congrArg List.length same
  simp only [length_cons,keyLength,long] at lens
  omega

theorem getLocationDel (long' : hash'.length = 32) : getLocation (db.del hash) hash' = getLocation db hash' := by
  rw [getLocation,getDel,if_neg,getLocation]
  intro same
  have lens := congrArg List.length same
  simp only [length_cons,long,long'] at lens
  omega

include small

theorem getHashSave {loc'} (small' : loc'.Small) :
    getHash (saveNode db hash loc) loc' = if loc' = loc then some hash else getHash db loc' := by
  rw [getHash,saveNode,getSet]
  by_cases same : loc' = loc
  · rw [same,if_pos rfl,if_pos rfl]
  · rw [if_neg same,if_neg (fun equal => same (keyInjective small' small (cons.inj equal).2)),getSet,
      if_neg (hashKeyApart long loc').symm,getHash]

omit long in
theorem getLocationSave (long' : hash'.length = 32) :
    getLocation (saveNode db hash loc) hash' = if hash' = hash then .ok loc else getLocation db hash' := by
  rw [getLocation,saveNode,getSet,if_neg (hashKeyApart long' loc),getSet]
  by_cases same : hash' = hash
  · rw [same,if_pos rfl,if_pos rfl]
    exact keyBack small
  · rw [if_neg same,if_neg (fun equal => same (cons.inj equal).2),getLocation]

end

theorem getHashInfo (db : Db) (infoByte : Bytes) (loc : NodeLocation) :
    getHash (db.set [storePrefixInfo] infoByte) loc = getHash db loc := by
  rw [getHash,getSet,if_neg (fun same => by cases same),getHash]

theorem getLocationInfo (db : Db) (infoByte : Bytes) (hash : Bytes) :
    getLocation (db.set [storePrefixInfo] infoByte) hash = getLocation db hash := by
  rw [getLocation,getSet,if_neg (fun same => by cases same),getLocation]

theorem infoEncodes (text : Normalizer) (root : Bytes) (appendPath : List Bytes) (size : Nat) :
    ∃ infoByte, info.encode text (root,appendPath,size,()) = some infoByte :=
  Codec.Schema.encodeSome info (by decide) _

theorem saveInfoOk (text : Normalizer) (d : RegularMerkleTree) : ∃ infoByte,
    info.encode text (d.root,d.appendPath,d.size,()) = some infoByte ∧
      d.saveInfo text = .ok {d with db := d.db.set [storePrefixInfo] infoByte} := by
  obtain ⟨infoByte,enc⟩ := infoEncodes text d.root d.appendPath d.size
  exact ⟨infoByte,enc,by rw [RegularMerkleTree.saveInfo,enc]⟩

def nodeHash (sha : Bytes → Bytes) (values : List Bytes) (i l : Nat) : Bytes := calculateRoot sha (span values i l)

def treeStrings (sha : Bytes → Bytes) (values : List Bytes) : List Bytes :=
  values.map (fun value => 0 :: value) ++ (List.range (getHeight values.length)).flatMap (fun l =>
    (List.range (width values.length (l + 1))).map (fun i =>
      1 :: (nodeHash sha values (2 * i) l ++ nodeHash sha values (2 * i + 1) l)))

section
variable {sha : Bytes → Bytes} {vs : List Bytes} {i l : Nat}

theorem nodeHashBranch (stands : Stands vs.length i (l+1)) : nodeHash sha vs i (l+1) =
    sha (1::(nodeHash sha vs (2*i) l ++ nodeHash sha vs (2*i+1) l)) := nodeBranch stands

theorem nodeHashShort (fallen : ¬Stands vs.length i (l+1)) :
    nodeHash sha vs i (l+1) = nodeHash sha vs (2*i) l := nodeShort fallen

theorem nodeHashLeaf (hit : vs[i]? = some value) : nodeHash sha vs i 0 = sha (0::value) := nodeLeaf hit

theorem nodeHashLength (size : ∀ data, (sha data).length = 32) (vs : List Bytes) (i l : Nat) : (nodeHash sha vs i l).length = 32 := by
  unfold nodeHash calculateRoot
  match span vs i l with
  | [] | [x] => exact size _
  | x::y::rest =>
    exact size _

theorem standsHeight (stands : Stands vs.length i (l+1)) : l < getHeight vs.length := by
  have half : 2^l < vs.length := by
    have covers := standsSucc.mp stands
    exact lt_of_le_of_lt (Nat.le_mul_of_pos_left _ (by omega)) covers
  have top := Nat.le_pow_clog (show 1 < 2 by decide) vs.length
  have smaller := (Nat.pow_lt_pow_iff_right (show 1 < 2 by decide)).mp (lt_of_lt_of_le half top)
  unfold getHeight
  omega

theorem leafString (hit : vs[i]? = some value) : 0::value ∈ treeStrings sha vs :=
  mem_append_left _ (mem_map_of_mem (mem_of_getElem? hit))

theorem branchString (stands : Stands vs.length i (l+1)) :
    1::(nodeHash sha vs (2*i) l ++ nodeHash sha vs (2*i+1) l) ∈ treeStrings sha vs := by
  refine mem_append_right _ (mem_flatMap.mpr ⟨l,mem_range.mpr (standsHeight stands),?_⟩)
  exact mem_map.mpr ⟨i,mem_range.mpr (standsWidth.mp stands),rfl⟩

theorem spanHalves (vs : List Bytes) (i l : Nat) : span vs i (l+1) = span vs (2*i) l ++ span vs (2*i+1) l := by
  rw [← spanLeft,← spanRight,take_append_drop]

end

theorem nodeInjective (size : ∀ data, (sha data).length = 32) (free : CollisionFree sha strings)
    (hashed : ∀ s ∈ treeStrings sha vs, s ∈ strings) (hashed' : ∀ s ∈ treeStrings sha values', s ∈ strings)
    (covers : i*2^l < vs.length) (covers' : i'*2^l' < values'.length)
    (same : nodeHash sha vs i l = nodeHash sha values' i' l') : span vs i l = span values' i' l' := by
  induction hn : l+l' using Nat.strong_induction_on generalizing i l i' l' with
  | _ n ih =>
    by_cases fallen : ∃ k, l = k+1 ∧ ¬Stands vs.length i (k+1)
    · obtain ⟨k,rfl,fallen⟩ := fallen
      rw [spanShort fallen]
      rw [nodeHashShort fallen] at same
      exact ih (k+l') (by omega) (leftCovers covers) covers' same rfl
    by_cases fallen' : ∃ k, l' = k+1 ∧ ¬Stands values'.length i' (k+1)
    · obtain ⟨k,rfl,fallen'⟩ := fallen'
      rw [spanShort fallen']
      rw [nodeHashShort fallen'] at same
      exact ih (l+k) (by omega) covers (leftCovers covers') same rfl
    have leafOf : ∀ {vs : List Bytes} {i : Nat}, i*2^0 < vs.length →
        ∃ value, vs[i]? = some value ∧ span vs i 0 = [value] := by
      intro vs i inside
      have below : i < vs.length := by simpa using inside
      refine ⟨vs[i],by simp [below],?_⟩
      rw [span,pow_zero,mul_one,drop_eq_getElem_cons below]
      rfl
    cases l with
    | zero =>
      obtain ⟨value,hit,single⟩ := leafOf covers
      cases l' with
      | zero =>
        obtain ⟨value',hit',single'⟩ := leafOf covers'
        rw [nodeHashLeaf hit,nodeHashLeaf hit'] at same
        have equal := free _ (hashed _ (leafString hit)) _ (hashed' _ (leafString hit')) same
        rw [single,single',(cons.inj equal).2]
      | succ l' =>
        have stands' : Stands values'.length i' (l'+1) := by
          by_contra bad
          exact fallen' ⟨l',rfl,bad⟩
        rw [nodeHashLeaf hit,nodeHashBranch stands'] at same
        have equal := free _ (hashed _ (leafString hit)) _ (hashed' _ (branchString stands')) same
        cases (cons.inj equal).1
    | succ l =>
      have stands : Stands vs.length i (l+1) := by
        by_contra bad
        exact fallen ⟨l,rfl,bad⟩
      cases l' with
      | zero =>
        obtain ⟨value',hit',single'⟩ := leafOf covers'
        rw [nodeHashLeaf hit',nodeHashBranch stands] at same
        have equal := free _ (hashed _ (branchString stands)) _ (hashed' _ (leafString hit')) same
        cases (cons.inj equal).1
      | succ l' =>
        have stands' : Stands values'.length i' (l'+1) := by
          by_contra bad
          exact fallen' ⟨l',rfl,bad⟩
        rw [nodeHashBranch stands,nodeHashBranch stands'] at same
        have equal := free _ (hashed _ (branchString stands)) _ (hashed' _ (branchString stands')) same
        obtain ⟨left,right⟩ := append_inj (cons.inj equal).2
          (by rw [nodeHashLength size,nodeHashLength size])
        have inside := standsSucc.mp stands
        have inside' := standsSucc.mp stands'
        rw [spanHalves,spanHalves,ih (l+l') (by omega) (leftCovers covers) (leftCovers covers') left rfl,
          ih (l+l') (by omega) inside inside' right rfl]

theorem rootString (filled : vs ≠ []) : ∃ s ∈ treeStrings sha vs, s ≠ [] ∧ calculateRoot sha vs = sha s := by
  match vs, filled with
  | [value], _ => exact ⟨0::value,leafString (i := 0) rfl,by simp,rfl⟩
  | value::value'::rest, _ =>
    let n := (value::value'::rest).length
    have two : 1 < n := by simp [n]
    obtain ⟨l,height⟩ : ∃ l, clog 2 n = l+1 := ⟨clog 2 n - 1,by have := Nat.clog_pos (show 1 < 2 by decide) two; omega⟩
    have low : 2^l < n := (Nat.lt_clog_iff_pow_lt (by decide)).mp (by omega)
    have stands : Stands n 0 (l+1) := standsSucc.mpr (by simpa using low)
    have top : nodeHash sha (value::value'::rest) 0 (l+1) = calculateRoot sha (value::value'::rest) :=
      nodeTop (by rw [← height]; exact Nat.le_pow_clog (by decide) _)
    exact ⟨_,branchString stands,by simp,by rw [← top,nodeHashBranch stands]⟩

theorem rootDetermines (size : ∀ data, (sha data).length = 32) (free : CollisionFree sha strings)
    (nil : [] ∈ strings) (hashed : ∀ s ∈ treeStrings sha vs, s ∈ strings)
    (hashed' : ∀ s ∈ treeStrings sha values', s ∈ strings) (same : calculateRoot sha vs = calculateRoot sha values') :
    vs = values' := by
  have alone : ∀ {vs : List Bytes}, (∀ s ∈ treeStrings sha vs, s ∈ strings) →
      sha [] = calculateRoot sha vs → vs = [] := by
    intro vs hashed root
    by_contra some
    obtain ⟨s,mem,filled,isRoot⟩ := rootString some
    exact filled (free _ nil _ (hashed s mem) (root.trans isRoot)).symm
  by_cases empty : vs = []
  · subst empty
    exact (alone hashed' same).symm
  by_cases empty' : values' = []
  · subst empty'
    exact alone hashed same.symm
  have top : ∀ vs : List Bytes, span vs 0 (clog 2 vs.length) = vs := by
    intro vs
    rw [span,zero_mul,drop_zero,take_of_length_le (Nat.le_pow_clog (by decide) _)]
  have root : ∀ vs : List Bytes, nodeHash sha vs 0 (clog 2 vs.length) = calculateRoot sha vs := by
    intro vs
    rw [nodeHash,top]
  rw [← root vs,← root values'] at same
  have spans := nodeInjective size free hashed hashed' (by simpa using length_pos_of_ne_nil empty)
    (by simpa using length_pos_of_ne_nil empty') same
  rwa [top,top] at spans

end LiskEngine.Rmt
