import LiskEngine.RmtUpdate

/-! The root that a proof and new values for its leaves give. -/
namespace LiskEngine.Rmt
open SplitTree Indexes List
open Smt (CollisionFree digits sampleSha)
open Codec (Normalizer)

variable {sha : Bytes → Bytes}

section
variable {vs : List Bytes} (distinct : vs.Nodup) (free : CollisionFree sha (appendStrings sha vs))
include distinct free

theorem leafOnly (below : i < vs.length) (located : Located sha vs (nodeHash sha vs i 0) j) : j = i := by
  obtain ⟨below',same⟩ := located
  have hashed : ∀ s ∈ treeStrings sha vs, s ∈ appendStrings sha vs := by
    have all := @appendedStrings sha vs vs.length (le_refl _)
    rwa [take_length] at all
  have here := getElem?_eq_getElem below
  have there := getElem?_eq_getElem below'
  rw [nodeHashLeaf here,nodeHashLeaf there] at same
  have equal := free _ (hashed _ (leafString there)) _ (hashed _ (leafString here)) same
  exact (distinct.getElem_inj_iff).mp (cons.inj equal).2

theorem locatedChanges {changes : List (Nat × Bytes)} {leaves} (fit : ∀ e ∈ changes, e.1 < vs.length)
    (located : List.Forall₂ (Located sha vs) (changes.map (fun e => nodeHash sha vs e.1 0)) leaves) :
    leaves = changes.map Prod.fst := by
  induction changes generalizing leaves with
  | nil => cases located; rfl
  | cons e rest ih =>
    cases located with
    | cons here later =>
      rw [leafOnly distinct free (fit e (.head _)) here,ih (fun e mem => fit e (.tail _ mem)) later]
      rfl

end

theorem updateThroughProofIff (sha : Bytes → Bytes) (text : Normalizer) (values : List Bytes) (distinct : values.Nodup)
    (bound : values.length < 9223372036854775808) (size : ∀ data, (sha data).length = 32)
    (free : CollisionFree sha (appendStrings sha values)) (changes : List (Nat × Bytes)) (present : changes ≠ [])
    (positions : (changes.map Prod.fst).Nodup) (within : ∀ e ∈ changes, e.1 < values.length)
    (visit : List (Nat × Bytes) → List (Nat × Bytes)) (perms : ∀ nodes, (visit nodes).Perm nodes) :
    ∃ d, appendAll sha text (RegularMerkleTree.new sha OrderedMap.empty) values = .ok d ∧
      ((∃ proof d', d.generateProof (changes.map (fun e => leafHash sha (values.getD e.1 []))) = .ok proof ∧
          calculateRootFromUpdateData sha (changes.map Prod.snd) proof = .ok (calculateRoot sha (setAll values changes)) ∧
          d.update sha text visit proof.idxs (changes.map Prod.snd) = .ok d' ∧ d'.root = calculateRoot sha (setAll values changes)) ↔
        values.length ≤ 2 ^ 29) := by
  obtain ⟨d,run,built⟩ := appendAllBuilt size free bound (nil_append values) (newBuilt sha text)
  have found : ∀ e ∈ changes, values[e.1]? = .some (values.getD e.1 []) := fun e member => by
    rw [getD_eq_getElem?_getD,getElem?_eq_getElem (within e member)]
    rfl
  have queries : changes.map (fun e => leafHash sha (values.getD e.1 [])) = changes.map (fun e => nodeHash sha values e.1 0) :=
    map_congr_left (fun e member => (nodeHashLeaf (found e member)).symm)
  have members : ∀ query ∈ changes.map (fun e => leafHash sha (values.getD e.1 [])), ∃ value ∈ values, query = leafHash sha value := by
    intro query member
    obtain ⟨e,inside,rfl⟩ := mem_map.mp member
    exact ⟨_,mem_of_getElem? (found e inside),rfl⟩
  have filled : values.length ≠ 0 := by
    obtain ⟨e,rest,rfl⟩ := exists_cons_of_ne_nil present
    have := within e (.head _)
    omega
  refine ⟨d,run,⟨fun ⟨proof,_,generated,_⟩ => ?_,fun small => ?_⟩⟩
  · by_contra above
    obtain ⟨e,rest,rfl⟩ := exists_cons_of_ne_nil present
    have failed := @indexesFail sha values d built.tables built.size _ (rest.map (fun e => leafHash sha (values.getD e.1 [])))
      (members _ (.head _)) (by omega) bound
    rw [RegularMerkleTree.generateProof,if_neg (by rw [built.size]; exact filled),map_cons,failed] at generated
    cases generated
  · obtain ⟨leaves,indexes,located⟩ := indexesOf built.tables built.size members small
    rw [queries] at located
    rw [locatedChanges distinct free within located] at indexes
    have positionsWithin : ∀ j ∈ changes.map Prod.fst, j < values.length := by simpa using within
    obtain ⟨siblingHashes,result,siblings,computed,nodes⟩ := updateNodes built.size built.tables.hashes
      present positions positionsWithin small
    obtain ⟨d',updated,follows⟩ := @followsUpdate sha text size ⟨values,false⟩ d (followsBuilt size built bound) changes visit
      ⟨present,positions,positionsWithin,small,perms⟩
    have root := nodes.root (by rwa [setAllLength]) (by simpa using present)
    refine ⟨⟨d.size,(changes.map Prod.fst).map (fun j => spot values.length j 0),siblingHashes⟩,d',?_,?_,?_,follows.root⟩
    · rw [RegularMerkleTree.generateProof,if_neg (by rw [built.size]; exact filled),indexes]
      simp only [bind,Except.bind,siblings]
    · rw [calculateRootFromUpdateData,if_neg (by simp [built.size,filled,present]),if_neg (by simp)]
      simp only [built.size,computed,bind,Except.bind,root]
    · rw [built.size] at updated
      rw [map_map]
      exact updated

theorem updateThroughProofSample : ∃ d proof d',
    appendAll Smt.sampleSha ⟨fun _ => true, id, fun _ _ => rfl⟩ (RegularMerkleTree.new Smt.sampleSha OrderedMap.empty)
      [[7], [8], [9]] = .ok d ∧ d.generateProof [leafHash Smt.sampleSha [9], leafHash Smt.sampleSha [7]] = .ok proof ∧
    calculateRootFromUpdateData Smt.sampleSha [[5], [6]] proof = .ok (calculateRoot Smt.sampleSha [[6], [8], [5]]) ∧
    d.update Smt.sampleSha ⟨fun _ => true, id, fun _ _ => rfl⟩ List.reverse proof.idxs [[5], [6]] = .ok d' ∧
    d'.root = calculateRoot Smt.sampleSha [[6], [8], [5]] := by
  obtain ⟨d,run,right⟩ := updateThroughProofIff sampleSha .plain [[7],[8],[9]] (by decide) (by decide)
    Smt.sampleShaLength (by decide +kernel) [(2,[5]),(0,[6])] (by decide) (by decide) (by decide) reverse
    (fun nodes => reverse_perm nodes)
  obtain ⟨proof,d',rest⟩ := right.mpr (by decide)
  exact ⟨d,proof,d',run,rest⟩

def spanCode (a len : Nat) : Bytes := Smt.digits 32 (a * 2 ^ 64 + len)

def spanSha : Bytes → Bytes
  | [] => spanCode 0 1
  | tag :: rest =>
    if tag = 1 then Smt.digits 32 (countOf (rest.take 32) + countOf (rest.drop 32) % 2 ^ 64) else spanCode (countOf rest) 1

def numbers (n : Nat) : List Bytes := (List.range' 0 n).map (Smt.digits 4)

theorem spanShaLength (data : Bytes) : (spanSha data).length = 32 := by
  cases data with
  | nil => exact Smt.digitsLength _ _
  | cons tag rest =>
    rw [spanSha]
    split <;> exact Smt.digitsLength _ _

theorem spanCount (low : a+len ≤ 2^32) : countOf (spanCode a len) = a*2^64+len := countDigits (by omega)

theorem spanCoded : Coded spanSha (Smt.digits 4) spanCode (2^32) := by
  refine ⟨fun a len found low => ?_,fun a len a' len' found low found' low' equal => ?_⟩
  · unfold codeText
    split
    · rename_i one
      rw [spanSha,if_neg (by decide),countDigits (show a < 256^4 by omega),one]
    have smaller := dividerLt (show 2 ≤ len by omega)
    have sum : a*2^64+divider len+((a+divider len)*2^64+(len-divider len)) % 2^64 = a*2^64+len := by omega
    have length : ∀ a len, (spanCode a len).length = 32 := fun a len => Smt.digitsLength _ _
    rw [spanSha,if_pos rfl,take_left' (length _ _),drop_left' (length _ _),spanCount (by omega),spanCount (by omega),sum,spanCode]
  · have counts := congrArg countOf equal
    rw [spanCount low,spanCount low'] at counts
    obtain ⟨rfl,rfl⟩ : a = a' ∧ len = len' := by omega
    rfl

theorem tooManyNumbers : (numbers (2 ^ 29 + 1)).Nodup ∧ (numbers (2 ^ 29 + 1)).length < 9223372036854775808 ∧
    (∀ data, (spanSha data).length = 32) ∧ CollisionFree spanSha (appendStrings spanSha (numbers (2 ^ 29 + 1))) ∧
    ∃ d, appendAll spanSha ⟨fun _ => true, id, fun _ _ => rfl⟩ (RegularMerkleTree.new spanSha OrderedMap.empty)
        (numbers (2 ^ 29 + 1)) = .ok d ∧ d.generateProof [leafHash spanSha (Smt.digits 4 0)] = .error .parseRange := by
  have length : (numbers (2 ^ 29 + 1)).length = 2 ^ 29 + 1 := by simp [numbers]
  have free : CollisionFree spanSha (appendStrings spanSha (numbers (2 ^ 29 + 1))) := spanCoded.free (by norm_num)
  have distinct : (numbers (2 ^ 29 + 1)).Nodup := by
    refine List.Nodup.map_on (fun a inA b inB same => ?_) nodup_range'
    have lowA : a < 2 ^ 29 + 1 := by simpa using inA
    have lowB : b < 2 ^ 29 + 1 := by simpa using inB
    rw [← countDigits (show a < 256 ^ 4 by omega),same,countDigits (by omega)]
  obtain ⟨d,run,built⟩ := appendAllBuilt spanShaLength free (by rw [length]; norm_num) (nil_append _)
    (newBuilt spanSha .plain)
  refine ⟨distinct,by rw [length]; norm_num,spanShaLength,free,d,run,?_⟩
  have failed := @indexesFail spanSha _ d built.tables built.size (leafHash spanSha (digits 4 0)) []
    ⟨_,mem_map_of_mem (by simp),rfl⟩ (by rw [length]; norm_num) (by rw [length]; norm_num)
  rw [RegularMerkleTree.generateProof,if_neg (by rw [built.size,length]; norm_num),failed]
  rfl

end LiskEngine.Rmt
