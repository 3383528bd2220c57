import LiskEngine.RmtPaths
import LiskEngine.RmtAppend

/-! Proofs for leaves of the tree. For distinct leaves the prover leaves exactly the hashes
that the verification takes, which then computes the nodes above the leaves. -/
namespace LiskEngine.Rmt
open List hiding span
open SplitTree Indexes OrderedMap
open Nat (clog)
open Smt (CollisionFree digits sampleSha)
open Codec (Normalizer)

theorem leafCovers (below : j < n) : Covers n j 0 := ⟨by simpa using below,by unfold getHeight; omega⟩

abbrev leafSpots (n : Nat) (leaves : List Nat) : List Nat := leaves.map (fun j => spot n j 0)

section
variable {n : Nat} {leaves : List Nat} (bound : n ≤ 2 ^ 29) (within : ∀ j ∈ leaves, j < n) (distinct : leaves.Nodup)
include within

theorem leafSpotsNodup (distinct : leaves.Nodup) : (leafSpots n leaves).Nodup :=
  List.Nodup.map_on (fun a inA b inB same =>
    (spotInjective (leafCovers (within a inA)) (leafCovers (within b inB)) same).1) distinct

include bound

theorem leafSpotsValid : ∀ idx ∈ leafSpots n leaves, Valid idx := fun idx mem => by
  obtain ⟨j,inside,rfl⟩ := mem_map.mp mem
  exact spotValid (leafCovers (within j inside)) (le_trans bound (by decide))

theorem leafSpotsPos : ∀ idx ∈ leafSpots n leaves, idx ≠ 0 := fun idx mem => by
  have := (leafSpotsValid bound within idx mem).positive
  omega

include distinct

theorem sortedLeaves : ∃ sorted, sorted.Perm leaves ∧ sorted.Pairwise (· < ·) ∧
    sort ((leafSpots n leaves).filter (· ≠ 0)) = listed n 0 sorted [] := by
  rw [filter_eq_self.mpr (fun idx mem => decide_eq_true (leafSpotsPos bound within idx mem))]
  have perm := sortPerm (leafSpots n leaves)
  have ordered := sortOrdered (leafSpotsValid bound within)
  have back : ∀ j, spot n j 0-2^getHeight n = j := by
    intro j
    rw [spot,place,Nat.sub_zero]
    omega
  have from' : ∀ idx ∈ sort (leafSpots n leaves), ∃ j ∈ leaves, idx = spot n j 0 := by
    intro idx mem
    obtain ⟨j,inside,rfl⟩ := mem_map.mp (perm.mem_iff.mp mem)
    exact ⟨j,inside,rfl⟩
  refine ⟨(sort (leafSpots n leaves)).map (· - 2^getHeight n),?_,?_,?_⟩
  · refine (perm.map _).trans ?_
    rw [map_map,show (· - 2^getHeight n) ∘ (fun j => spot n j 0) = id from funext back,map_id]
  · refine pairwise_map.mpr (List.Pairwise.imp_of_mem (fun {a b} inA inB both => ?_)
      (List.Pairwise.and ordered (perm.nodup_iff.mpr (leafSpotsNodup within distinct))))
    obtain ⟨j,insideJ,rfl⟩ := from' a inA
    obtain ⟨k,insideK,rfl⟩ := from' b inB
    rw [back,back]
    have notLess := both.1
    rw [spotLess (leafCovers (within k insideK)) (leafCovers (within j insideJ)) (le_trans bound (by decide))] at notLess
    have other : j ≠ k := fun same => both.2 (by rw [same])
    omega
  · rw [listed,map_nil,append_nil,map_map]
    conv_lhs => rw [← map_id (sort (leafSpots n leaves))]
    refine map_congr_left (fun idx mem => ?_)
    obtain ⟨j,inside,rfl⟩ := from' idx mem
    simp only [id,Function.comp,back]

end

theorem zipGiven (sizes : hashes.length = idxs.length) (distinct : idxs.Nodup) (nz : ∀ idx ∈ idxs, idx ≠ 0) :
    (∀ idx hash, (idx,hash) ∈ idxs.zip hashes → (givenNodes idxs hashes).get idx = some hash) ∧
      ∀ idx, idx ∉ idxs → (givenNodes idxs hashes).get idx = none := by
  have general : ∀ start : OrderedMap Nat Bytes, (∀ idx hash, (idx,hash) ∈ idxs.zip hashes →
        ((idxs.zip hashes).foldl (fun res e => if e.1 = 0 then res else res.set e.1 e.2) start).get idx = some hash) ∧
      ∀ idx, idx ∉ idxs →
        ((idxs.zip hashes).foldl (fun res e => if e.1 = 0 then res else res.set e.1 e.2) start).get idx = start.get idx := by
    induction idxs generalizing hashes with
    | nil => exact fun start => ⟨fun idx hash mem => by simp at mem,fun idx _ => by simp⟩
    | cons first rest ih =>
      intro start
      cases hashes with
      | nil => simp at sizes
      | cons hash hashes =>
        obtain ⟨fresh,later⟩ := nodup_cons.mp distinct
        obtain ⟨inside,out⟩ := @ih hashes (by simpa using sizes) later
          (fun idx mem => nz idx (.tail _ mem)) (start.set first hash)
        simp only [zip_cons_cons,foldl_cons,if_neg (nz first (.head _))]
        refine ⟨fun idx hash' mem => ?_,fun idx missing => ?_⟩
        · rcases mem_cons.mp mem with same | mem
          · cases same
            rw [out first fresh,getSet,if_pos rfl]
          · exact inside idx hash' mem
        · rw [mem_cons,not_or] at missing
          rw [out idx missing.2,getSet,if_neg missing.1]
  obtain ⟨inside,out⟩ := general empty
  exact ⟨inside,fun idx missing => (out idx missing).trans (getEmpty idx)⟩

section
variable {sha : Bytes → Bytes} {vs : List Bytes} {leaves : List Nat} (bound : vs.length ≤ 2 ^ 29)
  (within : ∀ j ∈ leaves, j < vs.length) (distinct : leaves.Nodup) (asks : leaves ≠ []) {sorted : List Nat}
  (perm : sorted.Perm leaves) (inc : sorted.Pairwise (· < ·))
include within

include asks perm inc in
theorem singleListed (one : getHeight vs.length = 1) : listed vs.length 0 sorted [] = [rootIndex] ∧ sorted = [0] := by
  have zero : ∀ j ∈ sorted, j = 0 := fun j mem => by
    have covers := leafCovers (within j (perm.mem_iff.mp mem))
    exact topCovers (by rw [one]; exact covers)
  cases sorted with
  | nil => exact absurd perm.symm.eq_nil asks
  | cons j rest =>
    obtain rfl := zero j (.head _)
    cases rest with
    | nil =>
      refine ⟨?_,rfl⟩
      rw [← spotRoot vs.length,one]
      rfl
    | cons k rest =>
      have below := (pairwise_cons.mp inc).1 k (.head _)
      rw [zero k (by simp)] at below
      omega

include bound

include perm inc in
theorem firstLayer (high : getHeight vs.length ≠ 1) : Layer vs.length 0 sorted [] :=
  ⟨bound,by unfold getHeight at high ⊢; omega,fun j mem => by simpa using within j (perm.mem_iff.mp mem),
    by simp,inc,List.Pairwise.nil,by simp⟩

include asks perm inc in
theorem siblingHashesOf {d : RegularMerkleTree} (count : d.size = vs.length)
    (hashes : ∀ i m, Stands vs.length i m → getHash d.db ⟨i,m⟩ = Option.some (nodeHash sha vs i m))
    (ordered : sort ((leafSpots vs.length leaves).filter (· ≠ 0)) = listed vs.length 0 sorted []) :
    d.getSiblingHashes (leafSpots vs.length leaves) = .ok (neededFrom sha vs leaves (getHeight vs.length-1) 0 sorted) := by
  have asked : Asked sha vs d.db leaves (leafSpots vs.length leaves) := ⟨hashes,within,fun idx mem => by
      obtain ⟨j,inside,rfl⟩ := mem_map.mp mem
      exact ⟨j,inside,rfl⟩⟩
  unfold RegularMerkleTree.getSiblingHashes
  simp only [count,ordered]
  by_cases one : getHeight vs.length = 1
  · obtain ⟨single,_⟩ := singleListed within asks perm inc one
    rw [single,one]
    rfl
  have layer := firstLayer bound within perm inc one
  have same : ∀ x, x ∈ sorted ↔ x ∈ reached leaves 0 := fun x => by simp [reached,perm.mem_iff]
  obtain ⟨rounds,run⟩ := proverRun asked layer same asks
    (show 0+1+(getHeight vs.length-1) = getHeight vs.length by unfold getHeight; omega)
  rw [roundsOf,siblingLoopRounds (Nat.lt_succ_self _)
    (show (listed vs.length 0 sorted []).sum < rounds+(listed vs.length 0 sorted []).sum+1 by omega),run,nil_append]

variable {hashes : List Bytes} (sizes : hashes.length = leaves.length)
  (given : ∀ j hash, (j, hash) ∈ leaves.zip hashes → hash = nodeHash sha vs j 0)
include distinct sizes

theorem givenLeaves : (∀ idx hash, (idx,hash) ∈ (leafSpots vs.length leaves).zip hashes →
      (givenNodes (leafSpots vs.length leaves) hashes).get idx = Option.some hash) ∧
    ∀ idx, idx ∉ leafSpots vs.length leaves → (givenNodes (leafSpots vs.length leaves) hashes).get idx = none :=
  zipGiven (by simpa using sizes) (leafSpotsNodup within distinct) (leafSpotsPos bound within)

theorem givenSpots (idx : Nat) (hash : Bytes) (held : (givenNodes (leafSpots vs.length leaves) hashes).get idx = Option.some hash) :
    ∃ i m, Covers vs.length i m ∧ idx = spot vs.length i m := by
  by_cases mem : idx ∈ leafSpots vs.length leaves
  · obtain ⟨j,asked,rfl⟩ := mem_map.mp mem
    exact ⟨j,0,leafCovers (within j asked),rfl⟩
  · rw [(givenLeaves bound within distinct sizes).2 idx mem] at held
    cases held

include given

theorem givenKnown (i m : Nat) (covers : Covers vs.length i m) :
    (givenNodes (leafSpots vs.length leaves) hashes).get (spot vs.length i m) =
      if m = 0 ∧ i ∈ leaves then Option.some (nodeHash sha vs i m) else none := by
  obtain ⟨inside,out⟩ := givenLeaves bound within distinct sizes
  split
  · rename_i asked
    obtain ⟨rfl,mem⟩ := asked
    obtain ⟨k,here⟩ := mem_iff_getElem?.mp mem
    obtain ⟨low,rfl⟩ := List.getElem?_eq_some_iff.mp here
    have paired : (leaves[k],hashes[k]) ∈ leaves.zip hashes := mem_iff_getElem.mpr ⟨k,by simp [sizes,low],by simp⟩
    have paired' : (spot vs.length leaves[k] 0,hashes[k]) ∈ (leafSpots vs.length leaves).zip hashes := by
      rw [zip_map_left]
      exact mem_map.mpr ⟨_,paired,rfl⟩
    rw [inside _ _ paired',given _ _ paired]
  · rename_i other
    refine out _ (fun mem => other ?_)
    obtain ⟨j,listed,same⟩ := mem_map.mp mem
    obtain ⟨rfl,rfl⟩ := spotInjective (leafCovers (within j listed)) covers same
    exact ⟨rfl,listed⟩

include perm inc

theorem firstWalk (high : getHeight vs.length ≠ 1) :
    Walk sha vs leaves 0 sorted [] ⟨neededFrom sha vs leaves (getHeight vs.length-1) 0 sorted,
      givenNodes (leafSpots vs.length leaves) hashes,empty⟩ := by
  refine ⟨firstLayer bound within perm inc high,within,fun x mem => by simpa [reached] using perm.mem_iff.mp mem,by simp,
    fun x mem => Or.inl (perm.mem_iff.mpr (by simpa [reached] using mem)),fun i m covers => ?_,
    givenSpots bound within distinct sizes,fun x mem fallen => ?_,by simp⟩
  · simp only [givenKnown bound within distinct sizes given i m covers]
    have same : (m = 0 ∧ i ∈ leaves) ↔ Stands vs.length i m ∧ (m ≤ 0 ∧ i ∈ reached leaves m ∨ m = 0+1 ∧ i ∈ []) := by
      constructor
      · rintro ⟨rfl,mem⟩
        exact ⟨standsZero.mpr (within i mem),Or.inl ⟨le_refl 0,by simpa [reached] using mem⟩⟩
      rintro ⟨_,⟨low,mem⟩ | ⟨_,mem⟩⟩
      · obtain rfl : m = 0 := by omega
        exact ⟨rfl,by simpa [reached] using mem⟩
      · cases mem
    simp only [same]
  · exact absurd (standsZero.mpr (within x (perm.mem_iff.mp mem))) fallen

include asks in
theorem pathNodesOf (ordered : sort ((leafSpots vs.length leaves).filter (· ≠ 0)) = listed vs.length 0 sorted []) :
    ∃ res, calculatePathNodes sha hashes vs.length (leafSpots vs.length leaves)
        (neededFrom sha vs leaves (getHeight vs.length-1) 0 sorted) = .ok res ∧ Computed sha vs leaves res := by
  have ne : hashes.length ≠ 0 := by
    rw [sizes]
    simpa using asks
  unfold calculatePathNodes
  rw [if_neg (by simp [sizes]),if_neg ne]
  simp only [ordered]
  by_cases one : getHeight vs.length = 1
  · obtain ⟨single,rfl⟩ := singleListed within asks perm inc one
    rw [single]
    refine ⟨_,rfl,⟨fun i m covers => ?_,givenSpots bound within distinct sizes⟩⟩
    obtain rfl : m = 0 := by have := covers.layer; omega
    rw [givenKnown bound within distinct sizes given i 0 covers]
    have stands := standsZero.mpr (by simpa using covers.leaf)
    simp [reached,stands]
  · have walk := firstWalk bound within distinct perm inc sizes given one
    obtain ⟨rounds,res,run,computed⟩ := walk.run asks
      (show 0+1+(getHeight vs.length-1) = getHeight vs.length by unfold getHeight; omega) (append_nil _).symm
    refine ⟨res,?_,computed⟩
    rw [roundsOf,pathLoopRounds (Nat.lt_succ_self _)
      (show (listed vs.length 0 sorted []).sum < rounds+(listed vs.length 0 sorted []).sum+1 by omega),run]

end

def Located (sha : Bytes → Bytes) (values : List Bytes) (query : Bytes) (j : Nat) : Prop :=
  j < values.length ∧ nodeHash sha values j 0 = query

section
variable {sha : Bytes → Bytes} {vs : List Bytes} {d : RegularMerkleTree} (tables : Indexed sha vs d.db)
  (count : d.size = vs.length)
include tables

theorem leafLocation (mem : ∃ value ∈ vs, query = leafHash sha value) :
    ∃ j, Located sha vs query j ∧ getLocation d.db query = .ok ⟨j,0⟩ := by
  obtain ⟨value,inside,rfl⟩ := mem
  obtain ⟨i,here⟩ := List.mem_iff_getElem?.mp inside
  have below := (List.getElem?_eq_some_iff.mp here).1
  obtain ⟨j,_,whole,hit,same⟩ := tables.known i 0 (by rw [pow_zero,mul_one]; exact below)
  have hash : nodeHash sha vs i 0 = leafHash sha value := nodeHashLeaf here
  rw [hash] at hit same
  rw [pow_zero,mul_one] at whole
  exact ⟨j,⟨whole,same⟩,hit⟩

include count

theorem indexesOf (mems : ∀ query ∈ queries, ∃ value ∈ vs, query = leafHash sha value) (bound : vs.length ≤ 2^29) :
    ∃ leaves, d.getIndexes queries = .ok (leafSpots vs.length leaves) ∧ List.Forall₂ (Located sha vs) queries leaves := by
  induction queries with
  | nil => exact ⟨[],rfl,List.Forall₂.nil⟩
  | cons query rest ih =>
    obtain ⟨leaves,run,located⟩ := ih (fun query mem => mems query (.tail _ mem))
    obtain ⟨j,here,hit⟩ := leafLocation tables (mems query (.head _))
    have covers := leafCovers here.1
    have index := (indexPlace covers.layer covers.below (by have := here.1; omega)).trans (if_pos (spotShort covers bound))
    refine ⟨j::leaves,?_,List.Forall₂.cons here located⟩
    simp only [RegularMerkleTree.getIndexes,hit,count,index,bind,Except.bind,run]
    rfl

theorem indexesFail {query rest} (mem : ∃ value ∈ vs, query = leafHash sha value) (above : 2^29 < vs.length)
    (bound : vs.length < 9223372036854775808) : d.getIndexes (query::rest) = .error .parseRange := by
  obtain ⟨j,here,hit⟩ := leafLocation tables mem
  have covers := leafCovers here.1
  have height : 31 ≤ getHeight vs.length := by
    have low : ¬clog 2 vs.length ≤ 29 := fun low => by
      have := (Nat.clog_le_iff_le_pow (by decide)).mp low
      omega
    unfold getHeight
    omega
  have power : 2^31 ≤ 2^(getHeight vs.length-0) := Nat.pow_le_pow_right (by decide) (by omega)
  have index := (indexPlace covers.layer covers.below (by have := here.1; omega)).trans (if_neg (by unfold place; omega))
  simp only [RegularMerkleTree.getIndexes,hit,count,index,bind,Except.bind]

end

theorem locatedDistinct (located : List.Forall₂ (Located sha vs) queries leaves) (distinct : queries.Nodup) : leaves.Nodup := by
  induction located with
  | nil => exact nodup_nil
  | cons here rest ih =>
    obtain ⟨fresh,later⟩ := nodup_cons.mp distinct
    refine nodup_cons.mpr ⟨fun mem => fresh ?_,ih later⟩
    clear ih fresh later distinct
    induction rest with
    | nil => cases mem
    | cons there rest ih =>
      rcases mem_cons.mp mem with rfl | later
      · rw [← here.2,there.2]
        exact .head _
      · exact .tail _ (ih later)

theorem locatedGiven (located : List.Forall₂ (Located sha vs) queries leaves) :
    (∀ j ∈ leaves, j < vs.length) ∧ ∀ j hash, (j,hash) ∈ leaves.zip queries → hash = nodeHash sha vs j 0 := by
  induction located with
  | nil => simp
  | cons here rest ih =>
    constructor
    · intro j mem
      rcases mem_cons.mp mem with rfl | later
      · exact here.1
      · exact ih.1 j later
    intro j hash mem
    rcases mem_cons.mp mem with same | later
    · cases same
      exact here.2.symm
    · exact ih.2 j hash later

theorem topStands (pos : 1 ≤ n) : Stands n 0 (getHeight n-1) := by
  rcases eq_or_lt_of_le pos with rfl | more
  · decide
  have half := Nat.pow_pred_clog_lt_self (show 1 < 2 by decide) more
  have high : 0 < clog 2 n := Nat.clog_pos (by decide) more
  obtain ⟨k,top⟩ : ∃ k, clog 2 n = k+1 := ⟨clog 2 n - 1,by omega⟩
  rw [top,Nat.pred_succ] at half
  rw [getHeight,Nat.add_sub_cancel,top,standsSucc]
  simpa using half

theorem Computed.root (computed : Computed sha vs leaves result)
    (within : ∀ j ∈ leaves, j < vs.length) (asks : leaves ≠ []) :
    result.get rootIndex = Option.some (calculateRoot sha vs) := by
  obtain ⟨j,others,rfl⟩ := exists_cons_of_ne_nil asks
  have below := within j (.head _)
  have stands := topStands (show 1 ≤ vs.length by omega)
  have whole : vs.length ≤ 2^(getHeight vs.length-1) := Nat.le_pow_clog (by decide) _
  have covers : Covers vs.length 0 (getHeight vs.length-1) := ⟨standsCovers stands,by unfold getHeight; omega⟩
  have first : 0 ∈ reached (j::others) (getHeight vs.length-1) := mem_map.mpr ⟨j,mem_cons_self,Nat.div_eq_of_lt (by omega)⟩
  rw [← spotRoot vs.length,computed.nodes _ _ covers,if_pos ⟨stands,first⟩]
  exact congrArg Option.some (nodeTop whole)

theorem proofCompleteIff (sha : Bytes → Bytes) (text : Normalizer) (values : List Bytes) (nonempty : values ≠ [])
    (bound : values.length < 2 ^ 30) (size : ∀ data, (sha data).length = 32)
    (free : CollisionFree sha (appendStrings sha values)) :
    ∃ d, appendAll sha text (RegularMerkleTree.new sha OrderedMap.empty) values = .ok d ∧
      ∀ queries, queries ≠ [] → queries.Nodup → (∀ query ∈ queries, ∃ value ∈ values, query = leafHash sha value) →
        ((∃ proof, d.generateProof queries = .ok proof ∧ verifyProof sha queries proof d.root = .ok true) ↔
          values.length ≤ 2 ^ 29) := by
  obtain ⟨d,run,built⟩ := appendAllBuilt size free (by omega) (nil_append values) (newBuilt sha text)
  have count := built.size
  have positive : values.length ≠ 0 := by simpa using nonempty
  refine ⟨d,run,fun queries asks distinct members => ⟨fun ⟨proof,generated,_⟩ => ?_,fun small => ?_⟩⟩
  · by_contra above
    obtain ⟨query,rest,rfl⟩ := exists_cons_of_ne_nil asks
    have failed := @indexesFail sha values d built.tables count query rest (members query (.head _)) (by omega) (by omega)
    rw [RegularMerkleTree.generateProof,if_neg (by omega),failed] at generated
    cases generated
  · obtain ⟨leaves,indexes,located⟩ := indexesOf built.tables count members small
    obtain ⟨within,given⟩ := locatedGiven located
    have nodup := locatedDistinct located distinct
    have filled' : leaves ≠ [] := by
      rintro rfl
      exact asks (forall₂_nil_right_iff.mp located)
    obtain ⟨sorted,perm,increasing,ordered⟩ := sortedLeaves small within nodup
    have siblings := siblingHashesOf small within filled' perm increasing count built.tables.hashes ordered
    obtain ⟨result,computed,nodes⟩ := pathNodesOf small within nodup filled' perm increasing located.length_eq given ordered
    refine ⟨⟨d.size,leafSpots values.length leaves,
      neededFrom sha values leaves (getHeight values.length - 1) 0 sorted⟩,?_,?_⟩
    · rw [RegularMerkleTree.generateProof,if_neg (by omega),indexes]
      simp only [bind,Except.bind,siblings]
    unfold verifyProof
    rw [if_neg (by simp only; omega)]
    simp only [count,computed,nodes.root within filled',built.root]
    simp

theorem proofCompleteIffRepeated :
    ∃ d, appendAll Smt.sampleSha ⟨fun _ => true, id, fun _ _ => rfl⟩ (RegularMerkleTree.new Smt.sampleSha OrderedMap.empty)
        repeatedValues = .ok d ∧ ∃ proof, d.generateProof [leafHash Smt.sampleSha [8], leafHash Smt.sampleSha [7]] = .ok proof ∧
        verifyProof Smt.sampleSha [leafHash Smt.sampleSha [8], leafHash Smt.sampleSha [7]] proof d.root = .ok true := by
  obtain ⟨d,run,complete⟩ := proofCompleteIff sampleSha .plain repeatedValues (by decide)
    (by decide) Smt.sampleShaLength (by decide +kernel)
  exact ⟨d,run,(complete [leafHash sampleSha [8],leafHash sampleSha [7]] (by simp) (by decide +kernel) (by decide +kernel)).mpr
    (by decide)⟩

def countOf : Bytes → Nat := fun data => data.foldr (fun byte n => byte.toNat + 256 * n) 0

def countSha (data : Bytes) : Bytes :=
  match data with
  | 1 :: rest => Smt.digits 32 (countOf (rest.take 32) + countOf (rest.drop 32))
  | _ => Smt.digits 32 1

theorem countDigits (low : n < 256^k) : countOf (Smt.digits k n) = n := by
  induction k generalizing n with
  | zero =>
    obtain rfl : n = 0 := by simpa using low
    rfl
  | succ k ih =>
    cases n with
    | zero =>
      have rest := @ih 0 (pos_of_ne_zero (by positivity))
      simp only [countOf] at rest ⊢
      simp [digits,rest]
    | succ n =>
      have rest := @ih ((n+1)/256) (by omega)
      simp only [countOf] at rest ⊢
      simp only [digits,foldr_cons,rest,UInt8.toNat_ofNat']
      omega

theorem countShaLength (data : Bytes) : (countSha data).length = 32 := by
  unfold countSha
  split <;> exact Smt.digitsLength _ _

def codeText (leaf : Nat → Bytes) (code : Nat → Nat → Bytes) (a len : Nat) : Bytes :=
  if len = 1 then 0 :: leaf a else 1 :: (code a (divider len) ++ code (a + divider len) (len - divider len))

structure Coded (sha : Bytes → Bytes) (leaf : Nat → Bytes) (code : Nat → Nat → Bytes) (bound : Nat) : Prop where
  text : ∀ a len, 1 ≤ len → a + len ≤ bound → sha (codeText leaf code a len) = code a len
  same : ∀ a len a' len', 1 ≤ len → a + len ≤ bound → 1 ≤ len' → a' + len' ≤ bound → code a len = code a' len' →
    codeText leaf code a len = codeText leaf code a' len'

section
variable {sha : Bytes → Bytes} {leaf : Nat → Bytes} {code : Nat → Nat → Bytes} {bound : Nat} (coded : Coded sha leaf code bound)

theorem consecutiveTake (a len k : Nat) : ((List.range' a len).map leaf).take k = (List.range' a (min k len)).map leaf := by
  rw [← map_take]
  rcases le_total k len with fewer | more
  · rw [take_range'_of_length_ge fewer,min_eq_left fewer]
  · rw [take_range'_of_length_le more,min_eq_right more]

theorem consecutiveDrop (a len k : Nat) : ((List.range' a len).map leaf).drop k = (List.range' (a+k) (len-k)).map leaf := by
  simp [← map_drop,drop_range']

include coded

theorem Coded.root (filled : 1 ≤ len) (low : a+len ≤ bound) : calculateRoot sha ((List.range' a len).map leaf) = code a len := by
  induction len using Nat.strong_induction_on generalizing a with
  | _ len ih =>
    rw [← coded.text a len filled low,codeText]
    by_cases one : len = 1
    · subst one
      rfl
    have smaller := dividerLt (show 2 ≤ len by omega)
    have pos := dividerPos len
    have first := @ih (divider len) smaller a pos (by omega)
    have second := @ih (len-divider len) (by omega) (a+divider len) (by omega) (by omega)
    have length : ((range' a len).map leaf).length = len := by simp
    unfold calculateRoot at first second ⊢
    rw [if_neg one,rootSplit (by omega),length,consecutiveTake,consecutiveDrop,min_eq_left (by omega),first,second]
    rfl

theorem Coded.strings (few : n ≤ bound) (mem : s ∈ treeStrings sha ((List.range' 0 n).map leaf)) :
    ∃ a len, 1 ≤ len ∧ a+len ≤ n ∧ s = codeText leaf code a len := by
  rcases mem_append.mp mem with inLeaves | branch
  · obtain ⟨value,inside,rfl⟩ := mem_map.mp inLeaves
    obtain ⟨a,low,rfl⟩ := mem_map.mp inside
    exact ⟨a,1,le_refl 1,by simp at low; omega,by simp [codeText]⟩
  obtain ⟨l,_,inLayer⟩ := mem_flatMap.mp branch
  obtain ⟨i,inside,rfl⟩ := mem_map.mp inLayer
  have stands := standsSucc.mp (standsWidth.mpr (mem_range.mp inside))
  rw [length_map,length_range'] at stands
  have parts : (2*i+1)*2^l = 2*i*2^l+2^l := by ring
  have pos := Nat.two_pow_pos l
  have node : ∀ k, k*2^l < n → nodeHash sha ((range' 0 n).map leaf) k l = code (k*2^l) (min (2^l) (n-k*2^l)) := by
    intro k inside
    rw [nodeHash,span,consecutiveDrop,consecutiveTake,zero_add]
    exact coded.root (by omega) (by omega)
  refine ⟨2*i*2^l,2^l+min (2^l) (n-(2*i+1)*2^l),by omega,by omega,?_⟩
  have half : divider (2^l+min (2^l) (n-(2*i+1)*2^l)) = 2^l := dividerOf (by omega) (by rw [pow_succ]; omega)
  rw [node (2*i) (by omega),node (2*i+1) stands,codeText,if_neg (by omega),half,Nat.add_sub_cancel_left,← parts,
    min_eq_left (by omega)]

theorem Coded.free (few : n ≤ bound) : CollisionFree sha (appendStrings sha ((List.range' 0 n).map leaf)) := by
  have texts : ∀ s ∈ appendStrings sha ((range' 0 n).map leaf), ∃ a len, 1 ≤ len ∧ a+len ≤ n ∧ s = codeText leaf code a len := by
    intro s mem
    obtain ⟨m,low,inside⟩ := mem_flatMap.mp mem
    have short : m ≤ n := by simpa [Nat.lt_succ_iff] using low
    rw [consecutiveTake,min_eq_left short] at inside
    obtain ⟨a,len,filled,below,text⟩ := coded.strings (by omega) inside
    exact ⟨a,len,filled,by omega,text⟩
  intro s mem s' mem' equal
  obtain ⟨a,len,filled,below,rfl⟩ := texts s mem
  obtain ⟨a',len',found',below',rfl⟩ := texts s' mem'
  rw [coded.text a len filled (by omega),coded.text a' len' found' (by omega)] at equal
  exact coded.same a len a' len' filled (by omega) found' (by omega) equal

end

theorem countCoded : Coded countSha (fun _ => []) (fun _ len => Smt.digits 32 len) (2^64) := by
  refine ⟨fun a len filled low => ?_,fun a len a' len' filled low found' low' equal => ?_⟩
  · unfold codeText
    split
    · rename_i one
      rw [one]
      rfl
    have smaller := dividerLt (show 2 ≤ len by omega)
    simp only [countSha,take_left' (Smt.digitsLength _ _),drop_left' (Smt.digitsLength _ _),
      countDigits (show divider len < 256^32 by omega),countDigits (show len-divider len < 256^32 by omega)]
    rw [Nat.add_sub_cancel' (by omega)]
  · have counts := congrArg countOf equal
    simp only [countDigits (show len < 256^32 by omega),countDigits (show len' < 256^32 by omega)] at counts
    rw [codeText,codeText,counts]

theorem tooManyLeaves : (List.replicate (2 ^ 29 + 1) ([] : Bytes)).length < 2 ^ 30 ∧
    CollisionFree countSha (appendStrings countSha (List.replicate (2 ^ 29 + 1) [])) ∧ (∀ data, (countSha data).length = 32) ∧
    ∃ d, appendAll countSha ⟨fun _ => true, id, fun _ _ => rfl⟩ (RegularMerkleTree.new countSha OrderedMap.empty)
        (List.replicate (2 ^ 29 + 1) []) = .ok d ∧ d.generateProof [leafHash countSha []] = .error .parseRange := by
  have free := countCoded.free (show 2 ^ 29 + 1 ≤ 2 ^ 64 by norm_num)
  rw [map_const',length_range'] at free
  have length : (replicate (2 ^ 29 + 1) ([] : Bytes)).length = 2 ^ 29 + 1 := length_replicate
  obtain ⟨d,run,built⟩ := appendAllBuilt countShaLength free (by rw [length]; norm_num) (nil_append _)
    (newBuilt countSha .plain)
  refine ⟨by rw [length]; norm_num,free,countShaLength,d,run,?_⟩
  have failed := @indexesFail countSha _ d built.tables built.size (leafHash countSha []) []
    ⟨[],mem_replicate.mpr ⟨by norm_num,rfl⟩,rfl⟩ (by rw [length]; norm_num) (by rw [length]; norm_num)
  rw [RegularMerkleTree.generateProof,if_neg (by rw [built.size,length]; norm_num),failed]
  rfl

end LiskEngine.Rmt
