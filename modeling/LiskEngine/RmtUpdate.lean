import LiskEngine.RmtProof

/-! Appends, updates and reloads of one tree. An update recomputes the nodes above the
leaves but leaves the append path as it was, and the first append does not save the
information, so that runs are followed as long as no append comes after an update and
no reload comes before the second append. -/
namespace LiskEngine.Rmt
open SplitTree Indexes List OrderedMap Except RegularMerkleTree
open Smt (CollisionFree)
open Codec (Normalizer fieldShort concatShort writeBytesShort)

theorem infoDecodes {text root} {appendPath : List Bytes} {size : Nat} {infoByte}
    (enc : info.encode text (root,appendPath,size,()) = some infoByte) (rootLength : root.length = 32)
    (pathLength : ∀ h ∈ appendPath, h.length = 32) (pathShort : appendPath.length ≤ 64) (small : size < 9223372036854775808) :
    info.decode text infoByte = .ok (root,appendPath,size,()) := by
  have short : infoByte.length < 9223372036854775808 := by
    simp only [info,Codec.Schema.encode,Codec.Kind.write,Option.bind_eq_bind,Option.bind_eq_some_iff] at enc
    obtain ⟨a,isA,tail,⟨b,isB,tail',⟨c,isC,absent,isNone,whole⟩,whole'⟩,whole''⟩ := enc
    cases isNone
    cases whole
    cases whole'
    cases whole''
    have first := writeBytesShort isA
    have second : b.length ≤ appendPath.length*47 := by
      have most := concatShort (fun part mem data isData => by
        obtain ⟨h,inside,rfl⟩ := mem_map.mp mem
        have one := writeBytesShort isData
        rw [pathLength h inside] at one
        exact one) isB
      rwa [length_map] at most
    have third := fieldShort isC
    have number := Varint.putUvarintShort size
    simp only [length_append,length_nil]
    omega
  have inc : info.Increasing 0 := by simp [info,Codec.Schema.Increasing,Codec.Kind.Increasing]
  have valid : info.Valid text (root,appendPath,size,()) := ⟨trivial,trivial,show size < 18446744073709551616 by omega,trivial⟩
  exact Codec.Schema.decodeEncoded (by decide) inc valid enc short

def setAll (values : List Bytes) (changes : List (Nat × Bytes)) : List Bytes :=
  changes.foldl (fun values e => values.set e.1 e.2) values

theorem setAllLength (vs : List Bytes) (changes : List (Nat × Bytes)) : (setAll vs changes).length = vs.length := by
  induction changes generalizing vs with
  | nil => rfl
  | cons e rest ih => exact (ih _).trans length_set

theorem setAllGet (nodup : (changes.map Prod.fst).Nodup) (fit : ∀ j ∈ changes.map Prod.fst, j < values.length) :
    (∀ e ∈ changes, (setAll values changes)[e.1]? = some e.2) ∧
      ∀ j, j ∉ changes.map Prod.fst → (setAll values changes)[j]? = values[j]? := by
  induction changes generalizing values with
  | nil => exact ⟨fun e mem => (not_mem_nil mem).elim,fun j _ => rfl⟩
  | cons first rest ih =>
    obtain ⟨fresh,later⟩ := nodup_cons.mp nodup
    obtain ⟨inside,out⟩ := @ih (values.set first.1 first.2) later
      (fun j mem => by rw [length_set]; exact fit j (.tail _ mem))
    refine ⟨fun e mem => ?_,fun j missing => ?_⟩
    · rcases mem_cons.mp mem with rfl | mem
      · refine (out e.1 fresh).trans ?_
        rw [getElem?_set_self (fit e.1 (.head _))]
      · exact inside e mem
    · rw [map_cons,mem_cons,not_or] at missing
      exact (out j missing.2).trans (getElem?_set_ne (fun same => missing.1 same.symm))

theorem neededFromCongr (sizes : values'.length = values.length)
    (same : ∀ j, j ∉ leaves → values'[j]? = values[j]?) (layers l : Nat) (rest : List Nat) :
    neededFrom sha values' leaves layers l rest = neededFrom sha values leaves layers l rest := by
  have one : ∀ l x, needed sha values' leaves l x = needed sha values leaves l x := by
    intro l x
    unfold needed
    rw [sizes]
    split
    · rename_i apart
      have node : nodeHash sha values' (twin x) l = nodeHash sha values (twin x) l :=
        nodeCongr (fun j below => same j (fun mem => apart.2 (mem_map.mpr ⟨j,mem,below⟩)))
      rw [node]
    · rfl
  induction layers generalizing l rest with
  | zero => rfl
  | succ layers ih => rw [neededFrom,neededFrom,ih,funext (one l)]

theorem newNodeLocationSpot (covers : Covers n i m) (bound : n ≤ 2^29) : newNodeLocation (spot n i m) (getHeight n) = .ok ⟨i,m⟩ := by
  have fits : i < 2147483648 := by
    have := covers.leaf
    have := Nat.le_mul_of_pos_right i (Nat.two_pow_pos m)
    omega
  exact (newNodeLocationPlace covers.layer covers.below (by have := spotShort covers bound; unfold spot at this; omega)).trans
    (if_pos fits)

theorem saveNodesAll {n} (bound : n ≤ 2^29) {f : Nat → Nat → Bytes} (long : ∀ i m, (f i m).length = 32) {es}
    (each : ∀ e ∈ es, ∃ i m, Stands n i m ∧ e = (spot n i m,f i m)) (db : Db) :
    ∃ db', saveNodes (getHeight n) es db = .ok db' ∧ ∀ i m, Stands n i m →
      getHash db' ⟨i,m⟩ = if spot n i m ∈ es.map Prod.fst then some (f i m) else getHash db ⟨i,m⟩ := by
  induction es generalizing db with
  | nil => exact ⟨db,rfl,fun i m _ => rfl⟩
  | cons e rest ih =>
    obtain ⟨i,m,stands,rfl⟩ := each e (.head _)
    obtain ⟨db',saved,hashes⟩ := ih (fun e mem => each e (.tail _ mem)) (saveNode db (f i m) ⟨i,m⟩)
    refine ⟨db',?_,fun i' m' stands' => ?_⟩
    · simp only [saveNodes,newNodeLocationSpot (standsSpot stands) bound,bind,bind]
      exact saved
    rw [hashes i' m' stands',getHashSave (long i m) (standsSmall stands (by omega)) (standsSmall stands' (by omega))]
    simp only [map_cons,mem_cons]
    by_cases same : spot n i' m' = spot n i m
    · obtain ⟨rfl,rfl⟩ := spotInjective (standsSpot stands') (standsSpot stands) same
      simp
    have other : (⟨i',m'⟩ : NodeLocation) ≠ ⟨i,m⟩ := fun equal => by
      cases equal
      exact same rfl
    rw [if_neg other]
    simp only [same,false_or]

inductive Operation where
  | append (value : Bytes)
  | update (changes : List (Nat × Bytes)) (visit : List (Nat × Bytes) → List (Nat × Bytes))
  | reload

def runOperation (sha : Bytes → Bytes) (text : Normalizer) (d : RegularMerkleTree) : Operation → Except RmtError RegularMerkleTree
  | .append value => d.append sha text value
  | .update changes visit =>
    d.update sha text visit (changes.map (fun e => spot d.size e.1 0)) (changes.map Prod.snd)
  | .reload => RegularMerkleTree.withPastData text d.db

def runOperations (sha : Bytes → Bytes) (text : Normalizer) (d : RegularMerkleTree) :
    List Operation → Except RmtError RegularMerkleTree
  | [] => .ok d
  | operation :: rest => do
    let d ← runOperation sha text d operation
    runOperations sha text d rest

structure Session where
  values : List Bytes
  updated : Bool

def Session.next (s : Session) : Operation → Session
  | .append value => {s with values := s.values ++ [value]}
  | .update changes _ => ⟨setAll s.values changes,true⟩
  | .reload => s

def Session.Fine (s : Session) : Operation → Prop
  | .append _ => s.updated = false ∧ s.values.length < 9223372036854775807
  | .update changes visit => changes ≠ [] ∧ (changes.map Prod.fst).Nodup ∧ (∀ j ∈ changes.map Prod.fst, j < s.values.length) ∧
    s.values.length ≤ 2 ^ 29 ∧ ∀ nodes, (visit nodes).Perm nodes
  | .reload => 2 ≤ s.values.length ∨ s.updated = true

def FineOperations : Session → List Operation → Prop
  | _, [] => True
  | s, operation :: rest => s.Fine operation ∧ FineOperations (s.next operation) rest

def sessionStrings (sha : Bytes → Bytes) : Session → List Operation → List Bytes
  | s, [] => treeStrings sha s.values
  | s, operation :: rest => treeStrings sha s.values ++ sessionStrings sha (s.next operation) rest

structure Follows (sha : Bytes → Bytes) (text : Normalizer) (s : Session) (d : RegularMerkleTree) : Prop where
  bound : s.values.length < 9223372036854775808
  root : d.root = calculateRoot sha s.values
  size : d.size = s.values.length
  hashes : ∀ i l, Stands s.values.length i l → getHash d.db ⟨i,l⟩ = some (nodeHash sha s.values i l)
  pathLength : ∀ h ∈ d.appendPath, h.length = 32
  pathShort : d.appendPath.length ≤ 64
  saved : 2 ≤ s.values.length ∨ s.updated = true → d.db.get [storePrefixInfo] = info.encode text (d.root, d.appendPath, d.size, ())
  built : s.updated = false → Built sha text s.values d

section
variable {sha : Bytes → Bytes} {text : Normalizer} (size : ∀ data, (sha data).length = 32) {s : Session} {d : RegularMerkleTree}
include size

theorem rootLength (vs : List Bytes) : (calculateRoot sha vs).length = 32 := by
  have top : nodeHash sha vs 0 (getHeight vs.length) = calculateRoot sha vs := nodeTop (le_of_lt (heightEnough _))
  rw [← top]
  exact nodeHashLength size _ _ _

theorem followsBuilt (built : Built sha text values d) (bound : values.length < 9223372036854775808) :
    Follows sha text ⟨values,false⟩ d := by
  refine ⟨bound,built.root,built.size,built.tables.hashes,fun h mem => ?_,?_,fun either => ?_,fun _ => built⟩
  · rw [built.path] at mem
    obtain ⟨k,_,rfl⟩ := mem_map.mp mem
    exact rootLength size _
  · rw [built.path,subtreeRoots,length_map]
    have most := length_filter_le values.length.testBit (range values.length.size)
    have few : values.length.size ≤ 63 := Nat.size_le.mpr (by norm_num; exact bound)
    rw [length_range] at most
    omega
  · rcases either with two | bad
    · exact built.saved two
    · cases bad

theorem followsReload (next : Follows sha text s d) (saved : 2 ≤ s.values.length ∨ s.updated = true) :
    ∃ d', withPastData text d.db = .ok d' ∧ Follows sha text s d' := by
  have held := next.saved saved
  obtain ⟨infoByte,enc⟩ := infoEncodes text d.root d.appendPath d.size
  have dec := infoDecodes enc (by rw [next.root]; exact rootLength size _) next.pathLength next.pathShort
    (by rw [next.size]; exact next.bound)
  refine ⟨d,?_,next⟩
  rw [withPastData,held,enc]
  simp only [dec]

theorem followsAppend (free : CollisionFree sha strings)
    (hashed : ∀ text ∈ treeStrings sha (values ++ [value]), text ∈ strings) (bound : values.length < 9223372036854775807)
    (built : Built sha text values d) : ∃ d', d.append sha text value = .ok d' ∧ Follows sha text ⟨values ++ [value],false⟩ d' := by
  obtain ⟨d',appended,built'⟩ := appendStep size free hashed (by omega) built
  exact ⟨d',appended,followsBuilt size built' (by simp only [length_append,length_singleton]; omega)⟩

omit size in
theorem leavesAtLeaf {leaves : List Nat} (bound : n ≤ 2^29) (fit : ∀ j ∈ leaves, j < n) :
    (leaves.map (fun j => spot n j 0)).any (fun idx => length idx ≠ getHeight n+1) = false := by
  rw [any_eq_false]
  intro idx mem
  obtain ⟨j,inside,rfl⟩ := mem_map.mp mem
  have covers := leafCovers (fit j inside)
  have short := spotShort covers bound
  unfold spot at short
  have digits := lengthPlace covers.below (by omega)
  simp [spot,digits]

theorem saveComputed {vs vs' leaves res db} (bound : vs.length ≤ 2^29) (count : vs'.length = vs.length)
    (kept : ∀ j, j ∉ leaves → vs'[j]? = vs[j]?) (computed : Computed sha vs' leaves res) {es}
    (perm : es.Perm res.entries)
    (hashes : ∀ i l, Stands vs.length i l → getHash db ⟨i,l⟩ = some (nodeHash sha vs i l)) :
    ∃ db', saveNodes (getHeight vs.length) es db = .ok db' ∧
      ∀ i l, Stands vs'.length i l → getHash db' ⟨i,l⟩ = some (nodeHash sha vs' i l) := by
  obtain ⟨nodes,spots⟩ := computed
  rw [count] at nodes spots
  have each : ∀ e ∈ es, ∃ i m, Stands vs.length i m ∧ e = (spot vs.length i m,nodeHash sha vs' i m) := by
    rintro ⟨idx,hash⟩ mem
    have held := (memIffGet _ _ _).mp (perm.mem_iff.mp mem)
    obtain ⟨i,m,covers,rfl⟩ := spots idx hash held
    rw [nodes i m covers] at held
    split at held
    · rename_i both
      exact ⟨i,m,both.1,by rw [Option.some.inj held]⟩
    · cases held
  obtain ⟨db',saved,now⟩ := saveNodesAll bound (fun i m => nodeHashLength size vs' i m) each db
  refine ⟨db',saved,fun i l stands => ?_⟩
  rw [count] at stands
  rw [now i l stands]
  split
  · rfl
  rename_i missing
  rw [hashes i l stands]
  have apart : i ∉ reached leaves l := fun mem => missing (by
    have held := nodes i l (standsSpot stands)
    rw [if_pos ⟨stands,mem⟩] at held
    exact mem_map.mpr ⟨_,perm.mem_iff.mpr ((memIffGet _ _ _).mpr held),rfl⟩)
  exact congrArg some (nodeCongr (fun j below => (kept j (fun mem => apart (mem_map.mpr ⟨j,mem,below⟩))).symm))

omit size in
theorem updateNodes (count : d.size = values.length)
    (hashes : ∀ i l, Stands values.length i l → getHash d.db ⟨i,l⟩ = some (nodeHash sha values i l)) (filled : changes ≠ [])
    (nodup : (changes.map Prod.fst).Nodup) (fit : ∀ j ∈ changes.map Prod.fst, j < values.length)
    (small : values.length ≤ 2^29) : ∃ sibs res, d.getSiblingHashes (leafSpots values.length (changes.map Prod.fst)) = .ok sibs ∧
      calculatePathNodes sha ((changes.map Prod.snd).map (leafHash sha)) values.length
        (leafSpots values.length (changes.map Prod.fst)) sibs = .ok res ∧
      Computed sha (setAll values changes) (changes.map Prod.fst) res := by
  have sizes := setAllLength values changes
  obtain ⟨changed,kept⟩ := setAllGet nodup fit
  have leavesSome : changes.map Prod.fst ≠ [] := by simpa using filled
  obtain ⟨sorted,perm,inc,ordered⟩ := sortedLeaves small fit nodup
  have siblings := siblingHashesOf small fit leavesSome perm inc count hashes ordered
  rw [← neededFromCongr sizes kept] at siblings
  obtain ⟨res,run,computed⟩ := @pathNodesOf sha (setAll values changes) (changes.map Prod.fst) (by rwa [sizes]) (by rwa [sizes])
    nodup leavesSome sorted perm inc ((changes.map Prod.snd).map (leafHash sha)) (by simp) (fun j hash mem => by
      rw [map_map,zip_map'] at mem
      obtain ⟨e,inside,same⟩ := mem_map.mp mem
      cases same
      exact (nodeHashLeaf (changed e inside)).symm) (by rw [sizes]; exact ordered)
  rw [sizes] at run
  exact ⟨_,res,siblings,run,computed⟩

theorem followsUpdate (next : Follows sha text s d) {changes visit} (fine : s.Fine (.update changes visit)) :
    ∃ d', d.update sha text visit (changes.map (fun e => spot d.size e.1 0)) (changes.map Prod.snd) = .ok d' ∧
      Follows sha text ⟨setAll s.values changes,true⟩ d' := by
  obtain ⟨found,nodup,fit,small,perms⟩ := fine
  have count := setAllLength s.values changes
  have indexes : changes.map (fun e => spot d.size e.1 0) = leafSpots s.values.length (changes.map Prod.fst) := by
    rw [leafSpots,map_map,next.size]
    rfl
  obtain ⟨sibs,res,siblings,run,computed⟩ := updateNodes next.size next.hashes found nodup fit small
  obtain ⟨db,saved,hashes⟩ := saveComputed size small count (setAllGet nodup fit).2 computed (perms res.entries) next.hashes
  obtain ⟨infoByte,encoded,info⟩ := saveInfoOk text {d with root := calculateRoot sha (setAll s.values changes), db := db}
  refine ⟨{d with root := calculateRoot sha (setAll s.values changes), db := db.set [storePrefixInfo] infoByte},?_,
    ⟨by rw [count]; exact next.bound,rfl,next.size.trans count.symm,fun i l stands => ?_,next.pathLength,
      next.pathShort,fun _ => ?_,nofun⟩⟩
  · rw [indexes,update]
    simp only [next.size] at info ⊢
    rw [leavesAtLeaf small fit]
    simp only [siblings,run,bind,Except.bind,saved,computed.root (by rwa [count]) (by simpa using found)]
    exact info
  · rw [getHashInfo]
    exact hashes i l stands
  · rw [getSet,if_pos rfl]
    exact encoded.symm

theorem followsStep (free : CollisionFree sha strings) (follows : Follows sha text s d) (op : Operation)
    (hashed : ∀ text ∈ treeStrings sha (s.next op).values, text ∈ strings) (fine : s.Fine op) :
    ∃ d', runOperation sha text d op = .ok d' ∧ Follows sha text (s.next op) d' := by
  cases op with
  | append value =>
    obtain ⟨vs,updated⟩ := s
    obtain ⟨rfl,bound⟩ := fine
    exact followsAppend size free hashed bound (follows.built rfl)
  | update changes visit => exact followsUpdate size follows fine
  | reload => exact followsReload size follows fine

theorem followsRun (free : CollisionFree sha strings) (hashed : ∀ text ∈ sessionStrings sha s operations, text ∈ strings)
    (fine : FineOperations s operations) (follows : Follows sha text s d) :
    ∃ d', runOperations sha text d operations = .ok d' ∧ Follows sha text (operations.foldl Session.next s) d' := by
  induction operations generalizing s d with
  | nil => exact ⟨d,rfl,follows⟩
  | cons op rest ih =>
    have later : ∀ text ∈ sessionStrings sha (s.next op) rest, text ∈ strings := fun text mem =>
      hashed text (mem_append_right _ mem)
    have next : ∀ text ∈ treeStrings sha (s.next op).values, text ∈ strings := fun text mem =>
      later text (by cases rest <;> simp [sessionStrings,mem])
    obtain ⟨d',ran,next'⟩ := followsStep size free follows op next fine.1
    obtain ⟨d'',run,done⟩ := ih later fine.2 next'
    refine ⟨d'',?_,done⟩
    simp only [runOperations,ran,bind,bind]
    exact run

end

theorem sessionFollows (sha : Bytes → Bytes) (text : Normalizer) (size : ∀ data, (sha data).length = 32) (operations : List Operation)
    (fine : FineOperations ⟨[], false⟩ operations) (free : CollisionFree sha (sessionStrings sha ⟨[], false⟩ operations)) :
    ∃ d, runOperations sha text (RegularMerkleTree.new sha OrderedMap.empty) operations = .ok d ∧
      d.root = calculateRoot sha (operations.foldl Session.next ⟨[], false⟩).values ∧
      d.size = (operations.foldl Session.next ⟨[], false⟩).values.length := by
  obtain ⟨d,run,follows⟩ := followsRun size free (fun _ member => member) fine
    (followsBuilt size (newBuilt sha text) (by simp))
  exact ⟨d,run,follows.root,follows.size⟩

def sampleOperations : List Operation :=
  [.append [7],.append [8],.reload,.append [7],.update [(2, [5]),(0, [6])] List.reverse,.reload,.update [(1, [6])] id]

theorem sessionFollowsSample : FineOperations ⟨[], false⟩ sampleOperations ∧
    ∃ d, runOperations Smt.sampleSha ⟨fun _ => true, id, fun _ _ => rfl⟩ (RegularMerkleTree.new Smt.sampleSha OrderedMap.empty)
        sampleOperations = .ok d ∧ d.root = calculateRoot Smt.sampleSha [[6], [6], [5]] ∧ d.size = 3 := by
  have fine : FineOperations ⟨[],false⟩ sampleOperations := by
    simp [sampleOperations,FineOperations,Session.Fine,Session.next,setAll]
  exact ⟨fine,sessionFollows Smt.sampleSha _ Smt.sampleShaLength sampleOperations fine (by decide +kernel)⟩

theorem sessionDiverges :
    (runOperations Smt.sampleSha ⟨fun _ => true, id, fun _ _ => rfl⟩ (RegularMerkleTree.new Smt.sampleSha OrderedMap.empty)
        [.append [7], .reload]).map RegularMerkleTree.root = .error .infoNotFound ∧
    (runOperations Smt.sampleSha ⟨fun _ => true, id, fun _ _ => rfl⟩ (RegularMerkleTree.new Smt.sampleSha OrderedMap.empty)
        [.append [7], .append [8], .update [(0, [9])] id, .append [5]]).map RegularMerkleTree.root =
      .ok (calculateRoot Smt.sampleSha [[7], [8], [5]]) ∧
    calculateRoot Smt.sampleSha [[7], [8], [5]] ≠ calculateRoot Smt.sampleSha [[9], [8], [5]] ∧
    CollisionFree Smt.sampleSha (treeStrings Smt.sampleSha [[7], [8], [5]] ++ treeStrings Smt.sampleSha [[9], [8], [5]]) := by
  decide +kernel

end LiskEngine.Rmt
