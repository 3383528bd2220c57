import LiskEngine.OrderedMap
import LiskEngine.SmtUpdate

/-! The root of a trie after any updates is the reference root of the key/value map they
leave. -/
namespace LiskEngine.Smt
open List OrderedMap SparseTree

abbrev KeyValueMap := OrderedMap Bytes Bytes

section
variable (sha : Bytes → Bytes)

/-- The empty hash, the leaf hash, or the branch hash of the two halves on the next bit.
Entries with distinct keys never run out of bits. -/
def referenceRoot : Nat → Nat → List KeyValue → Bytes
  | _, _, [] => emptyHash sha
  | _, _, [e] => leafHash sha e.1 e.2
  | 0, _, _ :: _ :: _ => emptyHash sha
  | n + 1, d, e :: e' :: rest =>
    branchHash sha (referenceRoot n (d + 1) ((e :: e' :: rest).filter (fun e => !keyBit e.1 d)))
      (referenceRoot n (d + 1) ((e :: e' :: rest).filter (fun e => keyBit e.1 d)))

def mapTree (keyLength : Nat) (m : KeyValueMap) : Tree := treeOf (8 * keyLength) 0 m.entries

def hashedBy (trees : List Tree) : List Bytes :=
  [] :: trees.flatMap (fun t => t.subtrees.map (fun x => preimageBytes (x.preimage (digest sha))))

def CollisionFree (strings : List Bytes) : Prop := ∀ a ∈ strings, ∀ b ∈ strings, sha a = sha b → a = b

instance (strings : List Bytes) : Decidable (CollisionFree sha strings) := by
  unfold CollisionFree
  infer_instance

def Known (trees : List Tree) (x : Tree) : Prop := x = .empty ∨ ∃ t ∈ trees, x ∈ t.subtrees

end

variable {sha : Bytes → Bytes} {len : Nat}

theorem referenceRootTree {n d es} (apart : SparseTree.Apart keyBit n d es) :
    referenceRoot sha n d es = treeRoot sha (treeOf n d es) := by
  induction n generalizing d es with
  | zero =>
    match es, apartZero apart with
    | [], _ | [e], _ => rfl
  | succ n ih =>
    match es, apart with
    | [], _ => rw [treeOf,buildNil]; rfl
    | [e], _ => rw [treeOf,buildSingle (n+1) d e.1 e.2]; rfl
    | e::e'::rest, apart =>
      have left := apartLeft apart
      have right := apartRight apart
      have many : treeOf (n+1) d (e::e'::rest) =
          .node (treeOf n (d+1) ((e::e'::rest).filter (fun e => !keyBit e.1 d)))
            (treeOf n (d+1) ((e::e'::rest).filter (fun e => keyBit e.1 d))) := by
        refine joinMany ?_
        have perm := buildEntries apart
        rw [buildSucc,joinEntries] at perm
        rw [perm.length_eq]
        simp
      rw [referenceRoot,ih left,ih right,many]
      rfl

theorem preimageInjective {p q size} (leafP : ∀ key value, p = .leaf key value → key.length = len)
    (leafQ : ∀ key value, q = .leaf key value → key.length = len) (branchP : ∀ l r, p = .branch l r → l.length = size)
    (branchQ : ∀ l r, q = .branch l r → l.length = size) (same : preimageBytes p = preimageBytes q) : p = q := by
  cases p with
  | empty => cases q <;> simp_all [preimageBytes]
  | leaf key value =>
    cases q with
    | empty | branch l r => simp [preimageBytes] at same
    | leaf key' value' =>
      simp only [preimageBytes,cons.injEq,true_and] at same
      obtain ⟨rfl,rfl⟩ := append_inj same ((leafP _ _ rfl).trans (leafQ _ _ rfl).symm)
      rfl
  | branch l r =>
    cases q with
    | empty | leaf key value => simp [preimageBytes] at same
    | branch l' r' =>
      simp only [preimageBytes,cons.injEq,true_and] at same
      obtain ⟨rfl,rfl⟩ := append_inj same ((branchP _ _ rfl).trans (branchQ _ _ rfl).symm)
      rfl

theorem treeRootLength (size : ∀ data, (sha data).length = hashSize sha) (t : Tree) : (treeRoot sha t).length = hashSize sha := by
  rw [treeRoot,rootPreimage]
  exact size _

theorem hashedKnown {trees x} (known : Known trees x) : preimageBytes (x.preimage (digest sha)) ∈ hashedBy sha trees := by
  rcases known with rfl | ⟨t,listed,inside⟩
  · exact .head _
  · exact .tail _ (mem_flatMap.mpr ⟨t,listed,mem_map_of_mem inside⟩)

theorem knownDown {trees x y} (known : Known trees y) (below : x ∈ y.subtrees) : Known trees x := by
  rcases known with rfl | ⟨t,listed,inside⟩
  · exact .inl (mem_singleton.mp below)
  · exact .inr ⟨t,listed,subtreeTrans below inside⟩

theorem knownSized {trees} (sized : ∀ t ∈ trees, ∀ e ∈ t.entries, e.1.length = len) {x} (known : Known trees x) :
    ∀ e ∈ x.entries, e.1.length = len := by
  rcases known with rfl | ⟨t,listed,inside⟩
  · intro e mem
    cases mem
  · exact fun e mem => sized t listed e (subtreeEntries inside e mem)

theorem preimageSizes (size : ∀ data, (sha data).length = hashSize sha) {x : Tree} (sized : ∀ e ∈ x.entries, e.1.length = len) :
    (∀ key value, x.preimage (digest sha) = .leaf key value → key.length = len) ∧
    (∀ l r, x.preimage (digest sha) = .branch l r → l.length = hashSize sha) := by
  cases x with
  | empty => simp [SparseTree.preimage]
  | leaf key value => simpa [SparseTree.preimage,SparseTree.entries] using sized
  | node l r =>
    simp only [SparseTree.preimage,reduceCtorEq,false_implies,implies_true,true_and,SparseTree.Preimage.branch.injEq]
    rintro _ _ ⟨rfl,_⟩
    exact treeRootLength size l

theorem hashingKnown (size : ∀ data, (sha data).length = hashSize sha) {trees : List Tree}
    (sized : ∀ t ∈ trees, ∀ e ∈ t.entries, e.1.length = len)
    (full : ∀ t ∈ trees, t.Full) (free : CollisionFree sha (hashedBy sha trees)) : Hashing sha (Known trees) where
  size := size
  down _ _ known below := knownDown known below
  empty := Or.inl rfl
  full x known none := by
    rcases known with rfl | ⟨t,listed,inside⟩
    · rfl
    · exact full t listed x inside none
  unique x y knownX knownY same := by
    refine rootInjective (fun x' inX y' inY sameDigest => ?_) same
    have known := knownDown knownX inX
    have known' := knownDown knownY inY
    have sizes := preimageSizes size (knownSized sized known)
    have sizes' := preimageSizes size (knownSized sized known')
    exact preimageInjective sizes.1 sizes'.1 sizes.2 sizes'.2
      (free _ (hashedKnown known) _ (hashedKnown known') sameDigest)

def writeTo (m : KeyValueMap) (kv : KeyValue) : KeyValueMap :=
  if kv.2.length ≠ 0 then m.set kv.1 kv.2 else m.del kv.1

def writeAll (m : KeyValueMap) (keyValues : List KeyValue) : KeyValueMap := keyValues.foldl writeTo m

theorem memWritten (kvs es : List KeyValue) (k v : Bytes) : (k,v) ∈ written kvs es ↔
    ((k,v) ∈ es ∧ k ∉ kvs.map Prod.fst) ∨ ((k,v) ∈ kvs ∧ v.length ≠ 0) := by
  unfold written SparseTree.written
  rw [mem_append,mem_filter,writesKeys,mem_filterMap]
  simp only [decide_eq_true_eq]
  refine or_congr Iff.rfl ⟨?_,?_⟩
  · rintro ⟨u,mem,value⟩
    obtain ⟨kv,old,rfl⟩ := mem_map.mp mem
    split at value
    · rename_i filled
      cases value
      exact ⟨old,filled⟩
    · cases value
  · rintro ⟨mem,filled⟩
    exact ⟨_,mem_map_of_mem mem,by simp [filled]⟩

theorem memWriteTo (m : KeyValueMap) (kv : KeyValue) (k v : Bytes) : (k,v) ∈ (writeTo m kv).entries ↔
    ((k,v) ∈ m.entries ∧ k ≠ kv.1) ∨ ((k,v) = kv ∧ v.length ≠ 0) := by
  obtain ⟨key,value⟩ := kv
  unfold writeTo
  split <;> rename_i filled <;> rw [memIffGet,memIffGet]
  · rw [getSet]
    by_cases same : k = key
    · subst same
      simp only [if_true,Option.some.injEq,ne_eq,not_true,and_false,false_or,Prod.mk.injEq,true_and]
      exact ⟨fun eq => ⟨eq.symm,eq ▸ filled⟩,fun eq => eq.1.symm⟩
    · simp [same]
  · rw [getDel]
    by_cases same : k = key
    · subst same
      simp only [if_true,reduceCtorEq,ne_eq,not_true,and_false,false_or,Prod.mk.injEq,true_and,false_iff,not_and]
      rintro rfl
      exact filled
    · simp [same]

theorem memWriteAll {kvs} (nodup : (kvs.map Prod.fst).Nodup) (m : KeyValueMap) (k v : Bytes) :
    (k,v) ∈ (writeAll m kvs).entries ↔ (k,v) ∈ written kvs m.entries := by
  induction kvs generalizing m with
  | nil => simp [writeAll,written,writes,writtenNil]
  | cons kv rest ih =>
    rw [map_cons,nodup_cons] at nodup
    have later := ih nodup.2 (writeTo m kv)
    rw [writeAll,foldl_cons,← writeAll,later,memWritten,memWritten,memWriteTo]
    grind

theorem mapDistinct (m : KeyValueMap) : (m.entries.map Prod.fst).Nodup :=
  pairwise_map.mpr (m.sorted.imp (fun less same => absurd (same ▸ less) (lt_irrefl _)))

theorem mapPerm {kvs} (nodup : (kvs.map Prod.fst).Nodup) (m : KeyValueMap) :
    (written kvs m.entries).Perm (writeAll m kvs).entries := by
  have nodup' := writtenDistinct (mapDistinct m) (by rw [writesKeys]; exact nodup)
  refine (perm_ext_iff_of_nodup (List.Nodup.of_map _ nodup') (List.Nodup.of_map _ (mapDistinct _))).mpr ?_
  exact fun e => (memWriteAll nodup m e.1 e.2).symm

section
variable (sha)

def runUpdates {σ : Type} (db : DB σ) : σ → Trie → List (List KeyValue) → Except SmtError (σ × Trie)
  | s, t, [] => .ok (s, t)
  | s, t, call :: rest => do
    let (s, t) ← t.update sha db s (call.map Prod.fst) (call.map Prod.snd)
    runUpdates db s t rest

def runCommitted {σ : Type} (db : DB σ) (commit : σ → σ) : σ → Trie → List (List KeyValue) → Except SmtError (σ × Trie)
  | s, t, [] => .ok (s, t)
  | s, t, call :: rest => do
    let (s, t) ← t.update sha db s (call.map Prod.fst) (call.map Prod.snd)
    runCommitted db commit (commit s) t rest

end

theorem runCommittedId {σ : Type} (db : DB σ) (s : σ) (t : Trie) (calls : List (List KeyValue)) :
    runCommitted sha db id s t calls = runUpdates sha db s t calls := by
  induction calls generalizing s t with
  | nil => rfl
  | cons call rest ih => simp only [runCommitted,runUpdates,id_eq,ih]

theorem runUnique {σ : Type} (db : DB σ) (s : σ) (t : Trie) (calls : List (List KeyValue)) :
    runUpdates sha db s t calls = runUpdates sha db s t (calls.map (uniqueKeys [])) := by
  induction calls generalizing s t with
  | nil => rfl
  | cons call rest ih =>
    rw [map_cons,runUpdates,runUpdates,← updateUnique]
    simp only [ih]

def mapsAlong (m : KeyValueMap) : List (List KeyValue) → List KeyValueMap
  | [] => [m]
  | call :: rest => m :: mapsAlong (writeAll m call) rest

def resultMap (m : KeyValueMap) (calls : List (List KeyValue)) : KeyValueMap := calls.foldl writeAll m

def idealStore : Store KeyValueMap where
  get := OrderedMap.get
  set := OrderedMap.set
  del := OrderedMap.del
  content := OrderedMap.get
  contentSet s key value key' := by
    rw [OrderedMap.getSet]
    by_cases same : key' = key <;> simp [same]
  contentDel s key key' := by
    rw [OrderedMap.getDel]
    by_cases same : key' = key <;> simp [same]
  getSet s key value key' differs := by rw [OrderedMap.getSet,if_neg differs]
  getDel s key key' differs := by rw [OrderedMap.getDel,if_neg differs]

theorem writeAllTree {P kvs} (m : KeyValueMap) (region : Region len (8*len) 0 P m.entries kvs) :
    treeOf (8*len) 0 (written kvs m.entries) = mapTree len (writeAll m kvs) :=
  buildPerm region.writtenApart (mapPerm region.writesDistinct m)

structure Batch (keyLength size : Nat) (keyValues : List KeyValue) : Prop where
  keys : ∀ kv ∈ keyValues, kv.1.length = keyLength
  values : ∀ kv ∈ keyValues, kv.2.length = size ∨ kv.2 = []
  distinct : (keyValues.map Prod.fst).Nodup

def SizedMap (keyLength size : Nat) (m : KeyValueMap) : Prop :=
  ∀ e ∈ m.entries, e.1.length = keyLength ∧ e.2.length = size

theorem writeAllSized {size m kvs} (sized : SizedMap len size m) (batch : Batch len size kvs) :
    SizedMap len size (writeAll m kvs) := by
  rintro ⟨k,v⟩ mem
  rcases (memWritten _ _ _ _).mp ((memWriteAll batch.distinct m k v).mp mem) with ⟨old,_⟩ | ⟨new,filled⟩
  · exact sized _ old
  · refine ⟨batch.keys _ new,(batch.values _ new).resolve_right (fun empty => filled ?_)⟩
    simp only at empty
    rw [empty,length_nil]

theorem mapsAlongSized {size m calls} (sized : SizedMap len size m) (batches : ∀ call ∈ calls, Batch len size call) :
    ∀ m' ∈ mapsAlong m calls, SizedMap len size m' := by
  induction calls generalizing m with
  | nil =>
    intro m' mem
    cases mem_singleton.mp mem
    exact sized
  | cons call rest ih =>
    intro m' mem
    rcases mem_cons.mp mem with rfl | later
    · exact sized
    · exact ih (writeAllSized sized (batches call (.head _)))
        (fun call mem => batches call (.tail _ mem)) m' later

theorem mapsAlongFirst (m : KeyValueMap) (calls : List (List KeyValue)) : m ∈ mapsAlong m calls := by
  cases calls <;> exact .head _

theorem resultAlong (m : KeyValueMap) (calls : List (List KeyValue)) : resultMap m calls ∈ mapsAlong m calls := by
  induction calls generalizing m with
  | nil => exact mem_singleton.mpr rfl
  | cons call rest ih => exact .tail _ (ih (writeAll m call))

theorem mapTreeEntries {m} (keys : ∀ e ∈ m.entries, e.1.length = len) : (mapTree len m).entries.Perm m.entries :=
  buildEntries (apartOf (keySeparated len) keys (mapDistinct m))

structure Commits {σ : Type} (store : Store σ) (commit : σ → σ) : Prop where
  reads : ∀ s, store.get (commit s) = store.content s
  content : ∀ s, store.content (commit s) = store.content s

theorem runKeeps {σ : Type} {store commit} (commits : Commits store commit) {S} (hashing : Hashing sha S) {h P}
    (shape : Shape h len P) (pos : 0 < len) {calls m} {s : σ} {t} (sized : SizedMap len (hashSize sha) m)
    (es : ∀ e ∈ m.entries, P e.1) (batches : ∀ call ∈ calls, Batch len (hashSize sha) call ∧ ∀ kv ∈ call, P kv.1)
    (known : ∀ m' ∈ mapsAlong m calls, S (mapTree len m')) (length : t.keyLength = len) (tall : t.subtreeHeight = h)
    (root : t.root = treeRoot sha (mapTree len m)) (keeps : Keeps sha h (store.get s) (mapTree len m))
    (holds : Keeps sha h (store.content s) (mapTree len m)) : ∃ s', runCommitted sha store.toDB commit s t calls =
        .ok (s',{t with root := treeRoot sha (mapTree len (resultMap m calls))}) ∧
      Keeps sha h (store.get s') (mapTree len (resultMap m calls)) ∧
      Keeps sha h (store.content s') (mapTree len (resultMap m calls)) := by
  induction calls generalizing m s t with
  | nil =>
    refine ⟨s,?_,keeps,holds⟩
    rw [resultMap,foldl_nil,← root]
    rfl
  | cons call rest ih =>
    obtain ⟨batch,keys⟩ := batches call (.head _)
    have batches' := fun call mem => batches call (.tail _ mem)
    have known' := fun m' mem => known m' (.tail _ mem)
    have next := known' _ (mapsAlongFirst (writeAll m call) rest)
    have es' : ∀ e ∈ (writeAll m call).entries, P e.1 := fun e mem =>
      ((memWritten _ _ _ _).mp ((memWriteAll batch.distinct m e.1 e.2).mp mem)).elim (fun old => es e old.1)
        (fun new => keys e new.1)
    obtain ⟨s1,step,holds'⟩ : ∃ s1, t.update sha store.toDB s (call.map Prod.fst) (call.map Prod.snd) =
          .ok (s1,{t with root := treeRoot sha (mapTree len (writeAll m call))}) ∧
        Keeps sha h (store.content s1) (mapTree len (writeAll m call)) := by
      by_cases absent : call = []
      · subst absent
        refine ⟨s,?_,holds⟩
        rw [writeAll,foldl_nil,← root]
        rfl
      · have region := Region.whole shape.sized es (mapDistinct m) keys batch.distinct
        have same := writeAllTree m region
        have updated := updateWritten store hashing length tall shape pos region absent
          (known _ (.head _)) (by rw [same]; exact next)
          (fun e mem => sized e ((mapTreeEntries (fun e inside => (sized e inside).1)).mem_iff.mp mem)) root keeps holds.below
        rwa [same] at updated
    obtain ⟨s',run,result⟩ := ih (t := {t with root := treeRoot sha (mapTree len (writeAll m call))})
      (writeAllSized sized batch) es' batches' known' length tall rfl (s := commit s1) (by rw [commits.reads]; exact holds')
      (by rw [commits.content]; exact holds')
    refine ⟨s',?_,result⟩
    rw [runCommitted,step]
    exact run

theorem keepsEmpty (h : Nat) (read : Bytes → Option Bytes) : Keeps sha h read (mapTree len empty) := by
  have empty : mapTree len empty = .empty := buildNil _ _
  exact ⟨fun ne => absurd empty ne,by rw [empty]; simp⟩

theorem hashingMaps (size : ∀ data, (sha data).length = 32) {maps : List KeyValueMap} (along : ∀ m ∈ maps, SizedMap len 32 m)
    (free : CollisionFree sha (hashedBy sha (maps.map (mapTree len)))) : Hashing sha (Known (maps.map (mapTree len))) := by
  have hashes : hashSize sha = 32 := size []
  have sized : ∀ t ∈ maps.map (mapTree len), ∀ e ∈ t.entries, e.1.length = len := by
    intro t listed e mem
    obtain ⟨m,inside,rfl⟩ := mem_map.mp listed
    exact (along m inside e ((mapTreeEntries (fun e mem => (along m inside e mem).1)).mem_iff.mp mem)).1
  refine hashingKnown (by rw [hashes]; exact size) sized (fun t listed => ?_) free
  obtain ⟨m,inside,rfl⟩ := mem_map.mp listed
  exact buildFull _ _ _

section
variable (pos : 1 ≤ len) (size : ∀ data, (sha data).length = 32) {calls : List (List KeyValue)}
  (batches : ∀ call ∈ calls, Batch len 32 call)
  (free : CollisionFree sha (hashedBy sha ((mapsAlong OrderedMap.empty calls).map (mapTree len))))
include batches

theorem alongSized : ∀ m ∈ mapsAlong empty calls, SizedMap len 32 m :=
  mapsAlongSized (fun e mem => by cases mem) batches

include size free

theorem alongHashing : Hashing sha (Known ((mapsAlong empty calls).map (mapTree len))) :=
  hashingMaps size (alongSized batches) free

include pos

theorem runFromHeight {h P} (shape : Shape h len P) (keys : ∀ call ∈ calls, ∀ kv ∈ call, P kv.1) {σ : Type} {store commit}
    (commits : Commits store commit) (s : σ) : ∃ s', runCommitted sha store.toDB commit s ⟨emptyHash sha,len,h⟩ calls =
        .ok (s',⟨treeRoot sha (mapTree len (resultMap empty calls)),len,h⟩) ∧
      Keeps sha h (store.get s') (mapTree len (resultMap empty calls)) ∧
      Keeps sha h (store.content s') (mapTree len (resultMap empty calls)) := by
  have hashes : hashSize sha = 32 := size []
  have hashing := alongHashing size batches free
  rw [← hashes] at batches
  have empty : mapTree len empty = .empty := buildNil _ _
  exact runKeeps commits hashing shape pos (fun e mem => by cases mem) (fun e mem => by cases mem)
    (fun call mem => ⟨batches call mem,keys call mem⟩)
    (fun m inside => Or.inr ⟨_,mem_map_of_mem inside,selfSubtree _⟩) (t := ⟨emptyHash sha,len,h⟩) rfl rfl
    (by rw [empty]; rfl) (keepsEmpty _ _) (keepsEmpty _ _)

theorem runFromEmpty {σ : Type} {store commit} (commits : Commits store commit) (s : σ) :
    ∃ s', runCommitted sha store.toDB commit s (newTrie sha [] len) calls =
        .ok (s',⟨treeRoot sha (mapTree len (resultMap empty calls)),len,8⟩) ∧
      Keeps sha 8 (store.get s') (mapTree len (resultMap empty calls)) ∧
      Keeps sha 8 (store.content s') (mapTree len (resultMap empty calls)) :=
  runFromHeight pos size batches free (shapeEight len) (fun call mem => (batches call mem).keys) commits s

end

theorem idealCommits : Commits idealStore id := ⟨fun _ => rfl,fun _ => rfl⟩

theorem rootIsReference (sha : Bytes → Bytes) (keyLength : Nat) (calls : List (List KeyValue)) (positive : 1 ≤ keyLength)
    (size : ∀ data, (sha data).length = 32) (batches : ∀ call ∈ calls, Batch keyLength 32 call)
    (free : CollisionFree sha (hashedBy sha ((mapsAlong OrderedMap.empty calls).map (mapTree keyLength)))) :
    ∃ s t, runUpdates sha idealStore.toDB OrderedMap.empty (newTrie sha [] keyLength) calls = .ok (s, t) ∧
      t.root = referenceRoot sha (8 * keyLength) 0 (resultMap OrderedMap.empty calls).entries := by
  obtain ⟨s,run,_⟩ := runFromEmpty positive size batches free idealCommits empty
  rw [runCommittedId] at run
  have keys := fun e member => (alongSized batches _ (resultAlong empty calls) e member).1
  exact ⟨s,_,run,(referenceRootTree (apartOf (keySeparated keyLength) keys (mapDistinct _))).symm⟩

def digits : Nat → Nat → Bytes
  | 0, _ => []
  | k + 1, 0 => 0 :: digits k 0
  | k + 1, n + 1 => UInt8.ofNat (n + 1) :: digits k ((n + 1) / 256)

def sampleSha (data : Bytes) : Bytes := digits 32 (data.foldl (fun sum byte => (sum * 257 + byte.toNat + 1) % 2 ^ 256) 1)

theorem digitsLength (k n : Nat) : (digits k n).length = k := by
  induction k generalizing n with
  | zero => rfl
  | succ k ih => cases n <;> simp [digits,ih]

theorem sampleShaLength (data : Bytes) : (sampleSha data).length = 32 := digitsLength _ _

def sampleValue (n : UInt8) : Bytes := List.replicate 32 n

def sampleCalls : List (List KeyValue) :=
  [[([0,1], sampleValue 1),([0,2], sampleValue 2),([7,7], sampleValue 3)],
    [([0,1], []),([128,0], sampleValue 4),([0,3], sampleValue 5)],[([0,2], []),([0,3], [])]]

theorem sampleBatches : ∀ call ∈ sampleCalls, Batch 2 32 call := by
  intro call mem
  simp only [sampleCalls,mem_cons,not_mem_nil,or_false] at mem
  rcases mem with rfl | rfl | rfl <;> exact ⟨by simp,by simp [sampleValue],by decide⟩

theorem rootIsReferenceSample : ∃ s t, runUpdates sampleSha idealStore.toDB OrderedMap.empty (newTrie sampleSha [] 2)
    sampleCalls = .ok (s, t) ∧ t.root = referenceRoot sampleSha 16 0 [([7, 7], sampleValue 3), ([128, 0], sampleValue 4)] :=
  rootIsReference sampleSha 2 sampleCalls (by decide) sampleShaLength
    sampleBatches (by decide +kernel)

end LiskEngine.Smt
