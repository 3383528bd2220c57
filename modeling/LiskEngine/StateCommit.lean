import LiskEngine.AbiHandler

/-! Commits and reverts of the application state against the reference root of the state. -/
namespace LiskEngine.Framework
open Smt List OrderedMap SparseTree
open Diffdb (Write CacheValue Diff View Operation applyWrites commitEntries revertDiff perform ideal Shows)
open Codec (Normalizer)

def StateKey (key : Bytes) : Prop := ∃ rest, key = 0 :: rest ∧ 6 ≤ rest.length

section
variable (sha : Bytes → Bytes)

def treeKey (key : Bytes) : Bytes := (key.drop 1).take 6 ++ sha (key.drop 7)

def stateEntries (state : OrderedMap Bytes Bytes) : List KeyValue :=
  state.entries.map (fun e => (treeKey sha e.1, sha e.2))

def stateRoot (state : OrderedMap Bytes Bytes) : Bytes := referenceRoot sha (8 * stateTreeKeySize) 0 (stateEntries sha state)

def stateTree (state : OrderedMap Bytes Bytes) : Tree := treeOf (8 * stateTreeKeySize) 0 (stateEntries sha state)

def hashedFor (states : List (OrderedMap Bytes Bytes)) : List Bytes :=
  states.flatMap (fun state => state.entries.map (fun e => e.1.drop 7)) ++ hashedBy sha (states.map (stateTree sha))

end

variable {sha : Bytes → Bytes}

theorem getTreeKeyOf (valid : StateKey key) : getTreeKey sha key = some (treeKey sha key) := by
  obtain ⟨rest,rfl,long⟩ := valid
  unfold getTreeKey dbPrefixSize moduleKeySize treeKey
  rw [if_neg (by simp only [length_cons]; omega)]

theorem treeKeyLength (size : ∀ data, (sha data).length = 32) (valid : StateKey key) :
    (treeKey sha key).length = stateTreeKeySize := by
  obtain ⟨rest,rfl,long⟩ := valid
  simp only [treeKey,length_append,length_take,drop_succ_cons,drop_zero,size,stateTreeKeySize]
  omega

theorem treeKeyInjective (valid : StateKey key) (valid' : StateKey key')
    (free : sha (key.drop 7) = sha (key'.drop 7) → key.drop 7 = key'.drop 7) (same : treeKey sha key = treeKey sha key') :
    key = key' := by
  obtain ⟨rest,rfl,long⟩ := valid
  obtain ⟨rest',rfl,long'⟩ := valid'
  simp only [treeKey,drop_succ_cons,drop_zero] at same free
  obtain ⟨fronts,ends⟩ := append_inj same (by simp only [length_take]; omega)
  rw [← take_append_drop 6 rest,← take_append_drop 6 rest',fronts,free ends]

def stateValues (states : List (OrderedMap Bytes Bytes)) : List Bytes := states.flatMap (·.entries.map Prod.snd)

structure Clean (sha : Bytes → Bytes) (states : List (OrderedMap Bytes Bytes)) : Prop where
  size : ∀ data, (sha data).length = 32
  keys : ∀ state ∈ states, ∀ e ∈ state.entries, StateKey e.1
  free : CollisionFree sha (hashedFor sha states)

section
variable {states : List (OrderedMap Bytes Bytes)} (clean : Clean sha states)
include clean

theorem Clean.injective (listed : state ∈ states) (listed' : state' ∈ states) (mem : e ∈ state.entries)
    (mem' : e' ∈ state'.entries) (same : treeKey sha e.1 = treeKey sha e'.1) : e.1 = e'.1 := by
  refine treeKeyInjective (clean.keys state listed e mem) (clean.keys state' listed' e' mem') ?_ same
  have hashed : ∀ state ∈ states, ∀ e ∈ state.entries, e.1.drop 7 ∈ hashedFor sha states := fun state listed e mem =>
    mem_append_left _ (mem_flatMap.mpr ⟨state,listed,mem_map_of_mem mem⟩)
  exact clean.free _ (hashed state listed e mem) _ (hashed state' listed' e' mem')

section
variable {state} (listed : state ∈ states)
include listed

theorem Clean.distinct : ((stateEntries sha state).map Prod.fst).Nodup := by
  rw [stateEntries,map_map,List.Nodup,pairwise_map]
  refine List.Pairwise.imp_of_mem (fun {a b} memberA memberB less same => ?_) state.sorted
  have equal := clean.injective listed listed memberA memberB same
  exact absurd (equal ▸ less) (lt_irrefl _)

theorem Clean.sized : ∀ e ∈ stateEntries sha state, e.1.length = stateTreeKeySize ∧ e.2.length = 32 := by
  intro e mem
  obtain ⟨e',inside,rfl⟩ := mem_map.mp mem
  exact ⟨treeKeyLength clean.size (clean.keys state listed e' inside),clean.size _⟩

theorem Clean.apart : SparseTree.Apart keyBit (8*stateTreeKeySize) 0 (stateEntries sha state) :=
  apartOf (keySeparated stateTreeKeySize) (fun e mem => (clean.sized listed e mem).1) (clean.distinct listed)

theorem Clean.root : stateRoot sha state = treeRoot sha (stateTree sha state) := referenceRootTree (clean.apart listed)

end

theorem Clean.hashing : Hashing sha (Known (states.map (stateTree sha))) := by
  have hashes : hashSize sha = 32 := clean.size []
  have sized : ∀ t ∈ states.map (stateTree sha), ∀ e ∈ t.entries, e.1.length = stateTreeKeySize := by
    intro t listed e mem
    obtain ⟨state,inside,rfl⟩ := mem_map.mp listed
    exact (clean.sized inside e ((buildEntries (clean.apart inside)).mem_iff.mp mem)).1
  refine hashingKnown (by rw [hashes]; exact clean.size) sized ?_ ?_
  · intro t listed
    obtain ⟨state,_,rfl⟩ := mem_map.mp listed
    exact buildFull _ _ _
  · exact fun a inA b inB => clean.free a (mem_append_right _ inA) b (mem_append_right _ inB)

omit clean in
theorem Clean.known (listed : state ∈ states) : Known (states.map (stateTree sha)) (stateTree sha state) :=
  Or.inr ⟨_,mem_map_of_mem listed,selfSubtree _⟩

theorem Clean.entryOf (values : CollisionFree sha (stateValues states))
    (listed : state ∈ states) (listed' : state' ∈ states) (same : stateRoot sha state = stateRoot sha state') :
    ∀ e ∈ state.entries, e ∈ state'.entries := by
  intro e mem
  rw [clean.root listed,clean.root listed'] at same
  have trees := clean.hashing.unique _ _ (Clean.known listed) (Clean.known listed') same
  have perm := buildEntries (clean.apart listed)
  rw [show build keyBit _ 0 _ = stateTree sha state' from trees] at perm
  have held := (buildEntries (clean.apart listed')).mem_iff.mp (perm.mem_iff.mpr (mem_map_of_mem mem))
  obtain ⟨e',mem',equal⟩ := mem_map.mp held
  have hashed : ∀ {state e}, state ∈ states → e ∈ state.entries → e.2 ∈ stateValues states :=
    fun listed mem => mem_flatMap.mpr ⟨_,listed,mem_map_of_mem mem⟩
  have key := clean.injective listed' listed mem' mem (Prod.ext_iff.mp equal).1
  have value := values _ (hashed listed' mem') _ (hashed listed mem) (Prod.ext_iff.mp equal).2
  rwa [← Prod.ext key value]

end

def batchStore : Smt.Store (KeyValueMap × List (Write Bytes Bytes)) where
  toDB := batchdb
  content s key := (applyWrites s.1 s.2).get key
  contentSet s key value key' := by
    simp only [batchdb,applyWrites,List.foldl_append,List.foldl_cons,List.foldl_nil]
    rw [Diffdb.applyWriteGet]
    by_cases same : key' = key <;> simp [same,Diffdb.Write.key,Diffdb.Write.result]
  contentDel s key key' := by
    simp only [batchdb,applyWrites,List.foldl_append,List.foldl_cons,List.foldl_nil]
    rw [Diffdb.applyWriteGet]
    by_cases same : key' = key <;> simp [same,Diffdb.Write.key,Diffdb.Write.result]
  getSet _ _ _ _ _ := rfl
  getDel _ _ _ _ := rfl

def setWrites (sets : List (Bytes × Bytes)) : List (Write Bytes Bytes) := sets.map (fun e => .set e.1 e.2)

def treeSets (sha : Bytes → Bytes) (sets : List (Bytes × Bytes)) : List KeyValue :=
  sets.map (fun e => (treeKey sha e.1, sha e.2))

theorem treeWritesSets (valid : ∀ e ∈ sets, StateKey e.1) : treeWrites sha (setWrites sets) = some (treeSets sha sets) := by
  induction sets with
  | nil => rfl
  | cons e rest ih =>
    have others := ih (fun e mem => valid e (.tail _ mem))
    simp only [setWrites,treeSets] at others
    simp [setWrites,treeSets,treeWrites,treeWrite,getTreeKeyOf (valid e (.head _)),others]

theorem setsGet (distinct : (sets.map Prod.fst).Nodup) (state : OrderedMap Bytes Bytes) :
    (∀ e ∈ sets, (applyWrites state (setWrites sets)).get e.1 = some e.2) ∧
      ∀ k, k ∉ sets.map Prod.fst → (applyWrites state (setWrites sets)).get k = state.get k := by
  have keys : (setWrites sets).map Diffdb.Write.key = sets.map Prod.fst := by
    rw [setWrites,map_map]
    rfl
  constructor
  · intro e mem
    have put : Write.set e.1 e.2 ∈ setWrites sets := mem_map.mpr ⟨e,mem,rfl⟩
    exact Diffdb.applyWritesTouched put (by rw [keys]; exact distinct) state
  · intro k out
    refine Diffdb.applyWritesUntouched (fun w mem same => out ?_) state
    rw [← keys,← same]
    exact mem_map_of_mem mem

section
variable {states : List (OrderedMap Bytes Bytes)} (clean : Clean sha states) {state : OrderedMap Bytes Bytes}
  {sets : List (Bytes × Bytes)} (listed : state ∈ states) (listed' : applyWrites state (setWrites sets) ∈ states)
  (distinct : (sets.map Prod.fst).Nodup)
include clean listed listed' distinct

omit listed in
theorem setsValid : ∀ e ∈ sets, e ∈ (applyWrites state (setWrites sets)).entries ∧ StateKey e.1 := by
  intro e mem
  have inside := (memIffGet _ e.1 e.2).mpr ((setsGet distinct state).1 e mem)
  exact ⟨inside,clean.keys _ listed' e inside⟩

omit listed in
theorem treeSetsDistinct : ((treeSets sha sets).map Prod.fst).Nodup := by
  have inside := setsValid clean listed' distinct
  rw [treeSets,map_map,List.Nodup,pairwise_map]
  refine List.Pairwise.imp_of_mem (fun {a b} memberA memberB ne same => ?_) (pairwise_map.mp distinct)
  exact ne (clean.injective listed' listed' (inside a memberA).1 (inside b memberB).1 same)

theorem setsPerm : (written (treeSets sha sets) (stateEntries sha state)).Perm
    (stateEntries sha (applyWrites state (setWrites sets))) := by
  have inside := setsValid clean listed' distinct
  have treeDistinct := treeSetsDistinct clean listed' distinct
  have nodup : ((written (treeSets sha sets) (stateEntries sha state)).map Prod.fst).Nodup :=
    writtenDistinct (clean.distinct listed) (by rw [writesKeys]; exact treeDistinct)
  refine (perm_ext_iff_of_nodup (List.Nodup.of_map _ nodup) (List.Nodup.of_map _ (clean.distinct listed'))).mpr ?_
  rintro ⟨tk,tv⟩
  rw [memWritten]
  obtain ⟨touched,untouched⟩ := setsGet distinct state
  constructor
  · rintro (⟨old,out⟩ | ⟨new,_⟩)
    · obtain ⟨⟨k,v⟩,mem,same⟩ := mem_map.mp old
      cases same
      refine mem_map.mpr ⟨(k,v),(memIffGet _ k v).mpr ?_,rfl⟩
      rw [untouched k (fun fit => ?_)]
      · exact (memIffGet _ k v).mp mem
      · obtain ⟨e,set,rfl⟩ := mem_map.mp fit
        exact out (mem_map.mpr ⟨_,mem_map_of_mem set,rfl⟩)
    · obtain ⟨e,set,same⟩ := mem_map.mp new
      cases same
      exact mem_map.mpr ⟨e,(inside e set).1,rfl⟩
  · intro mem
    obtain ⟨⟨k,v⟩,held,same⟩ := mem_map.mp mem
    cases same
    by_cases fit : k ∈ sets.map Prod.fst
    · obtain ⟨e,set,rfl⟩ := mem_map.mp fit
      have value : v = e.2 := by
        have hit := (memIffGet _ _ v).mp held
        rw [touched e set] at hit
        exact (Option.some.inj hit).symm
      subst value
      exact .inr ⟨mem_map_of_mem set,by rw [clean.size]; decide⟩
    · have old := (memIffGet _ k v).mp held
      rw [untouched k fit] at old
      refine .inl ⟨mem_map.mpr ⟨(k,v),(memIffGet _ k v).mpr old,rfl⟩,fun taken => fit ?_⟩
      obtain ⟨kv,new,same⟩ := mem_map.mp taken
      obtain ⟨e,set,rfl⟩ := mem_map.mp new
      have equal : e.1 = k := clean.injective listed' listed' (inside e set).1 held same
      rw [← equal]
      exact mem_map_of_mem set

theorem updateTreeSets (keeps : Keeps sha 8 (OrderedMap.get tree) (stateTree sha state)) :
    ∃ tree', updateTree sha tree (stateRoot sha state) (setWrites sets) =
        .ok (stateRoot sha (applyWrites state (setWrites sets)),tree') ∧
      Keeps sha 8 (OrderedMap.get tree') (stateTree sha (applyWrites state (setWrites sets))) := by
  have inside := setsValid clean listed' distinct
  have hashes : hashSize sha = 32 := clean.size []
  have rootLength : (stateRoot sha state).length ≠ 0 := by
    rw [clean.root listed,treeRootLength (by rw [hashes]; exact clean.size),hashes]
    decide
  have trie : newTrie sha (stateRoot sha state) stateTreeKeySize = ⟨stateRoot sha state,stateTreeKeySize,8⟩ := by
    rw [newTrie,if_neg rootLength]
  unfold updateTree
  rw [treeWritesSets (fun e mem => (inside e mem).2)]
  simp only [trie]
  by_cases empty : sets = []
  · subst empty
    exact ⟨tree,rfl,keeps⟩
  have sized := fun e mem => (clean.sized listed e mem).1
  have region := Region.whole (fun _ same => same) sized (clean.distinct listed)
    (fun kv mem => by
      obtain ⟨e,set,rfl⟩ := mem_map.mp mem
      exact treeKeyLength clean.size (inside e set).2)
    (treeSetsDistinct clean listed' distinct)
  have same : treeOf (8*stateTreeKeySize) 0 (written (treeSets sha sets) (stateEntries sha state)) =
      stateTree sha (applyWrites state (setWrites sets)) :=
    buildPerm region.writtenApart (setsPerm clean listed listed' distinct)
  have opened : (⟨stateRoot sha state,stateTreeKeySize,8⟩ : Trie).keyLength = stateTreeKeySize ∧
      (⟨stateRoot sha state,stateTreeKeySize,8⟩ : Trie).subtreeHeight = 8 := ⟨rfl,rfl⟩
  have stored : SizedTree sha stateTreeKeySize (treeOf (8*stateTreeKeySize) 0 (stateEntries sha state)) := by
    intro e mem
    rw [show hashSize sha = 32 from clean.size []]
    exact clean.sized listed e ((buildEntries (clean.apart listed)).mem_iff.mp mem)
  obtain ⟨s',updated,keeps'⟩ := updateWritten batchStore clean.hashing opened.1 opened.2 (shapeEight _)
    (by decide) region (by simpa [treeSets] using empty) (Clean.known listed) (by rw [same]; exact Clean.known listed')
    stored (clean.root listed) (s := (tree,[])) keeps keeps.below
  rw [same] at updated keeps'
  have run : Trie.update sha batchdb ⟨stateRoot sha state,stateTreeKeySize,8⟩ (tree,[])
      ((treeSets sha sets).map Prod.fst) ((treeSets sha sets).map Prod.snd) = _ := updated
  exact ⟨applyWrites s'.1 s'.2,by rw [run,clean.root listed'],keeps'⟩

end

end LiskEngine.Framework
