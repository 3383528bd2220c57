import LiskEngine.SmtProof
import LiskEngine.StateCommit

/-! What later calls of a trie look up is there: the root and, below a subtree that was found,
every stub in it. -/
namespace LiskEngine.Smt
open List OrderedMap SparseTree Except
open Diffdb (Write applyWrites)
open Framework (batchdb batchStore)

inductive Resolves (lookup : Bytes → Except SmtError SubTree) : Bytes → Prop where
  | subtree {hash : Bytes} {found : SubTree} (read : lookup hash = .ok found) (root : found.root = hash)
      (stubs : ∀ h, .stub h ∈ found.nodes → Resolves lookup h) : Resolves lookup hash

variable {sha : Bytes → Bytes} {len : Nat} {S : Tree → Prop} {σ : Type} {store : Store σ}

theorem storedNodes (t : Tree) : (stored sha 8 t).nodes = (cut sha 8 t).leaves := LeafTree.listedLeaves _ _

section
variable (hashing : Hashing sha S) {trie : Trie} (length : trie.keyLength = len) {s : σ}
include hashing length

theorem heldResolves {t} (known : S t) (sized : SizedTree sha len t) {j} (held : Held sha 8 (store.get s) j t) :
    ∀ h, .stub h ∈ (cut sha j t).leaves → Resolves (getSubtree sha store.toDB trie s) h := by
  induction t generalizing j with
  | empty | leaf key value => simp [LeafTree.leaves]
  | node l r ihl ihr =>
    have knownLeft : S l := hashing.down _ _ known (.tail _ (mem_append_left _ (selfSubtree l)))
    have knownRight : S r := hashing.down _ _ known (.tail _ (mem_append_right _ (selfSubtree r)))
    have sizedLeft : SizedTree sha len l := fun e mem => sized e (mem_append_left _ mem)
    have sizedRight : SizedTree sha len r := fun e mem => sized e (mem_append_right _ mem)
    cases j with
    | zero =>
      intro h mem
      obtain ⟨entry,left,right⟩ := held
      cases mem_singleton.mp mem
      refine .subtree (getSubtreeHeld hashing (le_refl 8) length known sized (fun _ => entry)) (storedRoot _ _) (fun h listed => ?_)
      rw [storedNodes] at listed
      rcases mem_append.mp listed with inLeft | inRight
      · exact ihl knownLeft sizedLeft left h inLeft
      · exact ihr knownRight sizedRight right h inRight
    | succ j =>
      intro h mem
      rcases mem_append.mp mem with inLeft | inRight
      · exact ihl knownLeft sizedLeft held.1 h inLeft
      · exact ihr knownRight sizedRight held.2 h inRight

theorem keepsResolves {t} (known : S t) (sized : SizedTree sha len t) (keeps : Keeps sha 8 (store.get s) t) :
    Resolves (getSubtree sha store.toDB trie s) (treeRoot sha t) := by
  refine .subtree (getSubtreeHeld hashing (le_refl 8) length known sized keeps.entry) (storedRoot 8 t) (fun h listed => ?_)
  rw [storedNodes] at listed
  exact heldResolves hashing length known sized keeps.below h listed

end

def Found {α : Type} (x : Except SmtError α) : Prop := ∀ h, x ≠ .error (.subtreeNotFound h)

theorem foundOk {α : Type} (a : α) : Found (.ok a : Except SmtError α) := fun _ same => by cases same

theorem foundBind {α β : Type} {x} {f : α → Except SmtError β} (first : Found x) (next : ∀ a, x = .ok a → Found (f a)) :
    Found (x >>= f) := by
  cases x with
  | error e => exact fun h same => first h (congrArg error (error.inj same))
  | ok a => exact next a rfl

theorem foundMapM {α β : Type} {f : α → Except SmtError β} (each : ∀ a, Found (f a)) (l : List α) : Found (l.mapM f) := by
  induction l with
  | nil => exact foundOk _
  | cons a rest ih =>
    rw [mapM_cons]
    exact foundBind (each a) (fun _ _ => foundBind ih (fun _ _ => foundOk _))

theorem foundIndex {α : Type} (vs : List α) (i : Nat) : Found (index vs i) := by
  unfold index
  split <;> simp [Found]

theorem foundBinIndex (t : Trie) (key : Bytes) (height b : Nat) : Found (getBinIndex t key height b) := by
  unfold getBinIndex
  split
  · split
    · exact foundBind (foundIndex _ _) (fun _ _ => foundOk _)
    · split
      · exact foundBind (foundIndex _ _) (fun _ _ => foundOk _)
      · simp [Found]
  · split
    · exact foundBind (foundIndex _ _) (fun _ _ => foundOk _)
    · simp [Found]

theorem foundSelect (subtreeHeight binIndex : Nat) (i offset : Nat) (nodes : List Node) (struct : List Nat) :
    Found (selectNode subtreeHeight binIndex i offset nodes struct) := by
  induction nodes generalizing i offset struct with
  | nil => simp [selectNode,Found]
  | cons n ns ih =>
    cases struct with
    | nil => simp [selectNode,Found]
    | cons s ss =>
      rw [selectNode]
      generalize (if subtreeHeight < s then 0 else 2^(subtreeHeight-s)) = width
      split
      · exact foundOk _
      · exact foundBind (ih _ _ ss) (fun _ _ => foundOk _)

theorem selectMember {subtreeHeight binIndex i offset nodes struct n place height}
    (sel : selectNode subtreeHeight binIndex i offset nodes struct = .ok (some (n,place,height))) : n ∈ nodes := by
  induction nodes generalizing i offset struct n place height with
  | nil => simp [selectNode] at sel
  | cons first ns ih =>
    cases struct with
    | nil => simp [selectNode] at sel
    | cons s ss =>
      rw [selectNode] at sel
      generalize (if subtreeHeight < s then 0 else 2^(subtreeHeight-s)) = width at sel
      split at sel
      · cases sel
        exact .head _
      obtain ⟨later,hit,same⟩ := bindOk sel
      cases later with
      | none =>
        cases same
        exact .head _
      | some l =>
        cases same
        exact .tail _ (ih hit)

theorem foundQueryLevel (height maxIndex i tid : Nat) (nodes : List IndexedNode) (struct : List Nat) :
    Found (queryLevel sha height maxIndex i tid nodes struct) := by
  fun_induction queryLevel sha height maxIndex i tid nodes struct with
  | case1 => exact foundOk _
  | case2 | case3 => simp [Found]
  | case4 => exact foundOk _
  | case5 i tid n n' ns s ss ne ih => exact foundBind ih (fun _ _ => foundOk _)
  | case6 i tid n n' ns s ss same parent next hit followed ih => exact foundBind ih (fun _ _ => foundOk _)

theorem foundQueryHashes (height maxIndex tid : Nat) (nodes : List IndexedNode) (struct : List Nat) (hashes : QueryHashes) :
    Found (calculateQueryHashes sha height maxIndex tid nodes struct hashes) := by
  induction height generalizing maxIndex tid nodes struct hashes with
  | zero => exact foundOk _
  | succ height ih => exact foundBind (foundQueryLevel _ _ _ _ _ _) (fun _ _ => ih _ _ _ _ _)

theorem foundGenerate {t} {db : DB σ} {s} (key : Bytes) (fuel height : Nat) {cur}
    (stubs : ∀ h, .stub h ∈ cur.nodes → Resolves (getSubtree sha db t s) h) :
    Found (generateQueryProof sha db t s key fuel height cur) := by
  induction fuel generalizing height cur with
  | zero => simp [generateQueryProof,Found]
  | succ fuel ih =>
    rw [generateQueryProof]
    split
    · simp [Found]
    refine foundBind (foundBinIndex _ _ _ _) (fun bin _ => foundBind (foundSelect _ _ _ _ _ _) (fun sel chosen => ?_))
    cases sel with
    | none => simp [Found]
    | some choice =>
      obtain ⟨n,place,queryHeight⟩ := choice
      refine foundBind (foundQueryHashes _ _ _ _ _ _) (fun hashes _ => ?_)
      have listed := selectMember chosen
      cases n with
      | empty | leaf k v => exact foundOk _
      | temp =>
        have lower : getSubtree sha db t s (Node.temp.hash sha) = .ok (newEmptySubTree sha) := by simp [getSubtree,Node.hash]
        refine foundBind (foundOk _) (fun lower same => foundBind (ih _ ?_) (fun _ _ => foundOk _))
        cases same
        simp [newEmptySubTree]
      | stub h =>
        cases stubs h listed with
        | subtree read root below =>
          have read : getSubtree sha db t s (Node.hash sha (.stub h)) = _ := read
          simp only [read]
          refine foundBind (foundOk _) (fun lower same => foundBind (ih _ ?_) (fun _ _ => foundOk _))
          cases same
          exact below

theorem foundBinarySearch {α : Type} (less : α → Bool) (list : List α) (fuel low high : Nat) :
    Found (binarySearchLoop less list fuel low high) := by
  induction fuel generalizing low high with
  | zero =>
    rw [binarySearchLoop]
    split <;> simp [Found]
  | succ fuel ih =>
    rw [binarySearchLoop]
    split
    · refine foundBind (foundIndex _ _) (fun value _ => ?_)
      split <;> exact ih _ _
    · exact foundOk _

theorem foundPath (p : QueryProof) : Found p.binaryPath := by
  unfold QueryProof.binaryPath
  split <;> simp [Found]

theorem foundInsert (query : QueryProof) (qs : List QueryProof) : Found (insertAndFilterQueries query qs) := by
  unfold insertAndFilterQueries
  split
  · exact foundOk _
  refine foundBind (foundBinarySearch _ _ _ _ _) (fun i _ => ?_)
  split
  · exact foundOk _
  · refine foundBind (foundIndex _ _)
      (fun original _ => foundBind (foundPath _) (fun path _ => foundBind (foundPath _) (fun other _ => ?_)))
    split <;> exact foundOk _

theorem foundCollect (ancs sibs : List Bytes) (query : QueryProof) : Found (collectSibling ancs sibs query) := by
  refine foundBind (foundIndex _ _) (fun bit _ => ?_)
  split
  · split
    · simp [Found]
    · exact foundOk _
  · exact foundOk _

theorem foundSiblingLoop (ancs : List Bytes) (fuel : Nat) (sibs : List Bytes) (qs : List QueryProof) :
    Found (calculateSiblingHashesLoop ancs fuel sibs qs) := by
  induction fuel generalizing sibs qs with
  | zero => cases qs <;> simp [calculateSiblingHashesLoop,Found]
  | succ fuel ih =>
    cases qs with
    | nil => exact foundOk _
    | cons query rest =>
      rw [calculateSiblingHashesLoop]
      split
      · exact ih _ _
      · exact foundBind (foundCollect _ _ _) (fun _ _ => foundBind (foundInsert _ _) (fun _ _ => ih _ _))

theorem foundProve {t} {db : DB σ} {s} (resolves : Resolves (getSubtree sha db t s) t.root) (queryKeys : List Bytes) :
    Found (t.prove sha db s queryKeys) := by
  cases resolves with
  | subtree read root stubs =>
    unfold Trie.prove
    split
    · exact foundOk _
    simp only [read]
    refine foundBind (foundOk _) (fun hit same => ?_)
    cases same
    refine foundBind (foundMapM (fun key => foundGenerate key _ _ stubs) _) (fun proofs _ => ?_)
    exact foundBind (foundSiblingLoop _ _ _ _) (fun _ _ => foundOk _)

def writeBatch (s : KeyValueMap × List (Write Bytes Bytes)) : KeyValueMap × List (Write Bytes Bytes) := (applyWrites s.1 s.2, [])

theorem batchCommits : Commits batchStore writeBatch := ⟨fun _ => rfl,fun _ => rfl⟩

theorem runCommittedAppend (db : DB σ) (commit : σ → σ) (s : σ) (t : Trie) (calls later : List (List KeyValue)) :
    runCommitted sha db commit s t (calls ++ later) =
      runCommitted sha db commit s t calls >>= fun r => runCommitted sha db commit r.1 r.2 later := by
  induction calls generalizing s t with
  | nil => rfl
  | cons call rest ih =>
    rw [cons_append,runCommitted,runCommitted]
    cases t.update sha db s (call.map Prod.fst) (call.map Prod.snd) with
    | error e => rfl
    | ok r => exact ih (commit r.1) r.2

/-- A trie opened with the root that some calls left: every lookup finds its subtree, no proof misses one, and
the next update succeeds. -/
structure Reopened (sha : Bytes → Bytes) (db : DB σ) (keyLength : Nat) (calls : List (List KeyValue)) (s : σ) (root : Bytes) : Prop where
  resolves : Resolves (getSubtree sha db (newTrie sha root keyLength) s) root
  proves : ∀ queryKeys h, (newTrie sha root keyLength).prove sha db s queryKeys ≠ .error (.subtreeNotFound h)
  updates : ∀ call, Batch keyLength 32 call →
    CollisionFree sha (hashedBy sha ((mapsAlong OrderedMap.empty (calls ++ [call])).map (mapTree keyLength))) →
    ∃ s' t', (newTrie sha root keyLength).update sha db s (call.map Prod.fst) (call.map Prod.snd) = .ok (s', t')

theorem runReopens (pos : 1 ≤ len) (size : ∀ data, (sha data).length = 32) {calls}
    (batches : ∀ call ∈ calls, Batch len 32 call)
    (free : CollisionFree sha (hashedBy sha ((mapsAlong OrderedMap.empty calls).map (mapTree len)))) {commit}
    (commits : Commits store commit) (s : σ) :
    ∃ s' t, runCommitted sha store.toDB commit s (newTrie sha [] len) calls = .ok (s',t) ∧
      Reopened sha store.toDB len calls s' t.root := by
  have hashes : hashSize sha = 32 := size []
  obtain ⟨s',run,keeps,_⟩ := runFromEmpty pos size batches free commits s
  have hashing := alongHashing size batches free
  have sized := alongSized batches _ (resultAlong empty calls)
  have known : Known ((mapsAlong empty calls).map (mapTree len)) (mapTree len (resultMap empty calls)) :=
    Or.inr ⟨_,mem_map_of_mem (resultAlong empty calls),selfSubtree _⟩
  have es : SizedTree sha len (mapTree len (resultMap empty calls)) := by
    intro e mem
    rw [hashes]
    exact sized e ((mapTreeEntries (fun e inside => (sized e inside).1)).mem_iff.mp mem)
  generalize mapTree len (resultMap empty calls) = tree at run keeps known es
  have opened : newTrie sha (treeRoot sha tree) len = ⟨treeRoot sha tree,len,8⟩ := by
    rw [newTrie,if_neg (by rw [treeRootLength hashing.size,hashes]; decide)]
  have resolves : Resolves (getSubtree sha store.toDB ⟨treeRoot sha tree,len,8⟩ s') (treeRoot sha tree) :=
    keepsResolves hashing rfl known es keeps
  refine ⟨s',_,run,by rw [opened]; exact resolves,by rw [opened]; exact foundProve resolves,fun call batch later => ?_⟩
  have batches' : ∀ c ∈ calls ++ [call], Batch len 32 c :=
    forall_mem_append.mpr ⟨batches,forall_mem_singleton.mpr batch⟩
  obtain ⟨_,longer,_⟩ := runFromEmpty pos size batches' later commits s
  rw [runCommittedAppend,run] at longer
  have longer : runCommitted sha store.toDB commit s' ⟨treeRoot sha tree,len,8⟩ [call] = _ := longer
  obtain ⟨⟨s1,t1⟩,step,_⟩ := bindOk longer
  exact ⟨s1,t1,by rw [opened]; exact step⟩

theorem subtreesResolve (sha : Bytes → Bytes) (keyLength : Nat) (calls : List (List KeyValue)) (positive : 1 ≤ keyLength)
    (size : ∀ data, (sha data).length = 32) (batches : ∀ call ∈ calls, Batch keyLength 32 call)
    (free : CollisionFree sha (hashedBy sha ((mapsAlong OrderedMap.empty calls).map (mapTree keyLength)))) :
    (∃ s t, runUpdates sha idealStore.toDB OrderedMap.empty (newTrie sha [] keyLength) calls = .ok (s, t) ∧
      Reopened sha idealStore.toDB keyLength calls s t.root) ∧
    ∃ s t, runCommitted sha batchdb writeBatch (OrderedMap.empty, []) (newTrie sha [] keyLength) calls = .ok (s, t) ∧
      Reopened sha batchdb keyLength calls s t.root := by
  refine ⟨?_,runReopens positive size batches free batchCommits _⟩
  rw [← runCommittedId]
  exact runReopens positive size batches free idealCommits _

theorem subtreesResolveSample :
    (∃ s t, runUpdates sampleSha idealStore.toDB OrderedMap.empty (newTrie sampleSha [] 2) sampleCalls = .ok (s, t) ∧
      Reopened sampleSha idealStore.toDB 2 sampleCalls s t.root) ∧
    ∃ s t, runCommitted sampleSha batchdb writeBatch (OrderedMap.empty, []) (newTrie sampleSha [] 2) sampleCalls = .ok (s, t) ∧
      Reopened sampleSha batchdb 2 sampleCalls s t.root :=
  subtreesResolve sampleSha 2 sampleCalls (by decide) sampleShaLength sampleBatches (by decide +kernel)

end LiskEngine.Smt
