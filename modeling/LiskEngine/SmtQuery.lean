import LiskEngine.SmtRoundTrip

/-! The answers of a trie one by one. A query names the tip that its key leads to in
the tree of the map, its bits tell which subtrees beside the way are not empty, and
their hashes lead from the hash of the tip back to the root. -/
namespace LiskEngine.Smt
open List SparseTree

def Trie.queryProof (sha : Bytes → Bytes) {σ : Type} (db : DB σ) (t : Trie) (s : σ) (queryKey : Bytes) : Except SmtError QueryProof := do
  let root ← getSubtree sha db t s t.root
  generateQueryProof sha db t s queryKey (2 * t.keyLength + 1) 0 root

section
variable (sha : Bytes → Bytes)

def foldUp : List Bool → List Bool → List Bytes → Bytes → Option Bytes
  | [], [], [], hash => some hash
  | true :: bits, right :: steps, siblingHash :: siblingHashes, hash =>
    foldUp bits steps siblingHashes (sha (branchData right hash siblingHash))
  | false :: bits, right :: steps, siblingHashes, hash =>
    foldUp bits steps siblingHashes (sha (branchData right hash (emptyHash sha)))
  | _, _, _, _ => none

def tipHash (query : QueryProof) : Bytes := if query.value = [] then emptyHash sha else leafHash sha query.key query.value

structure QueryRight (keyLength : Nat) (m : KeyValueMap) (key root : Bytes) (query : QueryProof) : Prop where
  present : ∀ value, m.get key = some value → query.key = key ∧ query.value = value
  absent : m.get key = none →
    (query.key = key ∧ query.value = []) ∨ (query.key ≠ key ∧ m.get query.key = some query.value)
  within : query.height ≤ 8 * keyLength
  ends : (mapTree keyLength m).subtreeAt ((toBools key).take query.height) =
    some (if query.value = [] then .empty else .leaf query.key query.value)
  agrees : query.key.length = keyLength ∧ (toBools query.key).take query.height = (toBools key).take query.height
  bits : ∀ i < query.height, ∃ x, (mapTree keyLength m).subtreeAt (sibling ((toBools key).take (query.height - i))) = some x ∧
    query.binaryBitmap[i]? = some (decide (x ≠ .empty))
  first : query.binaryBitmap = [] ∨ query.binaryBitmap.head? = some true
  folds : foldUp sha query.binaryBitmap ((toBools key).take query.height).reverse query.siblingHashes.reverse (tipHash sha query) =
    some root

end

variable {sha : Bytes → Bytes}

theorem siblingBits {t x path} (hit : t.subtreeAt path = some x) :
    ∀ i < path.length, ∃ y, t.subtreeAt (sibling (path.take (path.length-i))) = some y ∧
      (pathHashes sha t path).binaryBitmap[i]? = some (decide (y ≠ .empty)) := by
  induction path using reverseRecOn generalizing x with
  | nil => simp
  | append_singleton p b ih =>
    intro i inside
    obtain ⟨l,r,parent,_,other,_⟩ := subtreeAtParent hit
    have beside : besideEnd t (p ++ [b]) = (if b then l else r) := by rw [besideEnd,siblingConcat,other]; rfl
    rw [(pathHashesUp hit).1,beside]
    cases i with
    | zero =>
      refine ⟨_,?_,rfl⟩
      rw [Nat.sub_zero,take_length,siblingConcat]
      exact other
    | succ i =>
      rw [length_append,length_singleton] at inside ⊢
      obtain ⟨y,place,bit⟩ := ih parent i (by omega)
      refine ⟨y,?_,bit⟩
      rw [show p.length+1-(i+1) = p.length-i by omega,take_append_of_le_length (by omega)]
      exact place

theorem foldUpPath (hit : t.subtreeAt path = some x) :
    foldUp sha (pathHashes sha t path).binaryBitmap path.reverse (pathHashes sha t path).siblingHashes.reverse (treeRoot sha x) =
      some (treeRoot sha t) := by
  induction path using reverseRecOn generalizing x with
  | nil =>
    rw [subtreeAtNil] at hit
    cases hit
    cases t <;> rfl
  | append_singleton p b ih =>
    obtain ⟨l,r,parent,rfl,beside⟩ := besideParent hit
    obtain ⟨bits,hashes⟩ := @pathHashesUp sha _ _ _ _ hit
    have up := ih parent
    have branch : sha (branchData b (treeRoot sha (if b then r else l)) (treeRoot sha (if b then l else r))) =
        treeRoot sha (.node l r) := by cases b <;> rfl
    rw [bits,hashes,beside,reverse_append,reverse_singleton,reverse_append,← up,← branch]
    by_cases isEmpty : (if b then l else r) = .empty
    · simp only [isEmpty,ne_eq,not_true,decide_false,if_false,reverse_nil,nil_append,singleton_append]
      rfl
    · simp only [isEmpty,ne_eq,not_false_iff,decide_true,if_true,reverse_singleton,singleton_append]
      rfl

section
variable {len : Nat} {m : KeyValueMap} (sized : SizedMap len 32 m)
include sized

theorem answerNames (key : Bytes) :
    (queryTip len m key = .empty ∧ (queryAnswer sha len m key).key = key ∧ (queryAnswer sha len m key).value = []) ∨
    (queryTip len m key = .leaf (queryAnswer sha len m key).key (queryAnswer sha len m key).value ∧
      (queryAnswer sha len m key).value ≠ []) := by
  have hit := @queryFound len m key
  rw [queryAnswer,answer,← queryTip]
  cases tip : queryTip len m key with
  | empty => exact .inl ⟨rfl,rfl,rfl⟩
  | node l r => exact absurd tip (queryTipEnds key l r)
  | leaf k v =>
    rw [tip] at hit
    obtain ⟨_,filled,_⟩ := leafSized sized hit
    refine .inr ⟨rfl,?_⟩
    rintro none
    have size := congrArg length (show v = [] from none)
    rw [filled] at size
    cases size

theorem answerTipHash (key : Bytes) : tipHash sha (queryAnswer sha len m key) = treeRoot sha (queryTip len m key) := by
  rcases @answerNames sha len m sized key with ⟨tip,_,value⟩ | ⟨tip,value⟩
  · rw [tipHash,if_pos value,tip]
    rfl
  · rw [tipHash,if_neg value,tip]
    rfl

variable {key : Bytes} (length : key.length = len)
include length

theorem answerQueryRight : QueryRight sha len m key (treeRoot sha (mapTree len m)) (queryAnswer sha len m key) := by
  have keys : ∀ e ∈ m.entries, e.1.length = len := fun e mem => (sized e mem).1
  have hit := @queryFound len m key
  have own : SparseTree.OnPath keyBit 0 (queryPath len m key) key := wayOnPath key _ _ _
  have short : (queryPath len m key).length ≤ 8*len := wayLength key _ _ _
  obtain ⟨sizedKey,along⟩ := @answerKey sha len m sized _ length
  obtain ⟨valid,path⟩ := @answerPath sha len m sized _ length
  have height : (queryAnswer sha len m key).height = (queryPath len m key).length := by
    rw [← path,QueryProof.pathLength valid]
  have steps : (toBools key).take (queryPath len m key).length = queryPath len m key :=
    takeOnPath own (by rw [length]; omega)
  have names := @answerNames sha len m sized key
  have answers := answerAt keys hit own
  refine ⟨fun value got => ?_,fun absent => ?_,?_,?_,⟨sizedKey,?_⟩,fun i inside => ?_,?_,?_⟩
  · have mem := (answers value).mp got
    rcases names with ⟨tip,_⟩ | ⟨tip,_⟩
    · rw [tip] at mem
      cases mem
    · rw [tip] at mem
      have one := mem_singleton.mp mem
      exact ⟨(congrArg Prod.fst one).symm,(congrArg Prod.snd one).symm⟩
  · rcases names with ⟨_,same,value⟩ | ⟨tip,_⟩
    · exact .inl ⟨same,value⟩
    have got := (answerAt keys hit along _).mpr (by rw [tip]; exact mem_singleton.mpr rfl)
    refine .inr ⟨fun same => ?_,got⟩
    rw [same,absent] at got
    cases got
  · rw [height]
    exact short
  · rw [height,steps,hit]
    rcases names with ⟨tip,_,value⟩ | ⟨tip,value⟩
    · rw [tip,if_pos value]
    · rw [if_neg value,← tip]
  · rw [height,steps]
    exact takeOnPath along (by rw [sizedKey]; omega)
  · rw [height] at inside ⊢
    obtain ⟨x,place,bit⟩ := @siblingBits sha _ _ _ hit i inside
    have part := congrArg (take ((queryPath len m key).length-i)) steps
    rw [take_take,min_eq_left (Nat.sub_le _ _)] at part
    rw [part,(answerHashes key).1]
    exact ⟨x,place,bit⟩
  · have first := @answerFirst sha len m key
    cases bitmap : (queryAnswer sha len m key).binaryBitmap with
    | nil => exact .inl rfl
    | cons bit rest =>
      rw [bitmap] at first
      cases bit with
      | false => exact absurd rfl first
      | true => exact .inr rfl
  · rw [height,steps,(answerHashes key).1,(answerHashes key).2,answerTipHash sized]
    exact foldUpPath hit

end

theorem emptyKeyUnanswered {σ : Type} (db : DB σ) (t : Trie) (s : σ) (query : QueryProof) : t.queryProof sha db s [] ≠ .ok query := by
  intro made
  obtain ⟨root,_,made⟩ := bindOk made
  rw [generateQueryProof] at made
  split at made
  · cases made
  obtain ⟨binIndex,bin,_⟩ := bindOk made
  unfold getBinIndex at bin
  split at bin
  · cases bin
  · split at bin <;> cases bin

theorem queryAnswered (sha : Bytes → Bytes) (keyLength : Nat) (calls : List (List KeyValue)) (key : Bytes)
    (size : ∀ data, (sha data).length = 32)
    (sized : ∀ call ∈ calls, ∀ kv ∈ call, kv.1.length = keyLength ∧ (kv.2.length = 32 ∨ kv.2 = []))
    (free : CollisionFree sha (hashedBy sha ((mapsAlong OrderedMap.empty (calls.map (uniqueKeys []))).map (mapTree keyLength))))
    (length : key.length = keyLength) :
    (1 ≤ keyLength → ∃ s t query, runUpdates sha idealStore.toDB OrderedMap.empty (newTrie sha [] keyLength) calls = .ok (s, t) ∧
      t.queryProof sha idealStore.toDB s key = .ok query) ∧
    ∀ s t query, runUpdates sha idealStore.toDB OrderedMap.empty (newTrie sha [] keyLength) calls = .ok (s, t) →
      t.queryProof sha idealStore.toDB s key = .ok query → QueryRight sha keyLength (mapAfter calls) key t.root query := by
  by_cases positive : 1 ≤ keyLength
  · obtain ⟨sizedMap,S,hashing,known,s,run,keeps⟩ := updatesReach positive size sized free
    obtain ⟨found,made⟩ := rootAnswers sizedMap hashing known positive size keeps
    have query : Trie.queryProof sha idealStore.toDB ⟨treeRoot sha (mapTree keyLength (mapAfter calls)),keyLength,8⟩ s key =
        .ok (queryAnswer sha keyLength (mapAfter calls) key) := by
      rw [Trie.queryProof,found]
      exact made key length
    refine ⟨fun _ => ⟨s,_,_,run,query⟩,fun s' t answer run' query' => ?_⟩
    cases run.symm.trans run'
    cases query.symm.trans query'
    exact answerQueryRight sizedMap length
  · obtain rfl : key = [] := length_eq_zero_iff.mp (by omega)
    exact ⟨fun present => absurd present positive,fun s t query _ made => absurd made (emptyKeyUnanswered _ t s query)⟩

theorem queryAnsweredSample : ∃ s t query,
    runUpdates sampleSha idealStore.toDB OrderedMap.empty (newTrie sampleSha [] 1) threeKeys = .ok (s, t) ∧
    t.queryProof sampleSha idealStore.toDB s [192] = .ok query ∧
    QueryRight sampleSha 1 (mapAfter threeKeys) [192] t.root query := by
  obtain ⟨returns,right⟩ := queryAnswered sampleSha 1 threeKeys [192] sampleShaLength (by decide +kernel) (by decide +kernel) rfl
  obtain ⟨s,t,query,run,made⟩ := returns (le_refl 1)
  exact ⟨s,t,query,run,made,right s t query run made⟩

end LiskEngine.Smt
