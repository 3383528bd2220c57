import LiskEngine.BlockCache

/-! The cache after a restart, filled again from the database. -/
namespace LiskEngine.Blockchain
open List Option

inductive RestartError where
  | blockNotFound (height : Nat)
  | cache (e : ChainError)
  deriving DecidableEq, Repr

namespace CachedChain

/-- A fresh process over the same database. -/
def restarted (c : CachedChain) (maxBlockCache : Nat) : CachedChain := {c with cache := BlockCache.newBlockCache maxBlockCache}

def loadBlock (c : CachedChain) (h : Nat) : Except RestartError Block :=
  match c.getBlockByHeight h with
  | none => .error (.blockNotFound h)
  | some block => .ok block

def getBlocksBetweenHeight (c : CachedChain) (start stop : Nat) : Except RestartError (List Block) := do
  let blocks ← (range' start (stop - start + 1)).mapM c.loadBlock
  .ok (blocks.insertionSort (fun a b => a.header.height ≤ b.header.height))

def olderBlocks (c : CachedChain) (height : Nat) : Except RestartError (List Block) :=
  if height > 0 then c.getBlocksBetweenHeight (height - c.cache.maxSize) (height - 1) else .ok []

def cacheBlocks (c : CachedChain) (blocks : List Block) : Except RestartError CachedChain :=
  match blocks.foldlM BlockCache.push c.cache with
  | .error e => .error (.cache e)
  | .ok cache => .ok {c with cache := cache}

def prepareCache (c : CachedChain) : Except RestartError CachedChain :=
  match c.database.lastBlock with
  | none => .ok c
  | some lastBlock =>
    if lastBlock.header.height = 0 ∧ (c.cache.getByHeight 0).isSome then .ok c
    else do
      let blocks ← c.olderBlocks lastBlock.header.height
      c.cacheBlocks (blocks ++ [lastBlock])

end CachedChain

theorem pushAll {maxSize tip} {window : List (Block × List Event)} (pos : 1 ≤ maxSize) (ids : (window.map entryID).Nodup)
    (consec : Consecutive window tip) (small : tip < 4294967296) :
    ∃ cache, (window.map Prod.fst).reverse.foldlM BlockCache.push (BlockCache.newBlockCache maxSize) = .ok cache ∧
      cache.maxSize = maxSize ∧ Cached cache (window.take maxSize) (if window = [] then 0 else tip) := by
  induction window generalizing tip with
  | nil => exact ⟨_,rfl,rfl,by rw [take_nil]; exact ⟨fun _ => rfl,fun _ => rfl,rfl,rfl⟩⟩
  | cons e rest ih =>
    obtain ⟨_,others⟩ := nodup_cons.mp ids
    obtain ⟨cache,pushed,same,cached⟩ := ih others consec.tail (by omega)
    have top : entryHeight e = tip := consec 0 e rfl
    have before : rest ≠ [] → tip-1+1 = tip := by
      intro many
      obtain ⟨e',rest',rfl⟩ := exists_cons_of_ne_nil many
      have := consec 1 e' rfl
      omega
    obtain ⟨cache',pushed',same',cached'⟩ := cachedPush (e := e) cached (others.sublist ((take_sublist _ _).map _))
      (by
        split
        · rename_i absent
          rw [absent,take_nil]
          exact nofun
        · exact consec.tail.take _)
      (fun found => by
        have many : rest ≠ [] := fun absent => found (by rw [absent,take_nil])
        rw [if_neg many,before many]
        exact top)
      (by split <;> omega) (same ▸ pos) (by rw [same]; exact length_take_le _ _)
    refine ⟨cache',?_,same'.trans same,?_⟩
    · rw [map_cons,reverse_cons,foldlM_append,pushed]
      exact (bind_pure _).trans pushed'
    · have window : (e::rest.take maxSize).take maxSize = (e::rest).take maxSize := by
        cases maxSize <;> simp [take_take]
      rw [same,window] at cached'
      rwa [if_neg (by simp),← top]

theorem Consecutive.ascending {window tip} (consec : Consecutive window tip) :
    (window.map Prod.fst).reverse.Pairwise (fun a b => a.header.height ≤ b.header.height) := by
  rw [pairwise_reverse,pairwise_map,pairwise_iff_getElem]
  intro i j first second less
  have upper := consec i _ (getElem?_eq_getElem first)
  have lower := consec j _ (getElem?_eq_getElem second)
  simp only [entryHeight] at upper lower
  omega

section
variable {c : CachedChain} {l : Listed} {tip highest : Nat} (serving : Serving c l tip highest)
include serving

theorem Serving.loaded (maxSize height : Nat) : (c.restarted maxSize).loadBlock height =
    match (l.byHeight height).map Prod.fst with
    | none => .error (.blockNotFound height)
    | some block => .ok block := by
  rw [← serving.blockByHeight]
  rfl

theorem Serving.blocksBetween (maxSize : Nat) {n k start : Nat} (ends : start+n+k = tip+1) (fits : n+k ≤ l.blocks.length) :
    (range' start n).mapM (c.restarted maxSize).loadBlock = .ok (((l.blocks.drop k).take n).map Prod.fst).reverse := by
  induction n generalizing k with
  | zero => rfl
  | succ n ih =>
    have inside : k < l.blocks.length := by omega
    have height := serving.consecutive k _ (getElem?_eq_getElem inside)
    have hit : l.byHeight (start+n) = some l.blocks[k] := by
      rw [Listed.byHeight,show start+n = entryHeight l.blocks[k] by omega]
      exact findOwn serving.consecutive.distinct (getElem_mem inside)
    rw [range'_concat,mapM_append,ih (show start+n+(k+1) = tip+1 by omega) (by omega),one_mul,mapM_cons,mapM_nil,
      serving.loaded,hit,drop_eq_getElem_cons inside,take_succ_cons,map_cons,reverse_cons]
    rfl

theorem Serving.below {height} (low : height < c.genesisHeight) : l.byHeight height = none := by
  rw [Listed.byHeight,find?_eq_none]
  intro e mem
  obtain ⟨i,inside,rfl⟩ := mem_iff_getElem.mp mem
  have own := serving.consecutive i _ (getElem?_eq_getElem inside)
  have len := serving.length
  simp only [entryHeight] at own
  simp only [decide_eq_true_eq]
  omega

theorem cacheRebuiltIff (small : tip + 1 < 2 ^ 32) (maxSize : Nat) (positive : 1 ≤ maxSize) :
    (∃ c', (c.restarted maxSize).prepareCache = .ok c' ∧
      c'.lastBlock = l.blocks.head?.map Prod.fst ∧ ∀ block events finalizedHeight removeTemp, block.header.height = tip + 1 →
        (c'.addBlock block events finalizedHeight removeTemp).1 = .ok ()) ↔
      c.genesisHeight = 0 ∨ c.genesisHeight + maxSize ≤ tip := by
  obtain ⟨e,rest,blocks,top⟩ := serving.top
  have length := serving.length
  have above := serving.above
  have last : (c.restarted maxSize).database.lastBlock = some e.1 := serving.lastBlock blocks
  have start : (c.restarted maxSize).prepareCache =
      (c.restarted maxSize).olderBlocks tip >>= fun blocks => (c.restarted maxSize).cacheBlocks (blocks ++ [e.1]) := by
    simp only [CachedChain.prepareCache,last,show e.1.header.height = tip from top]
    exact if_neg (by simp [CachedChain.restarted,BlockCache.newBlockCache,BlockCache.getByHeight,OrderedMap.getEmpty])
  constructor
  · rintro ⟨c',prepared,_⟩
    by_contra short
    rw [start,CachedChain.olderBlocks,if_pos (by omega),CachedChain.getBlocksBetweenHeight,range'_succ,mapM_cons,serving.loaded,
      show (c.restarted maxSize).cache.maxSize = maxSize from rfl,serving.below (by omega)] at prepared
    cases prepared
  · intro enough
    have listed : (c.restarted maxSize).olderBlocks tip =
        .ok ((rest.take (min tip maxSize)).map Prod.fst).reverse := by
      unfold CachedChain.olderBlocks
      split
      · have rounds : tip - 1 - (tip - maxSize) + 1 = min tip maxSize := by omega
        have loaded := serving.blocksBetween maxSize (show tip - maxSize + min tip maxSize + 1 = tip + 1 by omega) (by omega)
        rw [blocks,drop_succ_cons,drop_zero,← rounds] at loaded
        have sorted := ((blocks ▸ serving.consecutive : Consecutive (e :: rest) tip).tail.take (min tip maxSize)).ascending
        exact (congrArg (· >>= _) loaded).trans (congrArg Except.ok (rounds ▸ sorted.insertionSort_eq))
      · rw [show tip = 0 by omega]
        simp
    obtain ⟨cache,pushed,same,cached⟩ := @pushAll _ _ (e :: rest.take (min tip maxSize)) positive
      (serving.ids.sublist (by rw [blocks]; exact ((take_sublist _ _).cons_cons e).map _))
      (by rw [← take_succ_cons,← blocks]; exact serving.consecutive.take _) serving.small
    rw [map_cons,reverse_cons] at pushed
    rw [if_neg (by simp)] at cached
    have window : (e :: rest.take (min tip maxSize)).take maxSize = l.blocks.take (windowSize c.genesisHeight maxSize tip tip) := by
      rw [← take_succ_cons,← blocks,take_take,take_eq_take_iff,windowSize]
      omega
    rw [window] at cached
    have served : Serving {c with cache := cache} l tip tip :=
      {serving with reached := le_rfl, cached := by rw [same]; exact cached}
    have stored : (c.restarted maxSize).cacheBlocks (((rest.take (min tip maxSize)).map Prod.fst).reverse ++ [e.1]) =
        .ok {c with cache := cache} := by
      rw [CachedChain.cacheBlocks,show (c.restarted maxSize).cache = BlockCache.newBlockCache maxSize from rfl,pushed]
      rfl
    refine ⟨{c with cache := cache},by rw [start,listed]; exact stored,?_,fun block events _ _ next => ?_⟩
    · rw [served.last blocks,if_neg (by simp only [windowSize,same]; omega),blocks]
      rfl
    · obtain ⟨cache',pushed',_⟩ := cachedPush (e := (block, events)) cached (serving.ids.sublist ((take_sublist _ _).map _))
        (serving.consecutive.take _) (fun _ => next) (by omega) (same ▸ positive)
        (by rw [same,length_take,windowSize]; omega)
      simp only [CachedChain.addBlock,pushed']

end

theorem cacheRebuiltSample : ∃ c', ((((CachedChain.init 0 (-1) 2).addBlock (sampleBlockAt 0 1) [] 0 false).2.addBlock
      (sampleBlockAt 1 2) [] 0 false).2.restarted 1).prepareCache = .ok c' ∧ c'.lastBlock = some (sampleBlockAt 1 2) := by
  obtain ⟨_,_,serving⟩ := @servingGenesis (sampleBlockAt 0 1) [] 0 2 false (-1) (by decide) sampleRevertAdmitted.1
  obtain ⟨_,_,serving⟩ := servingAdd serving (by decide) (by decide) sampleRevertAdmitted.2.1
  obtain ⟨c',prepared,last,_⟩ := (cacheRebuiltIff serving (by decide) 1 (by decide)).mpr (.inl rfl)
  exact ⟨c',prepared,last⟩

theorem genesisNotRebuilt : let chain := ((CachedChain.init 5 (-1) 2).addBlock (sampleBlockAt 5 1) [] 5 false).2
    chain.lastBlock = some (sampleBlockAt 5 1) ∧ chain.database.lastBlock = some (sampleBlockAt 5 1) ∧
      (match (chain.restarted 2).prepareCache with | .ok _ => none | .error e => some e) = some (.blockNotFound 3) := by
  decide +kernel

end LiskEngine.Blockchain
