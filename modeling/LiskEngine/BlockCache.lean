import LiskEngine.BlockList

/-! The cache of the newest blocks in front of the database. It is a window of the chain
that ends at the tip and is never refilled at its lower end, so it serves the tip as long
as no revert is longer than the window. -/
namespace LiskEngine.Blockchain
open List Option

inductive ChainError where
  | cannotBeAdded (height currentHeight : Nat)
  | oldestMissing (oldestHeight : Nat)
  | genesisRemoved
  | nilBlock
  deriving DecidableEq, Repr

structure BlockCache where
  cachedBlocks : OrderedMap Bytes Block
  heightIndex : OrderedMap Nat Bytes
  size : Nat
  maxSize : Nat
  currentHeight : Nat

namespace BlockCache

def newBlockCache (maxSize : Nat) : BlockCache := ⟨OrderedMap.empty,OrderedMap.empty,0,maxSize,0⟩

def get (c : BlockCache) (id : Bytes) : Option Block := c.cachedBlocks.get id

def getByHeight (c : BlockCache) (height : Nat) : Option Block := (c.heightIndex.get height).bind c.cachedBlocks.get

def last (c : BlockCache) : Option Block := c.getByHeight c.currentHeight

/-- Heights are 32-bit numbers and wrap. -/
def oldestHeight (c : BlockCache) : Nat := u32 (c.currentHeight + 4294967296 - u32 c.maxSize + 1)

def evict (c : BlockCache) : Except ChainError BlockCache :=
  if c.size ≥ c.maxSize then
    match c.heightIndex.get c.oldestHeight with
    | none => .error (.oldestMissing c.oldestHeight)
    | some id => .ok {c with
        heightIndex := c.heightIndex.del c.oldestHeight
        cachedBlocks := c.cachedBlocks.del id
        size := c.size - 1}
  else .ok c

def push (c : BlockCache) (block : Block) : Except ChainError BlockCache :=
  if c.size ≠ 0 ∧ block.header.height ≠ u32 (c.currentHeight + 1) then
    .error (.cannotBeAdded block.header.height c.currentHeight)
  else do
    let c ← c.evict
    .ok {c with
      cachedBlocks := c.cachedBlocks.set block.header.id block
      heightIndex := c.heightIndex.set block.header.height block.header.id
      currentHeight := block.header.height
      size := c.size + 1}

/-- An ID that is missing in the index reads as the empty one. -/
def pop (c : BlockCache) : Option Block × BlockCache :=
  if c.size = 0 then (none, c)
  else
    let id := (c.heightIndex.get c.currentHeight).getD []
    (c.cachedBlocks.get id, {c with
      heightIndex := c.heightIndex.del c.currentHeight
      cachedBlocks := c.cachedBlocks.del id
      size := c.size - 1
      currentHeight := u32 (c.currentHeight + 4294967295)})

end BlockCache

namespace BlockDB

def getBlockHeaderByHeight (db : BlockDB) (height : Nat) : Option BlockHeader := (db.blockIDs.get height).bind db.blockHeaders.get

def lastBlock (db : BlockDB) : Option Block := db.blockIDs.entries.getLast?.bind (fun e => db.getBlock e.2)

end BlockDB

structure CachedChain where
  genesisHeight : Nat
  keepEventsForHeights : Int
  database : BlockDB
  cache : BlockCache

inductive ChainCall where
  | add (block : Block) (events : List Event) (finalizedHeight : Nat) (removeTemp : Bool)
  | remove (saveTemp : Bool)

namespace CachedChain

def init (genesisHeight : Nat) (keepEventsForHeights : Int) (maxBlockCache : Nat) : CachedChain :=
  ⟨genesisHeight,keepEventsForHeights,BlockDB.empty,BlockCache.newBlockCache maxBlockCache⟩

def lastBlock (c : CachedChain) : Option Block := c.cache.last

def getBlockHeader (c : CachedChain) (id : Bytes) : Option BlockHeader :=
  match c.cache.get id with
  | some cachedBlock => some cachedBlock.header
  | none => c.database.blockHeaders.get id

def getBlockHeaderByHeight (c : CachedChain) (height : Nat) : Option BlockHeader :=
  match c.cache.getByHeight height with
  | some cachedBlock => some cachedBlock.header
  | none => c.database.getBlockHeaderByHeight height

def getBlock (c : CachedChain) (id : Bytes) : Option Block :=
  match c.cache.get id with
  | some cachedBlock => some cachedBlock
  | none => c.database.getBlock id

def getBlockByHeight (c : CachedChain) (height : Nat) : Option Block :=
  match c.cache.getByHeight height with
  | some cachedBlock => some cachedBlock
  | none => c.database.getBlockByHeight height

/-- The database is written before the cache refuses the block. -/
def addBlock (c : CachedChain) (block : Block) (events : List Event) (finalizedHeight : Nat) (removeTemp : Bool) :
    Except ChainError Unit × CachedChain :=
  let database := c.database.saveBlock c.keepEventsForHeights block events finalizedHeight removeTemp
  match c.cache.push block with
  | .error e => (.error e, {c with database := database})
  | .ok cache => (.ok (), {c with database := database, cache := cache})

/-- A cache without a last block gives a nil pointer, which is dereferenced. -/
def removeBlock (c : CachedChain) (saveTemp : Bool) : Except ChainError Unit × CachedChain :=
  match c.lastBlock with
  | none => (.error .nilBlock, c)
  | some lastBlock =>
    if lastBlock.header.height = c.genesisHeight then (.error .genesisRemoved, c)
    else (.ok (), {c with database := c.database.removeBlock lastBlock saveTemp, cache := c.cache.pop.2})

def call (c : CachedChain) : ChainCall → Except ChainError Unit × CachedChain
  | .add block events finalizedHeight removeTemp => c.addBlock block events finalizedHeight removeTemp
  | .remove saveTemp => c.removeBlock saveTemp

structure Agrees (c : CachedChain) : Prop where
  last : c.lastBlock = c.database.lastBlock
  block : ∀ id, c.getBlock id = c.database.getBlock id
  blockByHeight : ∀ height, c.getBlockByHeight height = c.database.getBlockByHeight height
  header : ∀ id, c.getBlockHeader id = c.database.blockHeaders.get id
  headerByHeight : ∀ height, c.getBlockHeaderByHeight height = c.database.getBlockHeaderByHeight height

def Serves (c : CachedChain) : List ChainCall → Prop
  | [] => c.Agrees
  | call :: rest => c.Agrees ∧ (c.call call).1 = .ok () ∧ (c.call call).2.Serves rest

end CachedChain

def Listed.call (l : Listed) : ChainCall → Listed
  | .add block events _ removeTemp => l.save block events removeTemp
  | .remove saveTemp => match l.blocks with
    | [] => l
    | top :: _ => l.remove top.1 saveTemp

/-- A block at the next height that repeats no block ID and no transaction ID of the chain is added; the first block
stays. -/
def Listed.Admits (l : Listed) : ChainCall → Prop
  | .add block _ _ _ => (∀ top rest, l.blocks = top :: rest → block.header.height = top.1.header.height + 1) ∧
    block.header.height < 4294967296 ∧ block.header.id ∉ l.blocks.map (fun e => e.1.header.id) ∧
      ((block.transactions ++ l.transactions).map (·.id)).Nodup
  | .remove _ => ∃ top below rest, l.blocks = top :: below :: rest

def Listed.AdmitsRun : Listed → List ChainCall → Prop
  | _, [] => True
  | l, call :: rest => l.Admits call ∧ (l.call call).AdmitsRun rest

def WithinCache (maxSize : Nat) : Nat → Nat → List ChainCall → Prop
  | tip, highest, [] => highest < tip + maxSize
  | tip, highest, .add _ _ _ _ :: rest => highest < tip + maxSize ∧ WithinCache maxSize (tip + 1) (max highest (tip + 1)) rest
  | tip, highest, .remove _ :: rest => highest < tip + maxSize ∧ WithinCache maxSize (tip - 1) highest rest

section
variable {κ α γ : Type} [LinearOrder κ] [DecidableEq κ] {table : OrderedMap κ γ} {key : α → κ} {value : α → γ}
  {xs after : List α} {x : α}

def Lists (table : OrderedMap κ γ) (key : α → κ) (value : α → γ) (xs : List α) : Prop :=
  ∀ k, table.get k = (xs.find? (fun x => key x = k)).map value

theorem Lists.cons (listed : Lists table key value xs) (x : α) : Lists (table.set (key x) (value x)) key value (x::xs) :=
  setPart (Option.map value) listed (by rw [findHead]; rfl) (fun _ apart => findOther key x xs apart)

theorem Lists.erase (before : List α) (listed : Lists table key value (before ++ x::after))
    (nodup : ((before ++ x::after).map key).Nodup) : Lists (table.del (key x)) key value (before ++ after) := by
  refine delPart (Option.map value) listed ?_ (fun k apart => ?_)
  · rw [map_append,map_cons,nodup_middle] at nodup
    rw [findNone (by rw [map_append]; exact (nodup_cons.mp nodup).1)]
    rfl
  · rw [find?_append,find?_append,findOther key x after apart]

end

section
variable {cache : BlockCache} {window : List (Block × List Event)} {tip : Nat} {e : Block × List Event}

structure Cached (cache : BlockCache) (window : List (Block × List Event)) (tip : Nat) : Prop where
  blocks : Lists cache.cachedBlocks entryID Prod.fst window
  heights : Lists cache.heightIndex entryHeight entryID window
  size : cache.size = window.length
  current : cache.currentHeight = tip

section
variable (cached : Cached cache window tip) (ids : (window.map entryID).Nodup) (consecutive : Consecutive window tip)
include cached ids consecutive

theorem cachedEvict (small : tip+1 < 4294967296) (pos : 1 ≤ cache.maxSize) (fits : window.length ≤ cache.maxSize) :
    ∃ cache', cache.evict = .ok cache' ∧ cache'.maxSize = cache.maxSize ∧ Cached cache' (window.take (cache.maxSize-1)) tip := by
  unfold BlockCache.evict
  rw [cached.size]
  split
  · rename_i full
    obtain ⟨before,oldest,rfl⟩ := (eq_nil_or_concat' window).resolve_left
      (ne_nil_of_length_pos (by omega))
    have own := consecutive before.length oldest (by simp)
    rw [length_append,length_singleton] at fits full
    have oldestHeight : cache.oldestHeight = entryHeight oldest := by
      simp only [BlockCache.oldestHeight,cached.current,u32]
      omega
    have index : cache.heightIndex.get (entryHeight oldest) = some (entryID oldest) := by
      rw [cached.heights,findOwn consecutive.distinct (by simp)]
      rfl
    have rest : (before ++ [oldest]).take (cache.maxSize-1) = before := by
      rw [take_append_of_le_length (by omega),take_of_length_le (by omega)]
    rw [oldestHeight,index,rest]
    refine ⟨_,rfl,rfl,?_,?_,?_,cached.current⟩
    · simpa using Lists.erase before cached.blocks ids
    · simpa using Lists.erase before cached.heights consecutive.distinct
    · simp
  · rename_i room
    exact ⟨cache,rfl,rfl,by rwa [take_of_length_le (by omega)]⟩

theorem cachedPush (next : window ≠ [] → entryHeight e = tip+1) (small : tip+1 < 4294967296)
    (pos : 1 ≤ cache.maxSize) (fits : window.length ≤ cache.maxSize) :
    ∃ cache', cache.push e.1 = .ok cache' ∧ cache'.maxSize = cache.maxSize ∧
      Cached cache' ((e::window).take cache.maxSize) (entryHeight e) := by
  obtain ⟨cache',evicted,same,held⟩ := cachedEvict cached ids consecutive small pos fits
  have fit : ¬(cache.size ≠ 0 ∧ e.1.header.height ≠ u32 (cache.currentHeight+1)) := by
    rw [cached.size,cached.current]
    rintro ⟨found,other⟩
    have height : e.1.header.height = tip+1 := next (fun nil => found (by rw [nil]; rfl))
    rw [height,u32Small small] at other
    exact other rfl
  have rest : (e::window).take cache.maxSize = e::window.take (cache.maxSize-1) := by
    rw [← Nat.sub_add_cancel pos,take_succ_cons,Nat.add_sub_cancel]
  unfold BlockCache.push
  rw [if_neg fit,evicted,rest]
  refine ⟨_,rfl,same,held.blocks.cons e,held.heights.cons e,?_,rfl⟩
  rw [length_cons,← held.size]

end

theorem cachedPop (cached : Cached cache (e::window) tip) (ids : ((e::window).map entryID).Nodup)
    (consecutive : Consecutive (e::window) tip) (pos : 1 ≤ tip) (small : tip < 4294967296) :
    cache.pop.2.maxSize = cache.maxSize ∧ Cached cache.pop.2 window (tip-1) := by
  have top : entryHeight e = tip := consecutive 0 e rfl
  have index : cache.heightIndex.get tip = some (entryID e) := by
    rw [cached.heights,← top,findHead]
    rfl
  unfold BlockCache.pop
  rw [if_neg (by rw [cached.size]; simp),cached.current,index]
  refine ⟨rfl,?_,?_,?_,?_⟩
  · exact Lists.erase [] cached.blocks ids
  · rw [← top]
    exact Lists.erase [] cached.heights consecutive.distinct
  · simp [cached.size]
  · simp only [u32]
    omega

end

def windowSize (genesisHeight maxSize tip highest : Nat) : Nat := tip + 1 - max genesisHeight (highest + 1 - maxSize)

/-- The state of a run: the blocks on the chain, the tip and the highest block there was. Events may be pruned. -/
structure Serving (c : CachedChain) (l : Listed) (tip highest : Nat) : Prop where
  holds : ∃ events, Holds {c.database with events := events} l
  ids : (l.blocks.map entryID).Nodup
  transactions : (l.transactions.map (·.id)).Nodup
  consecutive : Consecutive l.blocks tip
  length : l.blocks.length + c.genesisHeight = tip + 1
  above : c.genesisHeight ≤ tip
  small : tip < 4294967296
  reached : tip ≤ highest
  cached : Cached c.cache (l.blocks.take (windowSize c.genesisHeight c.cache.maxSize tip highest)) tip

section
variable {c : CachedChain} {l : Listed} {tip highest : Nat}

section
variable (serving : Serving c l tip highest)
include serving

theorem Serving.distinct : l.Distinct := ⟨serving.ids,serving.consecutive.distinct,serving.transactions⟩

theorem Serving.top : ∃ e rest, l.blocks = e::rest ∧ entryHeight e = tip := by
  have len := serving.length
  have exceeds := serving.above
  obtain ⟨e,rest,blocks⟩ := exists_cons_of_length_pos (by omega : 0 < l.blocks.length)
  exact ⟨e,rest,blocks,serving.consecutive 0 e (by rw [blocks]; rfl)⟩

theorem Serving.block (id : Bytes) : c.database.getBlock id = (l.byID id).map Prod.fst := by
  obtain ⟨events,holds⟩ := serving.holds
  exact getBlockListed holds serving.distinct id

theorem Serving.blockByHeight (height : Nat) : c.database.getBlockByHeight height = (l.byHeight height).map Prod.fst := by
  obtain ⟨events,holds⟩ := serving.holds
  exact getBlockByHeightListed holds serving.distinct height

theorem Serving.header (id : Bytes) : c.database.blockHeaders.get id = (l.byID id).map (·.1.header) := by
  obtain ⟨events,holds⟩ := serving.holds
  exact holds.blockHeaders id

theorem Serving.blockID (height : Nat) : c.database.blockIDs.get height = (l.byHeight height).map entryID := by
  obtain ⟨events,holds⟩ := serving.holds
  exact holds.blockIDs height

theorem Serving.headerByHeight (height : Nat) : c.database.getBlockHeaderByHeight height = (l.byHeight height).map (·.1.header) := by
  unfold BlockDB.getBlockHeaderByHeight
  rw [serving.blockID]
  cases entry : l.byHeight height with
  | none => rfl
  | some e =>
    have own : l.byID (entryID e) = some e := findOwn serving.ids (mem_of_find?_eq_some entry)
    show c.database.blockHeaders.get (entryID e) = _
    rw [serving.header,own,map_some]

theorem Serving.lastBlock (blocks : l.blocks = e::rest) : c.database.lastBlock = some e.1 := by
  have top := serving.consecutive 0 e (by rw [blocks]; rfl)
  have held : c.database.blockIDs.get tip = some (entryID e) := by
    rw [serving.blockID,Listed.byHeight,blocks,← top]
    exact congrArg (Option.map entryID) (findHead entryHeight e rest)
  have greatest : ∀ height id, c.database.blockIDs.get height = some id → height ≤ tip := by
    intro height id hit
    rw [serving.blockID,map_eq_some_iff] at hit
    obtain ⟨e',entry,_⟩ := hit
    obtain ⟨i,at'⟩ := mem_iff_getElem?.mp (mem_of_find?_eq_some entry)
    have own : entryHeight e' = height := by simpa [entryHeight] using find?_some entry
    have := serving.consecutive i e' at'
    omega
  unfold BlockDB.lastBlock
  rw [OrderedMap.lastGreatest held greatest]
  show c.database.getBlock (entryID e) = _
  rw [serving.block,Listed.byID,blocks]
  exact congrArg (Option.map Prod.fst) (findHead entryID e rest)

theorem Serving.cacheGet {id} (hit : c.cache.get id = some b) : ∃ e, l.byID id = some e ∧ e.1 = b := by
  rw [BlockCache.get,serving.cached.blocks,map_eq_some_iff] at hit
  obtain ⟨e,entry,same⟩ := hit
  exact ⟨e,( take_prefix _ _).find?_eq_some entry,same⟩

theorem Serving.cacheByHeight (hit : c.cache.getByHeight height = some b) : ∃ e, l.byHeight height = some e ∧ e.1 = b := by
  rw [BlockCache.getByHeight,bind_eq_some_iff] at hit
  obtain ⟨id,index,block⟩ := hit
  rw [serving.cached.heights,map_eq_some_iff] at index
  obtain ⟨e,entry,rfl⟩ := index
  obtain ⟨e',other,same⟩ := serving.cacheGet block
  have own := findOwn serving.ids (mem_of_mem_take (mem_of_find?_eq_some entry))
  exact ⟨e,( take_prefix _ _).find?_eq_some entry,by rw [← same,← some.inj (own.symm.trans other)]⟩

theorem Serving.last (blocks : l.blocks = e::rest) :
    c.lastBlock = if windowSize c.genesisHeight c.cache.maxSize tip highest = 0 then none else some e.1 := by
  have top : entryHeight e = tip := serving.consecutive 0 e (by rw [blocks]; rfl)
  have cached := serving.cached
  rw [blocks] at cached
  unfold CachedChain.lastBlock BlockCache.last BlockCache.getByHeight
  rw [cached.current,cached.heights]
  split
  · rename_i empty
    rw [empty]
    rfl
  rename_i found
  obtain ⟨n,size⟩ := Nat.exists_eq_succ_of_ne_zero found
  rw [size,take_succ_cons] at cached ⊢
  rw [← top,findHead]
  show c.cache.cachedBlocks.get (entryID e) = _
  rw [cached.blocks,findHead]
  rfl

theorem servingAgrees : c.Agrees ↔ highest < tip+c.cache.maxSize := by
  have exceeds := serving.above
  obtain ⟨e,rest,blocks,_⟩ := serving.top
  have ne : windowSize c.genesisHeight c.cache.maxSize tip highest = 0 ↔ ¬highest < tip+c.cache.maxSize := by
    unfold windowSize
    omega
  constructor
  · intro agrees
    by_contra lost
    have last := agrees.last
    rw [serving.last blocks,if_pos (ne.mpr lost),serving.lastBlock blocks] at last
    cases last
  · intro fit
    refine ⟨?_,fun id => ?_,fun height => ?_,fun id => ?_,fun height => ?_⟩
    · rw [serving.last blocks,if_neg (fun empty => ne.mp empty fit),serving.lastBlock blocks]
    · unfold CachedChain.getBlock
      split
      · rename_i b hit
        obtain ⟨e',entry,rfl⟩ := serving.cacheGet hit
        rw [serving.block,entry]
        rfl
      · rfl
    · unfold CachedChain.getBlockByHeight
      split
      · rename_i b hit
        obtain ⟨e',entry,rfl⟩ := serving.cacheByHeight hit
        rw [serving.blockByHeight,entry]
        rfl
      · rfl
    · unfold CachedChain.getBlockHeader
      split
      · rename_i b hit
        obtain ⟨e',entry,rfl⟩ := serving.cacheGet hit
        rw [serving.header,entry]
        rfl
      · rfl
    · unfold CachedChain.getBlockHeaderByHeight
      split
      · rename_i b hit
        obtain ⟨e',entry,rfl⟩ := serving.cacheByHeight hit
        rw [serving.headerByHeight,entry]
        rfl
      · rfl

end

theorem unprunedSave {db : BlockDB} {keep block events fin removeTemp}
    (holds : ∃ all, Holds {db with events := all} l) (nodup : (l.save block events removeTemp).Distinct) :
    ∃ all, Holds {db.saveBlock keep block events fin removeTemp with events := all}
      (l.save block events removeTemp) := by
  obtain ⟨all,held⟩ := holds
  have kept : Holds (BlockDB.saveBlock {db with events := all} (-1) block events fin removeTemp)
      (l.save block events removeTemp) := holdsSave held (by decide) nodup
  exact ⟨_,kept⟩

theorem unprunedRemove {db : BlockDB} {e rest} (holds : ∃ all, Holds {db with events := all} l) (top : l.blocks = e::rest)
    (nodup : l.Distinct) (saveTemp : Bool) :
    ∃ all, Holds {db.removeBlock e.1 saveTemp with events := all} (l.remove e.1 saveTemp) := by
  obtain ⟨all,held⟩ := holds
  exact ⟨_,holdsRemove top held nodup saveTemp⟩

theorem servingAdd (serving : Serving c l tip highest) (pos : 1 ≤ c.cache.maxSize) (fit : highest < tip+c.cache.maxSize)
    {block events fin removeTemp} (admitted : l.Admits (.add block events fin removeTemp)) :
    (c.addBlock block events fin removeTemp).1 = .ok () ∧
      (c.addBlock block events fin removeTemp).2.cache.maxSize = c.cache.maxSize ∧
      Serving (c.addBlock block events fin removeTemp).2 (l.save block events removeTemp) (tip+1)
        (max highest (tip+1)) := by
  obtain ⟨next,small,freshID,txs⟩ := admitted
  have len := serving.length
  have exceeds := serving.above
  have reached := serving.reached
  obtain ⟨e,rest,blocks,top⟩ := serving.top
  have height : block.header.height = tip+1 := by rw [next e rest blocks,← top]; rfl
  have consecutive := serving.consecutive.cons (e := (block,events)) (fun _ => height)
  have ids := nodup_cons.mpr ⟨freshID,serving.ids⟩
  have fits : (l.blocks.take (windowSize c.genesisHeight c.cache.maxSize tip highest)).length ≤ c.cache.maxSize := by
    rw [length_take,windowSize]
    omega
  obtain ⟨cache,pushed,same,cached⟩ := cachedPush (e := (block,events)) serving.cached
    (serving.ids.sublist ((take_sublist _ _).map _)) (serving.consecutive.take _) (fun _ => height) (by omega) pos fits
  have window : ((block,events)::l.blocks.take (windowSize c.genesisHeight c.cache.maxSize tip highest)).take c.cache.maxSize =
      ((block,events)::l.blocks).take (windowSize c.genesisHeight c.cache.maxSize (tip+1) (max highest (tip+1))) := by
    rw [← take_succ_cons,take_take]
    congr 1
    unfold windowSize
    omega
  rw [window] at cached
  unfold CachedChain.addBlock
  rw [pushed]
  refine ⟨rfl,same,unprunedSave serving.holds ⟨ids,consecutive.distinct,txs⟩,ids,txs,?_,?_,?_,?_,?_,?_⟩
  · exact height ▸ consecutive
  · simp only [Listed.save,length_cons]
    omega
  · exact Nat.le_succ_of_le exceeds
  · omega
  · exact le_max_right _ _
  · rw [same]
    exact height ▸ cached

theorem servingRemove (serving : Serving c l tip highest) (fit : highest < tip+c.cache.maxSize) {saveTemp}
    (admitted : l.Admits (.remove saveTemp)) :
    (c.removeBlock saveTemp).1 = .ok () ∧ (c.removeBlock saveTemp).2.cache.maxSize = c.cache.maxSize ∧
      Serving (c.removeBlock saveTemp).2 (l.call (.remove saveTemp)) (tip-1) highest := by
  obtain ⟨e,below,rest,blocks⟩ := admitted
  have len := serving.length
  have small := serving.small
  have reached := serving.reached
  have top := serving.consecutive 0 e (by rw [blocks]; rfl)
  rw [blocks,length_cons,length_cons] at len
  obtain ⟨n,size⟩ : ∃ n, windowSize c.genesisHeight c.cache.maxSize tip highest = n+1 :=
    Nat.exists_eq_succ_of_ne_zero (by unfold windowSize; omega)
  have lower : n = windowSize c.genesisHeight c.cache.maxSize (tip-1) highest := by
    unfold windowSize at size ⊢
    omega
  have last : c.lastBlock = some e.1 := by rw [serving.last blocks,if_neg (by omega)]
  have notGenesis : e.1.header.height ≠ c.genesisHeight := by
    show entryHeight e ≠ _
    omega
  have cached := serving.cached
  have ids := serving.ids
  have consecutive := serving.consecutive
  rw [blocks] at ids consecutive
  rw [blocks,size,take_succ_cons] at cached
  obtain ⟨same,popped⟩ := cachedPop cached (ids.sublist ((take_sublist (n+1) (e::below::rest)).map _))
    (consecutive.take (n+1)) (by omega) small
  unfold CachedChain.removeBlock
  simp only [last,if_neg notGenesis]
  have removed : l.call (.remove saveTemp) = l.remove e.1 saveTemp := by simp only [Listed.call,blocks]
  have remaining : (l.remove e.1 saveTemp).blocks = below::rest := by simp only [Listed.remove,blocks,tail_cons]
  rw [removed]
  refine ⟨trivial,same,unprunedRemove serving.holds blocks serving.distinct saveTemp,?_,?_,?_,?_,?_,?_,?_,?_⟩
  · rw [remaining]
    exact (nodup_cons.mp ids).2
  · have all := serving.transactions
    rw [Listed.transactions,blocks,flatMap_cons,map_append] at all
    rw [Listed.transactions,remaining]
    exact (nodup_append.mp all).2.1
  · rw [remaining]
    exact consecutive.tail
  · rw [remaining,length_cons]
    show rest.length+1+c.genesisHeight = tip-1+1
    omega
  · show c.genesisHeight ≤ tip-1
    omega
  · omega
  · omega
  · rw [remaining,same,← lower]
    exact popped

theorem servingCall (serving : Serving c l tip highest) (pos : 1 ≤ c.cache.maxSize)
    (fit : highest < tip+c.cache.maxSize) (admitted : l.Admits call) :
    ∃ tip' highest', (c.call call).1 = .ok () ∧ (c.call call).2.cache.maxSize = c.cache.maxSize ∧
      Serving (c.call call).2 (l.call call) tip' highest' ∧
      (WithinCache c.cache.maxSize tip highest (call::rest) ↔ WithinCache c.cache.maxSize tip' highest' rest) := by
  cases call with
  | add block events fin removeTemp =>
    obtain ⟨ok,same,next⟩ := servingAdd serving pos fit admitted
    exact ⟨_,_,ok,same,next,and_iff_right fit⟩
  | remove saveTemp =>
    obtain ⟨ok,same,next⟩ := servingRemove serving fit admitted
    exact ⟨_,_,ok,same,next,and_iff_right fit⟩

theorem withinNow (fit : WithinCache maxSize tip highest calls) : highest < tip+maxSize := by
  match calls with
  | [] => exact fit
  | .add _ _ _ _::_ | .remove _::_ => exact fit.1

theorem servingRun (serving : Serving c l tip highest) (pos : 1 ≤ c.cache.maxSize) (admitted : l.AdmitsRun calls) :
    c.Serves calls ↔ WithinCache c.cache.maxSize tip highest calls := by
  induction calls generalizing c l tip highest with
  | nil => exact servingAgrees serving
  | cons call rest ih =>
    have now := servingAgrees serving
    by_cases fit : highest < tip+c.cache.maxSize
    · obtain ⟨tip',highest',ok,same,next,further⟩ := servingCall serving pos fit admitted.1
      rw [further,← same,← ih next (same ▸ pos) admitted.2]
      exact ⟨fun serves => serves.2.2,fun serves => ⟨now.mpr fit,ok,serves⟩⟩
    · exact ⟨fun serves => absurd (now.mp serves.1) fit,fun inside => absurd (withinNow inside) fit⟩

end

theorem servingGenesis {genesis events fin maxSize removeTemp keep} (pos : 1 ≤ maxSize)
    (admitted : Listed.empty.Admits (.add genesis events fin removeTemp)) :
    let start := (CachedChain.init genesis.header.height keep maxSize).addBlock genesis events fin removeTemp
    start.1 = .ok () ∧ start.2.cache.maxSize = maxSize ∧
      Serving start.2 (Listed.empty.save genesis events removeTemp) genesis.header.height genesis.header.height := by
  obtain ⟨_,small,freshID,txs⟩ := admitted
  have empty : Cached (BlockCache.newBlockCache maxSize) [] 0 := ⟨fun _ => rfl,fun _ => rfl,rfl,rfl⟩
  obtain ⟨cache,pushed,same,cached⟩ := cachedPush (e := (genesis,events)) empty nodup_nil nofun (absurd rfl) (by decide)
    pos (Nat.zero_le _)
  have consecutive := @Consecutive.cons [] 0 (genesis,events) nofun (absurd rfl)
  have ids : ([(genesis,events)].map entryID).Nodup := nodup_singleton _
  have one : windowSize genesis.header.height maxSize genesis.header.height genesis.header.height = 1 := by
    unfold windowSize
    omega
  unfold CachedChain.addBlock
  simp only [CachedChain.init,pushed]
  refine ⟨trivial,same,unprunedSave ⟨_,holdsEmpty⟩ ⟨ids,consecutive.distinct,txs⟩,ids,txs,consecutive,
    add_comm _ _,le_refl _,small,le_refl _,?_⟩
  rw [same]
  show Cached cache ([(genesis,events)].take (windowSize _ maxSize _ _)) _
  rw [one,take_succ_cons,take_nil]
  rwa [take_of_length_le (by exact pos)] at cached

theorem initAgrees (genesisHeight : Nat) (keep : Int) (maxSize : Nat) : (CachedChain.init genesisHeight keep maxSize).Agrees :=
  ⟨rfl,fun _ => rfl,fun _ => rfl,fun _ => rfl,fun _ => rfl⟩

theorem cacheServesTipIff (genesis : Block) (events : List Event) (finalizedHeight : Nat) (removeTemp : Bool) (keep : Int)
    (maxSize : Nat) (positive : 1 ≤ maxSize) (calls : List ChainCall)
    (admitted : Listed.empty.AdmitsRun (.add genesis events finalizedHeight removeTemp :: calls)) :
    (CachedChain.init genesis.header.height keep maxSize).Serves (.add genesis events finalizedHeight removeTemp :: calls) ↔
      WithinCache maxSize genesis.header.height genesis.header.height calls := by
  obtain ⟨ok,same,serving⟩ := @servingGenesis genesis events finalizedHeight maxSize removeTemp keep positive admitted.1
  have run := servingRun serving (le_of_le_of_eq positive same.symm) admitted.2
  rw [same] at run
  rw [← run]
  exact ⟨fun serves => serves.2.2,fun serves => ⟨initAgrees _ keep maxSize,ok,serves⟩⟩

def sampleBlockAt (height : Nat) (id : UInt8) : Block := ⟨{sampleBlockHeader with id := [id], height := height},[],[]⟩

def sampleRevert : List ChainCall :=
  [.add (sampleBlockAt 0 1) [] 0 false,.add (sampleBlockAt 1 2) [] 0 false,.add (sampleBlockAt 2 3) [] 0 false,.remove false]

theorem sampleRevertAdmitted : Listed.empty.AdmitsRun sampleRevert := by
  refine ⟨⟨nofun,by decide,by decide,by decide⟩,⟨fun top rest same => ?_,by decide,by decide,by decide⟩,
    ⟨fun top rest same => ?_,by decide,by decide,by decide⟩,⟨_,_,_,rfl⟩,trivial⟩
  · obtain ⟨rfl,_⟩ := cons.inj same
    rfl
  · obtain ⟨rfl,_⟩ := cons.inj same
    rfl

theorem cacheServesTipSample : (CachedChain.init 0 (-1) 2).Serves sampleRevert :=
  (cacheServesTipIff (sampleBlockAt 0 1) [] 0 false (-1) 2 (by decide) _ sampleRevertAdmitted).mpr
    ⟨by decide,by decide,by decide,show (2 : Nat) < 1 + 2 by decide⟩

theorem lastBlockLost : let chain := sampleRevert.foldl (fun c call => (c.call call).2) (CachedChain.init 0 (-1) 1)
    Listed.empty.AdmitsRun (sampleRevert ++ [.remove false]) ∧ chain.lastBlock = none ∧
      chain.database.lastBlock = some (sampleBlockAt 1 2) ∧ (chain.removeBlock false).1 = .error .nilBlock :=
  ⟨⟨sampleRevertAdmitted.1,sampleRevertAdmitted.2.1,sampleRevertAdmitted.2.2.1,sampleRevertAdmitted.2.2.2.1,
    ⟨_,_,_,rfl⟩,trivial⟩,by decide +kernel,by decide +kernel,by decide +kernel⟩

end LiskEngine.Blockchain
