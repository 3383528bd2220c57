import LiskEngine.BlockList

/-! Runs of saves and removals. After any of them the database reads as the list of the
blocks on the chain, and its temporary blocks as the blocks removed and kept. -/
namespace LiskEngine.Blockchain
open Codec List Option OrderedMap Schema
open Diffdb (Write applyWrites)
open Smt (CollisionFree)

inductive StorageOperation where
  | save (block : Block) (events : List Event) (finalizedHeight : Nat) (removeTemp : Bool)
  | remove (block : Block) (saveTemp : Bool)

section
variable (text : Normalizer) (sha : Bytes → Bytes) (keep : Int)

def RawDB.apply (db : RawDB) : StorageOperation → Option RawDB
  | .save block events finalizedHeight removeTemp =>
    (db.saveBlock text keep block events finalizedHeight removeTemp).map (applyWrites db)
  | .remove block saveTemp => (RawDB.removeBlock text block saveTemp).map (applyWrites db)

def RawDB.run : RawDB → List StorageOperation → Option RawDB
  | db, [] => some db
  | db, operation :: rest => (db.apply text keep operation).bind (fun db => db.run rest)

def Listed.apply (l : Listed) : StorageOperation → Listed
  | .save block events _ removeTemp => l.save block events removeTemp
  | .remove block saveTemp => l.remove block saveTemp

def Listed.Allows (l : Listed) : StorageOperation → Prop
  | .save block events _ _ => (∀ top rest, l.blocks = top :: rest → block.header.height = top.1.header.height + 1) ∧
    Blockchain.Storable text sha block ∧ StorableEvents text events ∧
      ((block.transactions ++ l.transactions).map (·.id)).Nodup
  | .remove block _ => ∃ events below rest, l.blocks = (block, events) :: below :: rest

def Listed.AllowsRun : Listed → List StorageOperation → Prop
  | _, [] => True
  | l, operation :: rest => l.Allows text sha operation ∧ (l.apply operation).AllowsRun rest

def savedHeader : StorageOperation → Option Bytes
  | .save block _ _ _ => block.header.encode text
  | .remove _ _ => none

structure Reads (raw : RawDB) (l : Listed) : Prop where
  block : ∀ id, raw.getBlock text sha id = found ((l.byID id).map Prod.fst)
  blockByHeight : ∀ height, height < 4294967296 →
    raw.getBlockByHeight text sha height = found ((l.byHeight height).map Prod.fst)
  transaction : ∀ id, raw.getTransaction text sha id = found (l.transactions.find? (fun t => t.id = id))
  events : ∀ height, height < 4294967296 → raw.getEvents text height = found ((l.byHeight height).bind (fun e => nonEmpty e.2))
  temp : raw.getTempBlocks text sha = .ok (l.temp.entries.reverse.map Prod.snd)

structure Stored (strings : List Bytes) (raw : RawDB) (l : Listed) : Prop where
  tables : ∃ db, Encodes text raw db ∧ Holds db l
  descending : (l.blocks.map entryHeight).Pairwise (fun a b => b < a)
  ids : (l.blocks.map entryID).Nodup
  transactions : (l.transactions.map (·.id)).Nodup
  storable : l.Storable text sha
  known : ∀ e ∈ l.blocks, ∃ data ∈ strings, e.1.header.encode text = some data

end

section
variable {text : Normalizer} {sha : Bytes → Bytes} {keep : Int} {strings : List Bytes} {raw : RawDB} {l : Listed}

theorem Stored.distinct (stored : Stored text sha strings raw l) : l.Distinct where
  ids := stored.ids
  heights := stored.descending.imp (·.ne')
  transactions := stored.transactions

theorem storedReads (size : ∀ data, (sha data).length = 32) (stored : Stored text sha strings raw l) : Reads text sha raw l := by
  obtain ⟨db,enc,holds⟩ := stored.tables
  have readable := readableOf size holds stored.storable
  refine ⟨fun id => ?_,fun height small => ?_,fun id => ?_,fun height small => ?_,?_⟩
  · rw [getBlockAgrees enc readable,getBlockListed holds stored.distinct]
  · rw [getBlockByHeightAgrees enc readable small,getBlockByHeightListed holds stored.distinct]
  · rw [getTransactionAgrees enc readable,holds.transactions]
  · rw [getEventsAgrees enc readable small,holds.events]
  · rw [getTempBlocksAgrees enc readable,BlockDB.getTempBlocks,holds.temp]

theorem heightsBelow (descending : (l.blocks.map entryHeight).Pairwise (fun a b => b < a))
    (next : ∀ top rest, l.blocks = top::rest → height = top.1.header.height+1) : ∀ e ∈ l.blocks, e.1.header.height < height := by
  intro e mem
  cases blocks : l.blocks with
  | nil => rw [blocks] at mem; cases mem
  | cons top rest =>
    rw [blocks] at mem descending
    have above := next top rest blocks
    rcases mem_cons.mp mem with rfl | later
    · omega
    · have := (pairwise_cons.mp descending).1 (entryHeight e) (mem_map_of_mem later)
      simp only [entryHeight] at this
      omega

theorem sameHeight {h h' : BlockHeader} {data} (valid : BlockHeader.schema.Valid text h.value)
    (valid' : BlockHeader.schema.Valid text h'.value) (enc : h.encode text = some data)
    (enc' : h'.encode text = some data) (short : data.length < 9223372036854775808) : h.height = h'.height := by
  have first := decodeEncoded (by decide) headerIncreasing valid enc short
  have second := decodeEncoded (by decide) headerIncreasing valid' enc' short
  have same : h.value = h'.value := Except.ok.inj (first.symm.trans second)
  exact congrArg (·.2.2.1) same

theorem freshID (free : CollisionFree sha strings) (stored : Stored text sha strings raw l) {block : Block}
    (storable : Storable text sha block) (below : ∀ e ∈ l.blocks, e.1.header.height < block.header.height) {data}
    (enc : block.header.encode text = some data) (mem : data ∈ strings) : ∀ e ∈ l.blocks, e.1.header.id ≠ block.header.id := by
  intro e listed same
  obtain ⟨data',mem',enc'⟩ := stored.known e listed
  obtain ⟨valid,short,id⟩ := storable.header
  obtain ⟨valid',_,id'⟩ := (stored.storable.blocks e listed).1.header
  rw [id data enc,id' data' enc'] at same
  have eq : data' = data := free data' mem' data mem same
  have := sameHeight valid' valid (eq ▸ enc') enc (short data enc)
  have := below e listed
  omega

theorem listEncoded {α : Type} {fields : Schema} (small : ∀ m ∈ fields.numbers, m < 2^32) (value : α → fields.Value)
    (vs : List α) : ∃ data, encodableListToBytes text (fun v => fields.encode text (value v)) vs = some data := by
  obtain ⟨items,each⟩ : ∃ items, vs.mapM (fun v => fields.encode text (value v)) = some items :=
    mapMPure (fun v _ => encodeSome fields small (value v))
  obtain ⟨data,enc⟩ : ∃ data, bytesListSchema.encode text (items,()) = some data :=
    encodeSome bytesListSchema (by decide) (items,())
  exact ⟨data,by simp only [encodableListToBytes,each,bind,bind_some,enc]⟩

theorem saveSome (raw : RawDB) (keep : Int) (block : Block) (events : List Event) (fin : Nat) (removeTemp : Bool) :
    ∃ batch, raw.saveBlock text keep block events fin removeTemp = some batch := by
  obtain ⟨headerBytes,header⟩ : ∃ data, block.header.encode text = some data :=
    encodeSome BlockHeader.schema (by decide) block.header.value
  obtain ⟨txs,put⟩ : ∃ txs, block.transactions.mapM
      (fun tx => (tx.encode text).map (Write.set (dbPrefixTxIDToTx::tx.id))) = some txs := by
    refine mapMPure (fun tx _ => ?_)
    obtain ⟨data,enc⟩ : ∃ data, tx.encode text = some data := encodeSome Transaction.schema (by decide) tx.value
    exact ⟨_,by rw [enc]; rfl⟩
  obtain ⟨eventBytes,eventList⟩ : ∃ data, encodableListToBytes text (Event.encode text) events = some data :=
    listEncoded (by decide) Event.value events
  obtain ⟨assetBytes,assetList⟩ : ∃ data, encodableListToBytes text (BlockAsset.encode text) block.assets = some data :=
    listEncoded (by decide) BlockAsset.value block.assets
  exact ⟨_,by simp only [RawDB.saveBlock,header,put,eventList,assetList,bind,bind_some]; rfl⟩

theorem removeSome (block : Block) (saveTemp : Bool) : ∃ batch, RawDB.removeBlock text block saveTemp = some batch := by
  obtain ⟨data,enc⟩ : ∃ data, block.encode text = some data := encodeSome Block.schema (by decide) block.value
  exact ⟨_,by simp only [RawDB.removeBlock,enc,bind,bind_some]; rfl⟩

theorem storedSave (free : CollisionFree sha strings) (off : keep ≤ -1) (stored : Stored text sha strings raw l)
    (allowed : l.Allows text sha (.save block events finalizedHeight removeTemp))
    (named : ∀ data, block.header.encode text = some data → data ∈ strings) :
    ∃ raw', raw.apply text keep (.save block events finalizedHeight removeTemp) = some raw' ∧
      Stored text sha strings raw' (l.save block events removeTemp) := by
  obtain ⟨next,storable,storableEvents,nodup⟩ := allowed
  obtain ⟨batch,saved⟩ : ∃ batch, raw.saveBlock text keep block events finalizedHeight removeTemp = some batch :=
    saveSome raw keep block events finalizedHeight removeTemp
  obtain ⟨data,enc,_⟩ := storable.sealed.header
  obtain ⟨db,encodes,holds⟩ := stored.tables
  have below := heightsBelow stored.descending next
  have fresh := freshID free stored storable below enc (named data enc)
  have descending : ((l.save block events removeTemp).blocks.map entryHeight).Pairwise (fun a b => b < a) := by
    refine pairwise_cons.mpr ⟨fun height mem => ?_,stored.descending⟩
    obtain ⟨e,listed,rfl⟩ := mem_map.mp mem
    exact below e listed
  have ids : ((l.save block events removeTemp).blocks.map entryID).Nodup := by
    refine nodup_cons.mpr ⟨fun mem => ?_,stored.ids⟩
    obtain ⟨e,listed,same⟩ := mem_map.mp mem
    exact fresh e listed same
  refine ⟨applyWrites raw batch,by simp only [RawDB.apply,saved,map_some],?_⟩
  refine ⟨⟨_,saveEncodes encodes off storable.headerHeight saved,holdsSave holds off ⟨ids,?_,nodup⟩⟩,descending,ids,
    nodup,⟨fun e mem => ?_,fun height b held => ?_⟩,fun e mem => ?_⟩
  · exact descending.imp (·.ne')
  · rcases mem_cons.mp mem with rfl | old
    · exact ⟨storable,storableEvents⟩
    · exact stored.storable.blocks e old
  · unfold Listed.save at held
    split at held
    · rw [getDel] at held
      split at held
      · cases held
      · exact stored.storable.temp height b held
    · exact stored.storable.temp height b held
  · rcases mem_cons.mp mem with rfl | old
    · exact ⟨data,named data enc,enc⟩
    · exact stored.known e old

theorem storedRemove (stored : Stored text sha strings raw l) (allowed : l.Allows text sha (.remove block saveTemp)) :
    ∃ raw', raw.apply text keep (.remove block saveTemp) = some raw' ∧ Stored text sha strings raw' (l.remove block saveTemp) := by
  obtain ⟨events,below,rest,top⟩ := allowed
  obtain ⟨batch,removed⟩ : ∃ batch, RawDB.removeBlock text block saveTemp = some batch := removeSome block saveTemp
  obtain ⟨db,enc,holds⟩ := stored.tables
  have own := (stored.storable.blocks (block,events) (by rw [top]; exact .head _)).1
  have kept : ∀ e ∈ (l.remove block saveTemp).blocks, e ∈ l.blocks := fun e mem => mem_of_mem_tail mem
  have sub : (l.remove block saveTemp).blocks.Sublist l.blocks := tail_sublist _
  refine ⟨applyWrites raw batch,by simp only [RawDB.apply,removed,map_some],?_⟩
  refine ⟨⟨_,removeEncodes enc own.headerHeight removed,holdsRemove top holds stored.distinct saveTemp⟩,
    stored.descending.sublist (sub.map _),stored.ids.sublist (sub.map _),?_,
    ⟨fun e mem => stored.storable.blocks e (kept e mem),fun height b held => ?_⟩,
    fun e mem => stored.known e (kept e mem)⟩
  · have all := stored.transactions
    rw [Listed.transactions,top,flatMap_cons,map_append] at all
    rw [Listed.transactions,Listed.remove,top]
    exact (nodup_append.mp all).2.1
  · unfold Listed.remove at held
    split at held
    · rw [getSet] at held
      split at held
      · cases held
        exact own
      · exact stored.storable.temp height b held
    · exact stored.storable.temp height b held

theorem storedRun (free : CollisionFree sha strings) (off : keep ≤ -1)
    (named : ∀ data ∈ operations.filterMap (savedHeader text), data ∈ strings) (stored : Stored text sha strings raw l)
    (allowed : l.AllowsRun text sha operations) :
    ∃ raw', raw.run text keep operations = some raw' ∧ Stored text sha strings raw' (operations.foldl Listed.apply l) := by
  induction operations generalizing raw l with
  | nil => exact ⟨raw,rfl,stored⟩
  | cons operation rest ih =>
    obtain ⟨first,others⟩ := allowed
    have namedRest : ∀ data ∈ rest.filterMap (savedHeader text), data ∈ strings := by
      intro data mem
      obtain ⟨op,listed,header⟩ := mem_filterMap.mp mem
      exact named data (mem_filterMap.mpr ⟨op,mem_cons_of_mem _ listed,header⟩)
    obtain ⟨next,applied,stored'⟩ : ∃ next, raw.apply text keep operation = some next ∧
        Stored text sha strings next (l.apply operation) := by
      cases operation with
      | save block events fin removeTemp =>
        refine storedSave free off stored first (fun data header => ?_)
        exact named data (mem_filterMap.mpr ⟨_,mem_cons_self,header⟩)
      | remove block saveTemp => exact storedRemove stored first
    obtain ⟨last,ran,done⟩ := ih namedRest stored' others
    exact ⟨last,by rw [RawDB.run,applied]; exact ran,done⟩

end

theorem storageRefinesList (text : Normalizer) (sha : Bytes → Bytes) (size : ∀ data, (sha data).length = 32) (keep : Int)
    (off : keep ≤ -1) (operations : List StorageOperation) (allowed : Listed.empty.AllowsRun text sha operations)
    (free : CollisionFree sha (operations.filterMap (savedHeader text))) :
    ∃ raw, RawDB.run text keep OrderedMap.empty operations = some raw ∧
      Reads text sha raw (operations.foldl Listed.apply Listed.empty) := by
  have start : Stored text sha (operations.filterMap (savedHeader text)) empty Listed.empty :=
    ⟨⟨BlockDB.empty,emptyEncodes,holdsEmpty⟩,List.Pairwise.nil,nodup_nil,nodup_nil,⟨nofun,nofun⟩,nofun⟩
  obtain ⟨raw,ran,stored⟩ := storedRun free off (fun data member => member) start allowed
  exact ⟨raw,ran,storedReads size stored⟩

theorem shortOf (short : (encoded.getD []).length < 9223372036854775808) : Short encoded := by
  intro data same
  simpa [same] using short

def sampleGenesis : Block :=
  let header := {sampleBlockHeader with height := 0}
  ⟨{header with id := Smt.sampleSha ((header.encode asciiText).getD [])},[],[]⟩

def sampleSuccessor : Block :=
  let header := {sampleBlockHeader with height := 1}
  ⟨{header with id := Smt.sampleSha ((header.encode asciiText).getD [])},
    [{sampleTransaction with id := Smt.sampleSha sampleTransactionBytes}],[⟨"token",[11]⟩]⟩

def sampleStoredEvents : List Event := [⟨"token","mint",[1,2],[[7]],1,0⟩]

theorem sampleGenesisStorable : Storable asciiText Smt.sampleSha sampleGenesis where
  valid := ⟨⟨_,rfl,headerValid (by decide) (by decide) (by decide) (by decide) (by decide) (by decide)⟩,nofun,nofun,trivial⟩
  sealed := ⟨⟨(sampleGenesis.header.encode asciiText).getD [],by decide +kernel,by decide +kernel⟩,nofun⟩
  short := shortOf (by decide +kernel)
  assets := shortOf (by decide +kernel)

theorem sampleSuccessorStorable : Storable asciiText Smt.sampleSha sampleSuccessor where
  valid := by
    refine ⟨⟨_,rfl,headerValid (by decide) (by decide) (by decide) (by decide) (by decide) (by decide)⟩,
      fun e mem => ?_,fun e mem => ?_,trivial⟩
    · obtain rfl := mem_singleton.mp mem
      exact ⟨_,rfl,sampleTransactionValid⟩
    · obtain rfl := mem_singleton.mp mem
      exact ⟨_,rfl,rfl,trivial,trivial⟩
  sealed := by
    refine ⟨⟨(sampleSuccessor.header.encode asciiText).getD [],by decide +kernel,by decide +kernel⟩,fun t mem => ?_⟩
    obtain rfl := mem_singleton.mp mem
    exact ⟨sampleTransactionBytes,sampleTransactionEncoded,rfl⟩
  short := shortOf (by decide +kernel)
  assets := shortOf (by decide +kernel)

theorem sampleEventsStorable : StorableEvents asciiText sampleStoredEvents where
  valid e member := by
    obtain rfl := mem_singleton.mp member
    simp [Event.schema,Event.value,Schema.Valid,Kind.Valid,asciiText,Normalizer.plain]
  short := shortOf (by decide +kernel)

def sampleStorage : List StorageOperation :=
  [.save sampleGenesis [] 0 false,.save sampleSuccessor sampleStoredEvents 0 false,.remove sampleSuccessor true]

theorem sampleNext (top : Block × List Event) (rest : List (Block × List Event))
    (same : (Listed.empty.save sampleGenesis [] false).blocks = top::rest) :
    sampleSuccessor.header.height = top.1.header.height+1 := by
  obtain ⟨rfl,_⟩ := cons.inj same
  decide

theorem storageRefinesListSample : ∃ raw, RawDB.run asciiText (-1) OrderedMap.empty sampleStorage = some raw ∧
      raw.getTransaction asciiText Smt.sampleSha (Smt.sampleSha sampleTransactionBytes) = .error .dataNotFound ∧
      raw.getTempBlocks asciiText Smt.sampleSha = .ok [sampleSuccessor] := by
  obtain ⟨raw,ran,reads⟩ := storageRefinesList asciiText Smt.sampleSha Smt.sampleShaLength (-1) (by decide) sampleStorage
    ⟨⟨nofun,sampleGenesisStorable,⟨nofun,shortOf (by decide +kernel)⟩,by decide⟩,
      ⟨sampleNext,sampleSuccessorStorable,sampleEventsStorable,by decide⟩,
      ⟨_,_,_,rfl⟩,trivial⟩ (by decide +kernel)
  exact ⟨raw,ran,reads.transaction _,reads.temp⟩

end LiskEngine.Blockchain
