import LiskEngine.DataAccess
import LiskEngine.KeyFamily

/-! The typed tables of blocks are what the database holds: every operation on the byte
strings follows the one on the tables, and the reads of both agree. -/
namespace LiskEngine.Blockchain
open Codec List Except
open Diffdb (Write applyWrite applyWrites applyWriteGet iteratePrefix)
open KeyFamily

theorem fromUint32Bytes (n : Nat) : fromUint32 n =
    [UInt8.ofNat (n/16777216),UInt8.ofNat (n/65536),UInt8.ofNat (n/256),UInt8.ofNat n] := by
  simp [fromUint32,show range 4 = [0,1,2,3] from rfl]

theorem fromUint32Ordered {n m} (small : m < 4294967296) (smaller : n < m) : fromUint32 n < fromUint32 m := by
  rw [fromUint32Bytes,fromUint32Bytes]
  simp only [cons_lt_cons_iff,UInt8.lt_iff_toNat_lt,← UInt8.toNat_inj,UInt8.toNat_ofNat']
  have digits (x : Nat) (small : x < 4294967296) : x = x/16777216 % 2^8*16777216+x/65536 % 2^8*65536 +
      x/256 % 2^8*256+x % 2^8 := by omega
  have left := digits n (by omega)
  have right := digits m small
  omega

def heightKeys : KeyCode Nat :=
  ⟨fromUint32,fun height => height < 4294967296,fun _ _ _ small less => fromUint32Ordered small less⟩

theorem mapMSome {α β : Type} {f} {xs : List α} {ys : List β} (ok : xs.mapM f = some ys) :
    List.Forall₂ (fun x y => f x = some y) xs ys := by
  induction xs generalizing ys with
  | nil => cases ok; exact .nil
  | cons x rest ih =>
    rw [mapM_cons] at ok
    obtain ⟨y,head,ok⟩ := Option.bind_eq_some_iff.mp ok
    obtain ⟨others,tail,ok⟩ := Option.bind_eq_some_iff.mp ok
    cases ok
    exact .cons head (ih tail)

theorem forallRight {α β : Type} {R} {xs : List α} {ys : List β} (all : List.Forall₂ R xs ys) : ∀ y ∈ ys, ∃ x, R x y := by
  induction all with
  | nil => simp
  | cons head tail ih =>
    intro y mem
    rcases mem_cons.mp mem with rfl | later
    · exact ⟨_,head⟩
    · exact ih y later

namespace BlockDB

def getTransactions (db : BlockDB) (blockID : Bytes) : Option (List Transaction) :=
  match db.transactionIDs.get blockID with
  | none => some []
  | some txIDs => txIDs.mapM db.transactions.get

def getBlock (db : BlockDB) (id : Bytes) : Option Block := do
  let header ← db.blockHeaders.get id
  let txs ← db.getTransactions id
  some ⟨header,txs,(db.assets.get id).getD []⟩

def getBlockByHeight (db : BlockDB) (height : Nat) : Option Block := (db.blockIDs.get height).bind db.getBlock

def getTempBlocks (db : BlockDB) : List Block := db.temp.entries.reverse.map Prod.snd

end BlockDB

section
variable (text : Normalizer) (sha : Bytes → Bytes)

structure Encodes (raw : RawDB) (db : BlockDB) : Prop where
  blockHeaders : Family raw dbPrefixBlockIDToBlockHeader plainKeys (BlockHeader.encode text) db.blockHeaders
  blockIDs : Family raw dbPrefixBlockHeightToBlockID heightKeys some db.blockIDs
  transactionIDs : Family raw dbPrefixBlockIDToTxs plainKeys (fun txIDs => some txIDs.flatten) db.transactionIDs
  transactions : Family raw dbPrefixTxIDToTx plainKeys (Transaction.encode text) db.transactions
  temp : Family raw dbPrefixTemp heightKeys (Block.encode text) db.temp
  assets : Family raw dbPrefixBlockIDToAssets plainKeys (encodableListToBytes text (BlockAsset.encode text)) db.assets
  events : Family raw dbPrefixBlockHeightToEvents heightKeys (encodableListToBytes text (Event.encode text)) db.events
  finalizedHeight : raw.get [dbPrefixFinalizedHeight] = db.finalizedHeight.map fromUint32

def Short (encoded : Option Bytes) : Prop := ∀ data, encoded = some data → data.length < 9223372036854775808

structure Readable (db : BlockDB) : Prop where
  blockHeaders : ∀ id h, db.blockHeaders.get id = some h → BlockHeader.schema.Valid text h.value ∧
    Short (h.encode text) ∧ ∀ data, h.encode text = some data → h.id = sha data
  transactions : ∀ id t, db.transactions.get id = some t → Transaction.schema.Valid text t.value ∧
    Short (t.encode text) ∧ ∀ data, t.encode text = some data → t.id = sha data
  transactionIDs : ∀ id txIDs, db.transactionIDs.get id = some txIDs → ∀ txID ∈ txIDs, txID.length = idSize
  assets : ∀ id assets, db.assets.get id = some assets → (∀ a ∈ assets, BlockAsset.schema.Valid text a.value) ∧
    Short (encodableListToBytes text (BlockAsset.encode text) assets)
  events : ∀ height events, db.events.get height = some events → (∀ e ∈ events, Event.schema.Valid text e.value) ∧
    Short (encodableListToBytes text (Event.encode text) events)
  temp : ∀ height b, db.temp.get height = some b → Block.schema.Valid text b.value ∧ b.Sealed text sha ∧
    Short (b.encode text)

end

def found {α : Type} : Option α → Except DataError α
  | none => .error .dataNotFound
  | some x => .ok x

theorem foundMapM {α β : Type} (f : α → Option β) (xs : List α) : xs.mapM (fun x => found (f x)) = found (xs.mapM f) := by
  induction xs with
  | nil => rfl
  | cons x rest ih =>
    rw [mapM_cons,mapM_cons,ih]
    cases f x with
    | none => rfl
    | some y => cases rest.mapM f <;> rfl

section
variable {text : Normalizer} {sha : Bytes → Bytes} {raw : RawDB} {db : BlockDB}

theorem getBlockHeaderAgrees (encodes : Encodes text raw db) (readable : Readable text sha db) (id : Bytes) :
    raw.getBlockHeader text sha id = found (db.blockHeaders.get id) := by
  unfold RawDB.getBlockHeader
  rcases encodes.blockHeaders.lookup (c := plainKeys) trivial (Eq.refl id) with ⟨stored,held⟩ | ⟨h,data,stored,enc,held⟩
  · rw [held,stored]
    rfl
  obtain ⟨valid,short,sealed'⟩ := readable.blockHeaders id h stored
  have dec := Schema.decodeEncoded (by decide) headerIncreasing valid enc (short data enc)
  simp only [held,stored,dec,liftCodec,bind,bind,found,← sealed' data enc]
  rfl

theorem getTransactionAgrees (encodes : Encodes text raw db) (readable : Readable text sha db) (id : Bytes) :
    raw.getTransaction text sha id = found (db.transactions.get id) := by
  unfold RawDB.getTransaction
  rcases encodes.transactions.lookup (c := plainKeys) trivial (Eq.refl id) with ⟨stored,held⟩ | ⟨t,data,stored,enc,held⟩
  · rw [held,stored]
    rfl
  obtain ⟨valid,short,sealed'⟩ := readable.transactions id t stored
  have dec := Schema.decodeEncoded (by decide) transactionIncreasing valid enc (short data enc)
  have read : newTransaction text sha data = .ok {t with id := sha data} := transactionRead valid enc (short data enc)
  simp only [held,stored,read,dec,liftCodec,bind,bind,found,← sealed' data enc]
  rfl

theorem chunksFlatten {ids : List Bytes} (sized : ∀ id ∈ ids, id.length = idSize) :
    (List.range (ids.flatten.length/idSize)).map (fun i => (ids.flatten.drop (i*idSize)).take idSize) = ids := by
  induction ids with
  | nil => rfl
  | cons first rest ih =>
    have len : first.length = 32 := sized first (by simp)
    have others := ih (fun id mem => sized id (by simp [mem]))
    have size : (first::rest).flatten.length/idSize = rest.flatten.length/idSize+1 := by
      simp only [flatten_cons,length_append,len,idSize]
      omega
    rw [size,range_succ_eq_map,map_cons,map_map]
    refine congrArg₂ cons ?_ ?_
    · simp [len,idSize]
    refine Eq.trans (map_congr_left (fun i _ => ?_)) others
    simp only [Function.comp_apply,flatten_cons]
    rw [drop_append,drop_eq_nil_of_le (by simp only [len,idSize]; omega),nil_append]
    congr 2
    simp only [len,idSize]
    omega

theorem mapMMap {α β γ ε : Type} (g : α → β) (f : β → Except ε γ) (xs : List α) : xs.mapM (fun x => f (g x)) = (xs.map g).mapM f := by
  induction xs with
  | nil => rfl
  | cons x rest ih => rw [map_cons,mapM_cons,mapM_cons,ih]

theorem getTransactionsAgrees (encodes : Encodes text raw db) (readable : Readable text sha db) (blockID : Bytes) :
    raw.getTransactions text sha blockID = found (db.getTransactions blockID) := by
  unfold RawDB.getTransactions BlockDB.getTransactions
  rcases encodes.transactionIDs.lookup (c := plainKeys) trivial (Eq.refl blockID) with ⟨stored,held⟩ | ⟨txIDs,data,stored,enc,held⟩
  · rw [held,stored]
    rfl
  cases enc
  simp only [held,stored,getTransactionAgrees encodes readable]
  rw [mapMMap (fun i => (txIDs.flatten.drop (i*idSize)).take idSize) (fun id => found (db.transactions.get id)),
    chunksFlatten (readable.transactionIDs blockID txIDs stored),foundMapM]

theorem bytesListIncreasing : bytesListSchema.Increasing 0 := by
  simp [bytesListSchema,Schema.Increasing,Kind.Increasing]

theorem bytesToListRead {α : Type} {encode} {read : Bytes → Except CodecError α} {vs : List α} {data}
    (enc : encodableListToBytes text encode vs = some data) (short : data.length < 9223372036854775808)
    (reads : ∀ v ∈ vs, ∀ d, encode v = some d → d.length < 9223372036854775808 → read d = .ok v) :
    bytesToList text read data = .ok vs := by
  obtain ⟨items,each,put⟩ := Option.bind_eq_some_iff.mp enc
  have pairs := mapMSome each
  have dec :=
    Schema.decodeEncoded (by decide) bytesListIncreasing (by simp [bytesListSchema,Schema.Valid,Kind.Valid]) put short
  have lens : ∀ d ∈ items, d.length < 9223372036854775808 := by
    obtain ⟨field,rest,array,_,rfl⟩ := Schema.encodeInv put
    rw [length_append] at short
    intro d mem
    have := arrayLength array d mem
    omega
  have all := elementsRead pairs (fun v mem d inside same => reads v mem d same (lens d inside))
  unfold bytesToList
  split
  · rename_i absent
    rw [eq_nil_of_length_eq_zero absent] at dec
    have empty : bytesListSchema.decode text [] = .ok ([],()) := rfl
    cases ok.inj (empty.symm.trans dec)
    exact all
  · simp only [dec,bind,Except.bind,all]

section
variable (encodes : Encodes text raw db) (readable : Readable text sha db)
include encodes readable

theorem getBlockAssetsAgrees (blockID : Bytes) : raw.getBlockAssets text blockID = .ok ((db.assets.get blockID).getD []) := by
  unfold RawDB.getBlockAssets
  rcases encodes.assets.lookup (c := plainKeys) trivial (Eq.refl blockID) with ⟨stored,held⟩ | ⟨assets,data,stored,enc,held⟩
  · rw [held,stored]
    rfl
  obtain ⟨valid,short⟩ := readable.assets blockID assets stored
  have read : bytesToAssets text data = .ok assets := by
    refine bytesToListRead enc (short data enc) (fun a mem d put small => ?_)
    rw [Schema.decodeEncoded (by decide) assetIncreasing (valid a mem) put small]
    rfl
  simp only [held,stored,read,liftCodec,Option.getD_some]

theorem getBlockAgrees (id : Bytes) : raw.getBlock text sha id = found (db.getBlock id) := by
  unfold RawDB.getBlock BlockDB.getBlock
  rw [getBlockHeaderAgrees encodes readable,getTransactionsAgrees encodes readable,getBlockAssetsAgrees encodes readable]
  cases db.blockHeaders.get id with
  | none => rfl
  | some header => cases db.getTransactions id <;> rfl

theorem getBlockByHeightAgrees {height}
    (small : height < 4294967296) : raw.getBlockByHeight text sha height = found (db.getBlockByHeight height) := by
  have held : raw.get (dbPrefixBlockHeightToBlockID::fromUint32 height) = (db.blockIDs.get height).bind some :=
    encodes.blockIDs.reads height small
  unfold RawDB.getBlockByHeight BlockDB.getBlockByHeight
  rw [held]
  cases db.blockIDs.get height with
  | none => rfl
  | some id => exact getBlockAgrees encodes readable id

end

theorem eventIncreasing : Event.schema.Increasing 0 := by
  simp [Event.schema,Schema.Increasing,Kind.Increasing]

theorem getEventsAgrees (encodes : Encodes text raw db) (readable : Readable text sha db) {height : Nat}
    (small : height < 4294967296) : raw.getEvents text height = found (db.events.get height) := by
  unfold RawDB.getEvents
  rcases encodes.events.lookup (c := heightKeys) small (Eq.refl (fromUint32 height)) with ⟨stored,held⟩ | ⟨events,data,stored,enc,held⟩
  · rw [held,stored]
    rfl
  obtain ⟨valid,short⟩ := readable.events height events stored
  have read : bytesToEvents text data = .ok events := by
    refine bytesToListRead enc (short data enc) (fun e mem d put small => ?_)
    unfold newEvent
    rw [Schema.decodeEncoded (by decide) eventIncreasing (valid e mem) put small]
    rfl
  simp only [held,stored,read,liftCodec,found]

theorem entriesRead {es : List (Nat × Block)}
    (each : ∀ e ∈ es, ∃ data, e.2.encode text = some data ∧ newBlock text sha data = .ok e.2) :
    List.Forall₂ (fun kv b => newBlock text sha kv.2 = .ok b)
      (es.filterMap (fun e => (e.2.encode text).map (fun data => (dbPrefixTemp::fromUint32 e.1,data)))) (es.map Prod.snd) := by
  induction es with
  | nil => exact .nil
  | cons e rest ih =>
    obtain ⟨data,enc,read⟩ := each e (by simp)
    rw [filterMap_cons_some (by rw [enc]; rfl)]
    exact .cons read (ih (fun e' mem => each e' (by simp [mem])))

theorem getTempBlocksAgrees (encodes : Encodes text raw db) (readable : Readable text sha db) :
    raw.getTempBlocks text sha = .ok db.getTempBlocks := by
  have each : ∀ e ∈ db.temp.entries, ∃ data, e.2.encode text = some data ∧ newBlock text sha data = .ok e.2 := by
    intro e mem
    have stored := (db.temp.memIffGet e.1 e.2).mp mem
    obtain ⟨valid,sealed',short⟩ := readable.temp e.1 e.2 stored
    obtain ⟨_,data,enc⟩ := encodes.temp.held e.1 e.2 stored
    exact ⟨data,enc,blockRead valid sealed' enc (short data enc)⟩
  have listed := mapMOk (rel_reverse (entriesRead each))
  unfold RawDB.getTempBlocks BlockDB.getTempBlocks iteratePrefix
  simp only [if_true,encodes.temp.entries,heightKeys,listed,liftCodec,map_reverse]

theorem emptyEncodes : Encodes text OrderedMap.empty BlockDB.empty :=
  ⟨familyEmpty,familyEmpty,familyEmpty,familyEmpty,familyEmpty,familyEmpty,familyEmpty,rfl⟩

theorem transactionsSaved {table} (family : Family raw dbPrefixTxIDToTx plainKeys (Transaction.encode text) table)
    {txs : List Transaction} {writes : Batch}
    (put : txs.mapM (fun tx => (tx.encode text).map (Write.set (dbPrefixTxIDToTx::tx.id))) = some writes) :
    Family (applyWrites raw writes) dbPrefixTxIDToTx plainKeys (Transaction.encode text)
      (txs.foldl (fun txs tx => txs.set tx.id tx) table) := by
  have pairs := mapMSome put
  clear put
  induction pairs generalizing raw table with
  | nil => exact family
  | cons head tail ih =>
    obtain ⟨data,enc,rfl⟩ := Option.map_eq_some_iff.mp head
    exact ih (family.set (c := plainKeys) trivial enc)

theorem transactionsRemoved {table} (family : Family raw dbPrefixTxIDToTx plainKeys (Transaction.encode text) table)
    (txs : List Transaction) : Family (applyWrites raw (txs.map (fun tx => .del (dbPrefixTxIDToTx::tx.id)))) dbPrefixTxIDToTx plainKeys
      (Transaction.encode text) (txs.foldl (fun txs tx => txs.del tx.id) table) := by
  induction txs generalizing raw table with
  | nil => exact family
  | cons tx rest ih => exact ih (family.del (c := plainKeys) trivial)

theorem saveEncodes (encodes : Encodes text raw db) {keep} (off : keep ≤ -1) {block : Block} {events : List Event}
    {fin removeTemp} (small : block.header.height < 4294967296) {batch}
    (saved : raw.saveBlock text keep block events fin removeTemp = some batch) :
    Encodes text (applyWrites raw batch) (db.saveBlock keep block events fin removeTemp) := by
  simp only [RawDB.saveBlock,bind,Option.bind_eq_some_iff,Option.some.injEq] at saved
  obtain ⟨headerBytes,header,txs,put,eventBytes,eventList,assetBytes,assetList,rfl⟩ := saved
  have pruned : raw.pruneEvents keep fin block.header.height = [] := by
    simp only [RawDB.pruneEvents]
    rw [if_neg (by omega)]
  have kept : ∀ stored, eventsKept keep db.events stored fin block.header.height = stored := by
    intro stored
    simp only [eventsKept]
    rw [if_neg (by omega)]
  have all : ∀ w ∈ txs, w.key.head? = some dbPrefixTxIDToTx := by
    intro w mem
    obtain ⟨tx,made⟩ := forallRight (mapMSome put) w mem
    obtain ⟨data,_,rfl⟩ := Option.map_eq_some_iff.mp made
    rfl
  rw [pruned]
  refine ⟨.filtered ?_,.filtered ?_,.filtered ?_,.filtered ?_,.filtered ?_,.filtered ?_,.filtered ?_,
    (getFiltered (fun _ => rfl) _ []).trans ?_⟩ <;>
    simp +decide only [underAppend,underIf,underSet,underDel,underNil,underAll _ _ all,append_nil,nil_append,
      if_true,if_false,ite_self]
  · exact encodes.blockHeaders.set (c := plainKeys) trivial header
  · exact encodes.blockIDs.set (c := heightKeys) small rfl
  · exact .ite (fun _ => encodes.transactionIDs.set (c := plainKeys) trivial rfl) (fun _ => encodes.transactionIDs)
  · have saved := transactionsSaved encodes.transactions put
    split
    · exact saved
    rename_i absent
    have empty : block.transactions = [] := eq_nil_of_length_eq_zero (by omega)
    rw [empty] at put
    cases put
    exact saved
  · exact .ite (fun _ => encodes.temp.del (c := heightKeys) small) (fun _ => encodes.temp)
  · exact .ite (fun _ => encodes.assets.set (c := plainKeys) trivial assetList) (fun _ => encodes.assets)
  · have same : (db.saveBlock keep block events fin removeTemp).events =
        if events.length > 0 then db.events.set block.header.height events else db.events := kept _
    rw [same]
    exact .ite (fun _ => encodes.events.set (c := heightKeys) small eventList) (fun _ => encodes.events)
  · exact (applyWriteGet raw (.set [dbPrefixFinalizedHeight] _) [dbPrefixFinalizedHeight]).trans (if_pos rfl)

theorem removeEncodes (encodes : Encodes text raw db) {block saveTemp} (small : block.header.height < 4294967296) {batch}
    (removed : RawDB.removeBlock text block saveTemp = some batch) :
    Encodes text (applyWrites raw batch) (db.removeBlock block saveTemp) := by
  simp only [RawDB.removeBlock,bind,Option.bind_eq_some_iff,Option.some.injEq] at removed
  obtain ⟨blockBytes,enc,rfl⟩ := removed
  have all : ∀ w ∈ block.transactions.map (fun tx => (Write.del (dbPrefixTxIDToTx::tx.id) : Write Bytes Bytes)),
      w.key.head? = some dbPrefixTxIDToTx := by
    intro w mem
    obtain ⟨tx,_,rfl⟩ := mem_map.mp mem
    rfl
  refine ⟨.filtered ?_,.filtered ?_,.filtered ?_,.filtered ?_,.filtered ?_,.filtered ?_,.filtered ?_,
    (getFiltered (fun _ => rfl) _ []).trans ?_⟩ <;>
    simp +decide only [underAppend,underIf,underSet,underDel,underNil,underAll _ _ all,append_nil,nil_append,
      if_true,if_false,ite_self]
  · exact encodes.blockHeaders.del (c := plainKeys) trivial
  · exact encodes.blockIDs.del (c := heightKeys) small
  · exact .ite (fun _ => encodes.transactionIDs.del (c := plainKeys) trivial) (fun _ => encodes.transactionIDs)
  · have gone := transactionsRemoved encodes.transactions block.transactions
    split
    · exact gone
    rename_i absent
    have empty : block.transactions = [] := eq_nil_of_length_eq_zero (by omega)
    rw [empty] at gone
    show Family raw _ _ _ (block.transactions.foldl _ _)
    rw [empty]
    exact gone
  · exact .ite (fun _ => encodes.temp.set (c := heightKeys) small enc) (fun _ => encodes.temp)
  · exact .ite (fun _ => encodes.assets.del (c := plainKeys) trivial) (fun _ => encodes.assets)
  · exact encodes.events.del (c := heightKeys) small
  · exact encodes.finalizedHeight

end

/-- An event as it is handed out. The ID is not part of the encoding. -/
structure StoredEvent where
  id : Bytes
  event : Event
  deriving DecidableEq, Repr

def joinSize (size : Nat) (s : List Bytes) : Bytes := (s.flatten ++ List.replicate size 0).take size

def eventIDLengthBytes : Nat := 4 + eventTotalIndexLengthBytes

/-- The ID is returned; the event keeps the one it has. -/
def StoredEvent.updateID (e : StoredEvent) : Bytes × StoredEvent :=
  (joinSize eventTotalIndexLengthBytes [fromUint32 e.event.height,fromUint32 (u32 (e.event.index * 4))], e)

def RawDB.getStoredEvents (text : Normalizer) (db : RawDB) (height : Nat) : Except DataError (List StoredEvent) :=
  (db.getEvents text height).map (fun events => events.map (fun e => (StoredEvent.updateID ⟨[],e⟩).2))

structure Identified (events : List StoredEvent) : Prop where
  distinct : (events.map (·.id)).Nodup
  length : ∀ e ∈ events, e.id.length = eventIDLengthBytes
  recovered : ∃ read : Bytes → Nat × Nat, ∀ e ∈ events, read e.id = (e.event.height, e.event.index)

theorem eventIDsIff (text : Normalizer) (db : RawDB) (returned : List StoredEvent)
    (read : ∀ e ∈ returned, ∃ height events, db.getStoredEvents text height = .ok events ∧ e ∈ events) :
    (Identified returned ↔ returned = []) ∧ ∀ e ∈ returned, e.updateID.1 = fromUint32 e.event.height := by
  have empty : ∀ e ∈ returned, e.id = [] := by
    intro e member
    obtain ⟨height,events,ok,inside⟩ := read e member
    obtain ⟨found,_,rfl⟩ := mapOk ok
    obtain ⟨event,_,rfl⟩ := mem_map.mp inside
    rfl
  refine ⟨⟨fun ids => ?_,?_⟩,fun e _ => ?_⟩
  · cases returned with
    | nil => rfl
    | cons e rest =>
      have size := ids.length e (.head _)
      rw [empty e mem_cons_self] at size
      cases size
  · rintro rfl
    exact ⟨nodup_nil,nofun,fun _ => (0, 0),nofun⟩
  · have size : (fromUint32 e.event.height).length = eventTotalIndexLengthBytes := by simp [fromUint32,eventTotalIndexLengthBytes]
    simp [StoredEvent.updateID,joinSize,← size]

def sampleEventDB : RawDB := OrderedMap.empty.set (dbPrefixBlockHeightToEvents :: fromUint32 1)
  ((encodableListToBytes asciiText (Event.encode asciiText) [⟨"token","mint",[1,2],[[7]],1,3⟩]).getD [])

theorem eventIDMissing : sampleEventDB.getStoredEvents asciiText 1 = .ok [⟨[],⟨"token","mint",[1,2],[[7]],1,3⟩⟩] := by
  decide +kernel

theorem eventIDsSample : ∃ events, sampleEventDB.getStoredEvents asciiText 1 = .ok events ∧ ¬Identified events := by
  have read : sampleEventDB.getStoredEvents asciiText 1 = .ok [⟨[],⟨"token","mint",[1,2],[[7]],1,3⟩⟩] := by decide +kernel
  refine ⟨_,read,fun ids => ?_⟩
  cases (eventIDsIff asciiText sampleEventDB _ (fun e member => ⟨1,_,read,member⟩)).1.mp ids

end LiskEngine.Blockchain
