import LiskEngine.BlockValidate
import LiskEngine.DiffdbHandles

/-! Blocks in the database: the keys and encodings of a block that is saved, what is
deleted with a block that is removed, and the reads that put a block together again.
The database is a map of byte strings. An encoding that panics is `none`. -/
namespace LiskEngine.Blockchain
open Codec
open Diffdb (Write applyWrites iteratePrefix iterateRange)

def idSize : Nat := 32

def dbPrefixBlockIDToBlockHeader : UInt8 := 3
def dbPrefixBlockHeightToBlockID : UInt8 := 4
def dbPrefixBlockIDToTxs : UInt8 := 5
def dbPrefixTxIDToTx : UInt8 := 6
def dbPrefixTemp : UInt8 := 7
def dbPrefixBlockIDToAssets : UInt8 := 8
def dbPrefixBlockHeightToEvents : UInt8 := 9
def dbPrefixFinalizedHeight : UInt8 := 27

abbrev RawDB := OrderedMap Bytes Bytes
abbrev Batch := List (Write Bytes Bytes)

inductive DataError where
  | dataNotFound
  | codec (e : CodecError)
  deriving DecidableEq, Repr

def liftCodec {α : Type} : Except CodecError α → Except DataError α
  | .ok x => .ok x
  | .error e => .error (.codec e)

def toUint32 (bytes : Bytes) : Nat := bytes.foldl (fun n byte => n * 256 + byte.toNat) 0

def Event.ofValue : Event.schema.Value → Event
  | (module, name, data, topics, height, index, _) => ⟨module,name,data,topics,height,index⟩

def bytesListSchema : Schema := .cons 1 .bytesArray .nil

section
variable (text : Normalizer)

def encodableListToBytes {α : Type} (encode : α → Option Bytes) (values : List α) : Option Bytes := do
  let items ← values.mapM encode
  bytesListSchema.encode text (items, ())

def bytesToList {α : Type} (read : Bytes → Except CodecError α) (data : Bytes) : Except CodecError (List α) :=
  if data.length = 0 then .ok []
  else do
    let list ← bytesListSchema.decode text data
    list.1.mapM read

def bytesToAssets (data : Bytes) : Except CodecError (List BlockAsset) :=
  bytesToList text (fun d => (BlockAsset.schema.decode text d).map BlockAsset.ofValue) data

def newEvent (val : Bytes) : Except CodecError Event := (Event.schema.decode text val).map Event.ofValue

def bytesToEvents (data : Bytes) : Except CodecError (List Event) := bytesToList text (newEvent text) data

variable (sha : Bytes → Bytes)

namespace RawDB

def getBlockHeader (db : RawDB) (id : Bytes) : Except DataError BlockHeader :=
  match db.get (dbPrefixBlockIDToBlockHeader :: id) with
  | none => .error .dataNotFound
  | some headerBytes => do
    let decoded ← liftCodec (BlockHeader.schema.decode text headerBytes)
    .ok {BlockHeader.ofValue decoded with id := sha headerBytes}

/-- The bytes are decoded twice; the ID stays that of the first time. -/
def getTransaction (db : RawDB) (id : Bytes) : Except DataError Transaction :=
  match db.get (dbPrefixTxIDToTx :: id) with
  | none => .error .dataNotFound
  | some txBytes => do
    let tx ← liftCodec (newTransaction text sha txBytes)
    let decoded ← liftCodec (Transaction.schema.decode text txBytes)
    .ok {Transaction.ofValue decoded with id := tx.id}

def getTransactions (db : RawDB) (blockID : Bytes) : Except DataError (List Transaction) :=
  match db.get (dbPrefixBlockIDToTxs :: blockID) with
  | none => .ok []
  | some txIDs => (List.range (txIDs.length / idSize)).mapM
      (fun i => db.getTransaction text sha ((txIDs.drop (i * idSize)).take idSize))

def getBlockAssets (db : RawDB) (blockID : Bytes) : Except DataError (List BlockAsset) :=
  match db.get (dbPrefixBlockIDToAssets :: blockID) with
  | none => .ok []
  | some assets => liftCodec (bytesToAssets text assets)

def getBlock (db : RawDB) (id : Bytes) : Except DataError Block := do
  let header ← db.getBlockHeader text sha id
  let txs ← db.getTransactions text sha id
  let assets ← db.getBlockAssets text id
  .ok ⟨header,txs,assets⟩

def getBlockByHeight (db : RawDB) (height : Nat) : Except DataError Block :=
  match db.get (dbPrefixBlockHeightToBlockID :: fromUint32 height) with
  | none => .error .dataNotFound
  | some id => db.getBlock text sha id

def getEvents (db : RawDB) (height : Nat) : Except DataError (List Event) :=
  match db.get (dbPrefixBlockHeightToEvents :: fromUint32 height) with
  | none => .error .dataNotFound
  | some encodedEvents => liftCodec (bytesToEvents text encodedEvents)

def getTempBlocks (db : RawDB) : Except DataError (List Block) :=
  liftCodec ((iteratePrefix db [dbPrefixTemp] (-1) true).mapM (fun kv => newBlock text sha kv.2))

def pruneEvents (db : RawDB) (keepEventsForHeights : Int) (finalizedHeight height : Nat) : Batch :=
  let upTo := minEventDeleteHeight keepEventsForHeights finalizedHeight height
  if keepEventsForHeights > -1 ∧ upTo > 0 then
    (iterateRange db (dbPrefixBlockHeightToEvents :: fromUint32 0)
      (dbPrefixBlockHeightToEvents :: fromUint32 upTo.toNat) (-1) false).map (fun kv => .del kv.1)
  else []

def saveBlock (db : RawDB) (keepEventsForHeights : Int) (block : Block) (events : List Event) (finalizedHeight : Nat)
    (removeTemp : Bool) : Option Batch := do
  let height := fromUint32 block.header.height
  let encodedBlockHeader ← block.header.encode text
  let txs ← block.transactions.mapM (fun tx => (tx.encode text).map (Write.set (dbPrefixTxIDToTx :: tx.id)))
  let eventBytes ← encodableListToBytes text (Event.encode text) events
  let assetBytes ← encodableListToBytes text (BlockAsset.encode text) block.assets
  some ([.set (dbPrefixBlockIDToBlockHeader :: block.header.id) encodedBlockHeader,
      .set (dbPrefixBlockHeightToBlockID :: height) block.header.id] ++
    (if block.transactions.length > 0 then
      txs ++ [.set (dbPrefixBlockIDToTxs :: block.header.id) (block.transactions.map (·.id)).flatten] else []) ++
    (if events.length > 0 then [.set (dbPrefixBlockHeightToEvents :: height) eventBytes] else []) ++
    (if block.assets.length > 0 then [.set (dbPrefixBlockIDToAssets :: block.header.id) assetBytes] else []) ++
    [.set [dbPrefixFinalizedHeight] (fromUint32 finalizedHeight)] ++
    db.pruneEvents keepEventsForHeights finalizedHeight block.header.height ++
    (if removeTemp then [.del (dbPrefixTemp :: height)] else []))

def removeBlock (block : Block) (saveTemp : Bool) : Option Batch := do
  let height := fromUint32 block.header.height
  let encodedBlock ← block.encode text
  some ([.del (dbPrefixBlockIDToBlockHeader :: block.header.id),.del (dbPrefixBlockHeightToBlockID :: height)] ++
    (if block.transactions.length > 0 then block.transactions.map (fun tx => .del (dbPrefixTxIDToTx :: tx.id)) ++
      [.del (dbPrefixBlockIDToTxs :: block.header.id)] else []) ++
    (if block.assets.length > 0 then [.del (dbPrefixBlockIDToAssets :: block.header.id)] else []) ++
    [.del (dbPrefixBlockHeightToEvents :: height)] ++
    (if saveTemp then [.set (dbPrefixTemp :: height) encodedBlock] else []))

end RawDB

end

end LiskEngine.Blockchain
