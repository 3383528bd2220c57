import LiskEngine.Contradiction
import LiskEngine.OrderedMap

/-! Blocks and their storage. Each prefix of the database is a map of its own and
holds typed values instead of their encodings. A batch is applied in the order in
which the source fills it. -/
namespace LiskEngine.Blockchain

structure Transaction where
  id : Bytes
  module : String
  command : String
  nonce : Nat
  fee : Nat
  senderPublicKey : Bytes
  params : Bytes
  signatures : List Bytes
  deriving DecidableEq, Repr

structure BlockAsset where
  module : String
  data : Bytes
  deriving DecidableEq, Repr

structure Event where
  module : String
  name : String
  data : Bytes
  topics : List Bytes
  height : Nat
  index : Nat
  deriving DecidableEq, Repr

def Event.updateIndex (events : List Event) : List Event :=
  events.zipIdx.map (fun e => {e.1 with index := u32 e.2})

def maxEventsPerBlock : Nat := 2 ^ 30

structure Block where
  header : BlockHeader
  transactions : List Transaction
  assets : List BlockAsset
  deriving DecidableEq, Repr

structure BlockDB where
  blockHeaders : OrderedMap Bytes BlockHeader
  blockIDs : OrderedMap Nat Bytes
  transactions : OrderedMap Bytes Transaction
  transactionIDs : OrderedMap Bytes (List Bytes)
  events : OrderedMap Nat (List Event)
  assets : OrderedMap Bytes (List BlockAsset)
  finalizedHeight : Option Nat
  temp : OrderedMap Nat Block
  deriving DecidableEq

def BlockDB.empty : BlockDB :=
  ⟨OrderedMap.empty,OrderedMap.empty,OrderedMap.empty,OrderedMap.empty,OrderedMap.empty,OrderedMap.empty,none,
    OrderedMap.empty⟩

/-- Heights up to which events are dropped; the source keeps all of them for -1. -/
def minEventDeleteHeight (keepEventsForHeights : Int) (finalizedHeight height : Nat) : Int :=
  min (finalizedHeight : Int) (max 0 ((height : Int) - keepEventsForHeights))

def eventsKept (keepEventsForHeights : Int) (stored events : OrderedMap Nat (List Event))
    (finalizedHeight height : Nat) : OrderedMap Nat (List Event) :=
  let upTo := minEventDeleteHeight keepEventsForHeights finalizedHeight height
  if keepEventsForHeights > -1 ∧ upTo > 0 then
    (stored.between 0 upTo.toNat).foldl (fun events kv => events.del kv.1) events
  else events

def BlockDB.saveBlock (db : BlockDB) (keepEventsForHeights : Int) (block : Block) (events : List Event)
    (finalizedHeight : Nat) (removeTemp : Bool) : BlockDB :=
  let height := block.header.height
  { blockHeaders := db.blockHeaders.set block.header.id block.header
    blockIDs := db.blockIDs.set height block.header.id
    transactions := block.transactions.foldl (fun txs tx => txs.set tx.id tx) db.transactions
    transactionIDs := if block.transactions.length > 0 then
        db.transactionIDs.set block.header.id (block.transactions.map (·.id))
      else db.transactionIDs
    events := eventsKept keepEventsForHeights db.events
      (if events.length > 0 then db.events.set height events else db.events) finalizedHeight height
    assets := if block.assets.length > 0 then db.assets.set block.header.id block.assets else db.assets
    finalizedHeight := some finalizedHeight
    temp := if removeTemp then db.temp.del height else db.temp }

def BlockDB.removeBlock (db : BlockDB) (block : Block) (saveTemp : Bool) : BlockDB :=
  let height := block.header.height
  { db with
    blockHeaders := db.blockHeaders.del block.header.id
    blockIDs := db.blockIDs.del height
    transactions := block.transactions.foldl (fun txs tx => txs.del tx.id) db.transactions
    transactionIDs := if block.transactions.length > 0 then db.transactionIDs.del block.header.id
      else db.transactionIDs
    assets := if block.assets.length > 0 then db.assets.del block.header.id else db.assets
    events := db.events.del height
    temp := if saveTemp then db.temp.set height block else db.temp }

end LiskEngine.Blockchain
