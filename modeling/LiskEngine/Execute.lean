import LiskEngine.AbiCaller
import LiskEngine.BftRun

/-! The executer of one node: genesis block, blocks added on the tip and the tip
deleted again. The block cache holds every block of the current chain, newest
first, so the last block is always there. Publishing and logging are left out. -/
namespace LiskEngine.Consensus
open Liskbft Blockchain Labi Diffdb

structure StateDiff where
  votes : Diff Unit BFTVotes
  params : Diff Nat BFTParams
  keys : Diff Nat (List Generator)
  deriving DecidableEq

structure StateDB where
  votes : OrderedMap Unit BFTVotes
  params : OrderedMap Nat BFTParams
  keys : OrderedMap Nat (List Generator)
  deriving DecidableEq

structure NodeDB where
  blocks : BlockDB
  state : StateDB
  stateDiff : OrderedMap Nat StateDiff
  deriving DecidableEq

structure Node where
  db : NodeDB
  cache : List Block
  deriving DecidableEq

structure Executer where
  engine : Engine
  genesisHeight : Nat
  keepEventsForHeights : Int
  validateGenesis : Block → Bool
  calculateEventRoot : List Blockchain.Event → Option Bytes

def newStore (state : StateDB) : ConsensusStore :=
  ⟨Database.new state.votes,Database.new state.params,Database.new state.keys⟩

def storeDiff (store : ConsensusStore) : StateDiff :=
  ⟨store.votes.commit.2,store.params.commit.2,store.keys.commit.2⟩

def StateDB.commit (state : StateDB) (store : ConsensusStore) : StateDB :=
  ⟨applyWrites state.votes store.votes.commit.1,applyWrites state.params store.params.commit.1,
    applyWrites state.keys store.keys.commit.1⟩

def StateDB.revertDiff (state : StateDB) (diff : StateDiff) : StateDB :=
  ⟨applyWrites state.votes (Diffdb.revertDiff diff.votes),applyWrites state.params (Diffdb.revertDiff diff.params),
    applyWrites state.keys (Diffdb.revertDiff diff.keys)⟩

def liftConsensus {α : Type} : Except ConsensusError α → Except ExecuteError α
  | .ok a => .ok a
  | .error e => .error (.consensus e)

def ensure (condition : Bool) (e : ExecuteError) : Except ExecuteError Unit :=
  if condition then .ok () else .error e

def found {α : Type} : Option α → ExecuteError → Except ExecuteError α
  | some a, _ => .ok a
  | none, e => .error e

def deleteFinalizedDiffs (stored diffs : OrderedMap Nat StateDiff) (maxHeightPrecommited : Nat) :
    OrderedMap Nat StateDiff :=
  (stored.entries.filter (fun kv => kv.1 < maxHeightPrecommited)).foldl (fun diffs kv => diffs.del kv.1) diffs

def addBlock (c : Executer) (n : Node) (state : StateDB) (stateDiff : OrderedMap Nat StateDiff) (block : Block)
    (events : List Blockchain.Event) (finalizedHeight : Nat) (removeTemp : Bool) : Node :=
  ⟨⟨n.db.blocks.saveBlock c.keepEventsForHeights block events finalizedHeight removeTemp,state,stateDiff⟩,
    block :: n.cache⟩

def finalize (currentFinalizedHeight maxHeightPrecommited : Nat) (stored diffs : OrderedMap Nat StateDiff) :
    Nat × OrderedMap Nat StateDiff :=
  if maxHeightPrecommited > currentFinalizedHeight then
    (maxHeightPrecommited, deleteFinalizedDiffs stored diffs maxHeightPrecommited)
  else (currentFinalizedHeight, diffs)

def processValidated (c : Executer) (abi : ABI) (now : Nat) (n : Node) (block : Block) (removeTemp : Bool) :
    Except ExecuteError Node := do
  let consensusStore := newStore n.db.state
  liftConsensus (verifyBlock c.engine now (n.cache.map (·.header)) consensusStore block.header)
  let contextID ← callABI (abi.initStateMachine block.header)
  callABI (abi.verifyAssets contextID block.assets)
  let (consensusStore, events) ← execute c.engine.liskBFT abi contextID consensusStore block
  let resultParams ← liftVotes (API.getBFTParameters consensusStore (u32 (block.header.height + 1)))
  ensure (resultParams.validatorsHash == block.header.validatorsHash)
    (.invalidValidatorsHash block.header.validatorsHash resultParams.validatorsHash)
  ensure (events.length ≤ maxEventsPerBlock) (.tooManyEvents events.length)
  let currentFinalizedHeight ← found n.db.blocks.finalizedHeight .dataNotFound
  let (_, maxHeightPrecommited, _) ← liftVotes (API.getBFTHeights consensusStore)
  let stateDiff := n.db.stateDiff.set block.header.height (storeDiff consensusStore)
  let lastBlock ← found n.cache.head? .runtimePanic
  let _ ← callABI (abi.commit contextID lastBlock.header.stateRoot block.header.stateRoot)
  let (nextFinalizedHeight, stateDiff) :=
    finalize currentFinalizedHeight maxHeightPrecommited n.db.stateDiff stateDiff
  .ok (addBlock c n (n.db.state.commit consensusStore) stateDiff block events nextFinalizedHeight removeTemp)

def processGenesisBlock (c : Executer) (abi : ABI) (n : Node) (block : Block) : Except ExecuteError Node := do
  ensure (c.validateGenesis block) .invalidGenesis
  let contextID ← callABI (abi.initStateMachine block.header)
  let (consensusStore, events) ← executeGenesis c.engine.liskBFT abi contextID (newStore n.db.state) block
  let resultParams ← liftVotes (API.getBFTParameters consensusStore (u32 (block.header.height + 1)))
  ensure (resultParams.validatorsHash == block.header.validatorsHash)
    (.invalidValidatorsHash block.header.validatorsHash resultParams.validatorsHash)
  let calculatedEventRoot ← found (c.calculateEventRoot events) .runtimePanic
  ensure (calculatedEventRoot == block.header.eventRoot)
    (.invalidEventRoot block.header.eventRoot calculatedEventRoot)
  let stateDiff := n.db.stateDiff.set block.header.height (storeDiff consensusStore)
  let _ ← callABI (abi.commit contextID [] block.header.stateRoot)
  .ok (addBlock c n (n.db.state.commit consensusStore) stateDiff block events block.header.height false)

def getHeaderByHeight (n : Node) (height : Nat) : Except ExecuteError BlockHeader :=
  found ((n.cache.map (·.header)).find? (fun h => h.height = height)) .dataNotFound

def deleteBlock (c : Executer) (abi : ABI) (n : Node) (saveTemp : Bool) : Except ExecuteError Node := do
  let deletingBlock ← found n.cache.head? .runtimePanic
  let height := deletingBlock.header.height
  let finalizedHeight ← found n.db.blocks.finalizedHeight .dataNotFound
  ensure (finalizedHeight < height) (.alreadyFinalized height finalizedHeight)
  let secondLastBlock ← getHeaderByHeight n (u32 (height + maxUint32))
  let contextID ← callABI (abi.initStateMachine deletingBlock.header)
  let diff ← found (n.db.stateDiff.get height) (.diffNotFound height)
  let _ ← callABI (abi.revert contextID deletingBlock.header.stateRoot secondLastBlock.stateRoot)
  ensure (height != c.genesisHeight) .genesisCannotBeRemoved
  .ok ⟨⟨n.db.blocks.removeBlock deletingBlock saveTemp,n.db.state.revertDiff diff,n.db.stateDiff.del height⟩,
    n.cache.tail⟩

inductive Operation where
  | processValidated (abi : ABI) (now : Nat) (block : Block) (removeTemp : Bool)
  | deleteBlock (abi : ABI) (saveTemp : Bool)

def Operation.result (c : Executer) (n : Node) : Operation → Except ExecuteError Node
  | .processValidated abi now block removeTemp => Consensus.processValidated c abi now n block removeTemp
  | .deleteBlock abi saveTemp => Consensus.deleteBlock c abi n saveTemp

def Node.step (c : Executer) (n : Node) (o : Operation) : Node :=
  match o.result c n with
  | .ok n' => n'
  | .error _ => n

def Node.run (c : Executer) (n : Node) (operations : List Operation) : Node :=
  operations.foldl (Node.step c) n

def emptyNode : Node :=
  ⟨⟨BlockDB.empty,⟨OrderedMap.empty,OrderedMap.empty,OrderedMap.empty⟩,OrderedMap.empty⟩,[]⟩

end LiskEngine.Consensus
