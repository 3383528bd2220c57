import LiskEngine.Selector
import LiskEngine.DiffdbViews
import LiskEngine.HeaderCommitments

/-! Block generation. The application is a state machine: a context starts with a header,
and every request in it is answered from the state that the requests before have left. -/
namespace LiskEngine.Labi
open Blockchain

structure App (σ : Type) where
  initStateMachine : BlockHeader → Option σ
  insertAssets : σ → Option (List BlockAsset) × σ
  verifyAssets : σ → List BlockAsset → Option Unit × σ
  beforeTransactionsExecute : σ → List BlockAsset → Consensus → Option (List Event) × σ
  verifyTransaction : σ → Transaction → Option Int × σ
  executeTransaction : σ → List BlockAsset → BlockHeader → Transaction → Option (Int × List Event) × σ
  afterTransactionsExecute : σ → List BlockAsset → Consensus → List Transaction → Option ExecuteResponse × σ
  commit : σ → Bytes → Bytes → Bool → Option Bytes × σ

def txVerifyResultOk : Int := 1

end LiskEngine.Labi

namespace LiskEngine.Generation
open Liskbft Consensus Blockchain Labi Diffdb

def blockVersion : Nat := 2

structure GeneratorInfo where
  height : Nat
  maxHeightPrevoted : Nat
  maxHeightGenerated : Nat
  deriving DecidableEq, Repr, Inhabited

def GeneratorInfo.schema : Codec.Schema := .cons 1 .uint32 (.cons 2 .uint32 (.cons 3 .uint32 .nil))

def GeneratorInfo.value (i : GeneratorInfo) : GeneratorInfo.schema.Value :=
  (i.height, i.maxHeightPrevoted, i.maxHeightGenerated, ())

def GeneratorInfo.ofValue : GeneratorInfo.schema.Value → GeneratorInfo
  | (height, maxHeightPrevoted, maxHeightGenerated, _) => ⟨height,maxHeightPrevoted,maxHeightGenerated⟩

def GeneratorInfo.encode (text : Codec.Normalizer) (i : GeneratorInfo) : Option Bytes := GeneratorInfo.schema.encode text i.value

def GeneratorInfo.decode (text : Codec.Normalizer) (infoBytes : Bytes) : Except Codec.CodecError GeneratorInfo :=
  (GeneratorInfo.schema.decode text infoBytes).map GeneratorInfo.ofValue

def generatorDBPrefixGeneratedInfo : Bytes := [0]

/-- The store of the infos: the prefix is put in front twice. -/
def prevInfoStore : View := (⟨generatorDBPrefixGeneratedInfo⟩ : View).withPrefix generatorDBPrefixGeneratedInfo

abbrev GeneratorDB := OrderedMap Bytes Bytes

/-- The generator's fixed parts. `enabledKeys` holds the generator private keys, and a signature is a function of
the chain ID, the private key and the header. -/
structure Generator where
  engine : Engine
  text : Codec.Normalizer
  sha : Bytes → Bytes
  sign : Bytes → Bytes → BlockHeader → Bytes
  enabledKeys : OrderedMap Bytes Bytes
  maxTransactionsSize : Nat

def Generator.waitThreshold (g : Generator) : Nat := g.engine.blockTime / 5

inductive ForgeError where
  | notForging
  | notEnabled (address : Bytes)
  | bft (e : BftError)
  | consensus (e : ConsensusError)
  | execute (e : ExecuteError)
  | abi
  | codec (e : Codec.CodecError)
  | eventRoot (e : Smt.SmtError)
  | runtimePanic
  deriving DecidableEq, Repr

def orBft {α : Type} : Except BftError α → Except ForgeError α
  | .ok a => .ok a
  | .error e => .error (.bft e)

def orConsensus {α : Type} : Except ConsensusError α → Except ForgeError α
  | .ok a => .ok a
  | .error e => .error (.consensus e)

def orExecute {α : Type} : Except ExecuteError α → Except ForgeError α
  | .ok a => .ok a
  | .error e => .error (.execute e)

def orElse {α : Type} (e : ForgeError) : Option α → Except ForgeError α
  | some a => .ok a
  | none => .error e

def orCodec {α : Type} : Except Codec.CodecError α → Except ForgeError α
  | .ok a => .ok a
  | .error e => .error (.codec e)

def orEventRoot {α : Type} : Except Smt.SmtError α → Except ForgeError α
  | .ok a => .ok a
  | .error e => .error (.eventRoot e)

def getSlotTime (c : Engine) (slot : Nat) : Nat := u32 (c.genesisTimestamp + u32 (slot * c.blockTime))

def Generator.shouldForge (g : Generator) (syncing : Bool) (lastBlock : BlockHeader) (now : Nat) : Bool :=
  let currentTimeslot := g.engine.getSlotNumber (u32 now)
  let lastTimeslot := g.engine.getSlotNumber lastBlock.timestamp
  !syncing && currentTimeslot != lastTimeslot &&
    !(lastTimeslot + 1 < currentTimeslot && now ≤ getSlotTime g.engine currentTimeslot + g.waitThreshold)

section
variable {σ : Type} (app : App σ)

structure StateExecuter (σ : Type) where
  context : σ
  events : List Blockchain.Event

def StateExecuter.verifyTransaction (e : StateExecuter σ) (tx : Transaction) : Bool × StateExecuter σ :=
  match app.verifyTransaction e.context tx with
  | (some result, context) => (result == txVerifyResultOk, {e with context := context})
  | (none, context) => (false, {e with context := context})

def StateExecuter.executeTransaction (header : BlockHeader) (assets : List BlockAsset) (e : StateExecuter σ) (tx : Transaction) :
    Bool × StateExecuter σ :=
  match app.executeTransaction e.context assets header tx with
  | (some (result, events), context) =>
    if result = txExecuteResultInvalid then (false, {e with context := context})
    else (true, ⟨context,e.events ++ events⟩)
  | (none, context) => (false, {e with context := context})

end

/-- What a generation reads besides the application. `now` and `headerNow` are the two readings of the clock. -/
structure Situation where
  chain : Chain
  store : ConsensusStore
  commits : Pool
  processable : List Transaction
  generatorDB : GeneratorDB
  syncing : Bool
  now : Nat
  headerNow : Nat
  visit : List (Bytes × List TransactionWithFeePriority) → List (Bytes × List TransactionWithFeePriority)

def storedInfo (text : Codec.Normalizer) : Option Bytes → Except ForgeError GeneratorInfo
  | none => .ok ⟨0,0,0⟩
  | some infoBytes => orCodec (GeneratorInfo.decode text infoBytes)

def Generator.initBlockHeader (g : Generator) (s : Situation) (lastBlock : BlockHeader)
    (generatorDB : Database Bytes Bytes) (generatorAddress : Bytes) :
    Except ForgeError (BlockHeader × Database Bytes Bytes) := do
  let nextHeight := u32 (lastBlock.height + 1)
  let (maxHeightPrevoted, _, _) ← orBft (API.getBFTHeights s.store)
  let (stored, generatorDB) := prevInfoStore.get generatorDB generatorAddress
  let previousInfo ← storedInfo g.text stored
  let nextInfo : GeneratorInfo := ⟨nextHeight,maxHeightPrevoted,previousInfo.height⟩
  let encodedNextInfo ← orElse .runtimePanic (nextInfo.encode g.text)
  let generatorDB := prevInfoStore.set generatorDB generatorAddress encodedNextInfo
  let aggregateCommit ← orConsensus (getAggregateCommit g.engine s.store s.commits)
  .ok (
    { id := [], version := blockVersion, timestamp := u32 s.headerNow, height := nextHeight
      previousBlockID := lastBlock.id, generatorAddress := generatorAddress
      transactionRoot := [], assetRoot := [], eventRoot := [], stateRoot := []
      maxHeightPrevoted := maxHeightPrevoted, maxHeightGenerated := previousInfo.height
      impliesMaxPrevotes := false, validatorsHash := []
      aggregateCommit := aggregateCommit, signature := [] }, generatorDB)

def filled (partialHeader : BlockHeader) (validatorsHash transactionRoot assetRoot eventRoot stateRoot : Bytes) : BlockHeader :=
  {partialHeader with
    validatorsHash := validatorsHash, transactionRoot := transactionRoot, assetRoot := assetRoot, eventRoot := eventRoot
    stateRoot := stateRoot}

def Generator.signed (g : Generator) (header : BlockHeader) (privateKey : Bytes) : Option BlockHeader :=
  let header := {header with signature := g.sign g.engine.chainID privateKey header}
  (header.encode g.text).map (fun headerBytes => {header with id := g.sha headerBytes})

def Generator.sealBlock (g : Generator) (partialHeader : BlockHeader) (txs : List Transaction) (blockAssets : List BlockAsset)
    (events : List Blockchain.Event) (stateRoot privateKey : Bytes) (store : ConsensusStore) : Except ForgeError Block := do
  let blockAssets := BlockAssets.sort blockAssets
  let params ← orBft (API.getBFTParameters store (u32 (partialHeader.height + 1)))
  let assetRoot ← orElse .runtimePanic (BlockAssets.getRoot g.text g.sha blockAssets)
  let eventRoot ← orEventRoot (calculateEventRoot g.text g.sha events)
  let header := filled partialHeader params.validatorsHash (Rmt.calculateRoot g.sha (txs.map (·.id))) assetRoot eventRoot stateRoot
  let header ← orElse .runtimePanic (g.signed header privateKey)
  .ok ⟨header,txs,blockAssets⟩

def Generator.selectTransactions {σ : Type} (g : Generator) (app : App σ) (s : Situation) (partialHeader : BlockHeader)
    (assets : List BlockAsset) (executer : StateExecuter σ) : Except ForgeError (List Transaction × StateExecuter σ) :=
  if s.processable.length = 0 then .ok ([], executer)
  else orElse .runtimePanic (selectTransactionsByFee g.text g.sha (StateExecuter.verifyTransaction app)
    (StateExecuter.executeTransaction app partialHeader assets) g.maxTransactionsSize s.visit executer s.processable)

def Generator.forge {σ : Type} (g : Generator) (app : App σ) (s : Situation) : Except ForgeError (Block × GeneratorDB) := do
  let lastBlock ← orElse .runtimePanic s.chain.head?
  if !g.shouldForge s.syncing lastBlock s.now then .error .notForging
  else
    let generators ← orBft (getGeneratorKeys s.store.keys (u32 (lastBlock.height + 1)))
    let generator ← orConsensus (atTimestamp g.engine generators (u32 s.now))
    let privateKey ← orElse (.notEnabled generator.address) (g.enabledKeys.get generator.address)
    let (partialHeader, generatorDB) ← g.initBlockHeader s lastBlock (Database.new s.generatorDB) generator.address
    let context ← orElse .abi (app.initStateMachine partialHeader)
    let (inserted, context) := app.insertAssets context
    let assets ← orElse .abi inserted
    let store ← orBft (g.engine.liskBFT.beforeTransactionsExecute partialHeader s.store)
    let consensus ← orExecute (getABIConsensus store partialHeader)
    let (answered, context) := app.beforeTransactionsExecute context assets consensus
    let events ← orElse .abi answered
    let (selectedTxs, executer) ← g.selectTransactions app s partialHeader assets ⟨context,events⟩
    let includingTxs := limitTransactionsWithSize g.text g.maxTransactionsSize 0 selectedTxs
    let (answered, context) := app.afterTransactionsExecute executer.context assets consensus includingTxs
    let resp ← orElse .abi answered
    let events := Event.updateIndex (executer.events ++ resp.events)
    let stateRoot ← orElse .abi (app.commit context lastBlock.stateRoot [] true).1
    let signedBlock ← g.sealBlock partialHeader includingTxs assets events stateRoot privateKey store
    let previousInfo : GeneratorInfo :=
      ⟨signedBlock.header.height,signedBlock.header.maxHeightPrevoted,signedBlock.header.maxHeightGenerated⟩
    let encodedPreviousInfo ← orElse .runtimePanic (previousInfo.encode g.text)
    let generatorDB := prevInfoStore.set generatorDB signedBlock.header.generatorAddress encodedPreviousInfo
    .ok (signedBlock, applyWrites s.generatorDB generatorDB.commit.1)

end LiskEngine.Generation
