import LiskEngine.Blockchain
import LiskEngine.VerifyBlock

/-! Execution of a block against the application. The application is an oracle:
each call gets its request and answers or fails. Calls for the transactions of a
block carry their position, so that equal requests may be answered differently.
`Clear`, whose result the engine ignores, is left out. -/
namespace LiskEngine.Labi
open Blockchain

structure Validator where
  address : Bytes
  bftWeight : Nat
  generatorKey : Bytes
  blsKey : Bytes
  deriving DecidableEq, Repr

structure Consensus where
  currentValidators : List Validator
  implyMaxPrevote : Bool
  maxHeightCertified : Nat
  certificateThreshold : Nat
  deriving DecidableEq, Repr

structure ExecuteResponse where
  events : List Event
  preCommitThreshold : Nat
  certificateThreshold : Nat
  nextValidators : List Validator
  deriving DecidableEq, Repr

def txExecuteResultSuccess : Int := 1

structure ABI where
  initStateMachine : BlockHeader → Option Bytes
  initGenesisState : Bytes → Option ExecuteResponse
  verifyAssets : Bytes → List BlockAsset → Option Unit
  beforeTransactionsExecute : Bytes → List BlockAsset → Consensus → Option (List Event)
  verifyTransaction : Nat → Bytes → Transaction → Option Int
  executeTransaction : Nat → Bytes → List BlockAsset → BlockHeader → Transaction → Option (Int × List Event)
  afterTransactionsExecute : Bytes → List BlockAsset → Consensus → List Transaction → Option ExecuteResponse
  commit : Bytes → Bytes → Bytes → Option Bytes
  revert : Bytes → Bytes → Bytes → Option Bytes

end LiskEngine.Labi

namespace LiskEngine.Consensus
open Liskbft Blockchain Labi

inductive ExecuteError where
  | consensus (e : ConsensusError)
  | bft (e : BftError)
  | abi
  | failedTransaction (id : Bytes)
  | notCurrentHeight (currentHeight height : Nat)
  | invalidValidatorsHash (expected received : Bytes)
  | tooManyEvents (received : Nat)
  | invalidGenesis
  | invalidEventRoot (expected calculated : Bytes)
  | dataNotFound
  | alreadyFinalized (height finalizedHeight : Nat)
  | diffNotFound (height : Nat)
  | genesisCannotBeRemoved
  | runtimePanic
  deriving DecidableEq, Repr

def callABI {α : Type} : Option α → Except ExecuteError α
  | some a => .ok a
  | none => .error .abi

def liftVotes {α : Type} : Except BftError α → Except ExecuteError α
  | .ok a => .ok a
  | .error e => .error (.bft e)

def getBFTValidatorAndGenerators (validators : List Labi.Validator) : List BFTValidator × List Generator :=
  ((validators.filter (fun v => v.bftWeight > 0)).map (fun v => ⟨v.address,v.bftWeight,v.blsKey⟩),
    validators.map (fun v => ⟨v.address,v.generatorKey⟩))

def getLabiValidators (validators : List BFTValidator) (generators : List Generator) : List Labi.Validator :=
  generators.map (fun generator =>
    match BFTValidator.find validators generator.address with
    | some v => ⟨generator.address,v.bftWeight,generator.generatorKey,v.blsKey⟩
    | none => ⟨generator.address,0,generator.generatorKey,[]⟩)

/-- The source's check of the current height against the previous one cannot fail here. -/
def impliesMaximalPrevotes (store : ConsensusStore) (blockHeader : BlockHeader) : Except ExecuteError Bool := do
  let bftVotes ← liftVotes store.getVotes
  match bftVotes.blockBFTInfos with
  | [] => .error .runtimePanic
  | latest :: _ =>
    if blockHeader.height ≠ latest.height then .error (.notCurrentHeight latest.height blockHeader.height)
    else if blockHeader.maxHeightGenerated ≥ blockHeader.height then .ok false
    else
      match bftVotes.blockBFTInfos[latest.height - blockHeader.maxHeightGenerated - 1]? with
      | none => .ok true
      | some bftInfo => .ok (bftInfo.generatorAddress == blockHeader.generatorAddress)

def getABIConsensus (store : ConsensusStore) (header : BlockHeader) : Except ExecuteError Labi.Consensus := do
  let params ← liftVotes (API.getBFTParameters store header.height)
  let generators ← liftVotes (getGeneratorKeys store.keys header.height)
  let implyMaxPrevote ← impliesMaximalPrevotes store header
  let (_, _, maxHeightCertified) ← liftVotes (API.getBFTHeights store)
  .ok ⟨getLabiValidators params.validators generators,implyMaxPrevote,maxHeightCertified,
    params.certificateThreshold⟩

/-- The transactions from a position on. The result of the execution itself is not looked at. -/
def executeTransactions (abi : ABI) (contextID : Bytes) (block : Block) :
    Nat → List Transaction → Except ExecuteError (List Blockchain.Event)
  | _, [] => .ok []
  | i, tx :: rest => do
    let verified ← callABI (abi.verifyTransaction i contextID tx)
    if verified ≠ txExecuteResultSuccess then .error (.failedTransaction tx.id)
    else
      let (_, events) ← callABI (abi.executeTransaction i contextID block.assets block.header tx)
      let later ← executeTransactions abi contextID block (i + 1) rest
      .ok (events ++ later)

def setNextValidators (m : Module) (store : ConsensusStore) (resp : Labi.ExecuteResponse) :
    Except ExecuteError ConsensusStore := do
  let (bftValidators, generators) := getBFTValidatorAndGenerators resp.nextValidators
  let store ← liftVotes (API.setBFTParameters m store resp.preCommitThreshold resp.certificateThreshold bftValidators)
  liftVotes (API.setGeneratorKeys store generators)

def execute (m : Module) (abi : ABI) (contextID : Bytes) (store : ConsensusStore) (block : Block) :
    Except ExecuteError (ConsensusStore × List Blockchain.Event) := do
  let store ← liftVotes (m.beforeTransactionsExecute block.header store)
  let consensus ← getABIConsensus store block.header
  let before ← callABI (abi.beforeTransactionsExecute contextID block.assets consensus)
  let transactions ← executeTransactions abi contextID block 0 block.transactions
  let resp ← callABI (abi.afterTransactionsExecute contextID block.assets consensus block.transactions)
  let events := Blockchain.Event.updateIndex (before ++ transactions ++ resp.events)
  if resp.preCommitThreshold ≠ 0 ∨ resp.certificateThreshold ≠ 0 ∨ resp.nextValidators.length ≠ 0 then
    let store ← setNextValidators m store resp
    .ok (store, events)
  else .ok (store, events)

def executeGenesis (m : Module) (abi : ABI) (contextID : Bytes) (store : ConsensusStore) (block : Block) :
    Except ExecuteError (ConsensusStore × List Blockchain.Event) := do
  let store := Module.initGenesisState block.header store
  let resp ← callABI (abi.initGenesisState contextID)
  let store ← setNextValidators m store resp
  .ok (store, Blockchain.Event.updateIndex resp.events)

end LiskEngine.Consensus
