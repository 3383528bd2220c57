import LiskEngine.BftVotes

/-! The BFT module on the consensus store: genesis state, the update before the
transactions of a block, the parameter and generator key writes, and the reads
of its API. The three prefixes of the store never overlap, so the store is one
overlay for each of them. A read may add clean entries to an overlay's cache;
that changes neither later reads nor the commit and is left out. -/
namespace LiskEngine.Liskbft
open Contradiction Diffdb

structure Generator where
  address : Bytes
  generatorKey : Bytes
  deriving DecidableEq, Repr

structure ConsensusStore where
  votes : Database Unit BFTVotes
  params : Database Nat BFTParams
  keys : Database Nat (List Generator)
  deriving DecidableEq

structure Module where
  batchSize : Nat
  computeValidatorsHash : List BFTValidator → Nat → Bytes

def Module.maxLengthBlock (m : Module) : Nat := 3 * m.batchSize

def ConsensusStore.getVotes (s : ConsensusStore) : Except BftError BFTVotes :=
  match (s.votes.get ()).1 with
  | some v => .ok v
  | none => .error .votesNotFound

def ConsensusStore.setVotes (s : ConsensusStore) (v : BFTVotes) : ConsensusStore :=
  {s with votes := s.votes.set () v}

def getGeneratorKeys (keysStore : Database Nat (List Generator)) (height : Nat) :
    Except BftError (List Generator) :=
  match (keysStore.range 0 height 1 true).1 with
  | [kv] => .ok kv.2
  | _ => .error .generatorKeysNotFound

def deleteAllButLast {V : Type} (store : Database Nat V) : List (Nat × V) → Database Nat V
  | [] => store
  | [_] => store
  | kv :: rest => deleteAllButLast (store.del kv.1) rest

/-- Keeps the greatest key not above the height and removes those below it. -/
def deleteBelow {V : Type} [Inhabited V] (store : Database Nat V) (height : Nat) : Database Nat V :=
  deleteAllButLast store (store.range 0 height (-1) false).1

def deleteBFTParams (paramsStore : Database Nat BFTParams) (height : Nat) : Database Nat BFTParams :=
  deleteBelow paramsStore height

def deleteGeneratorKeys (keysStore : Database Nat (List Generator)) (height : Nat) :
    Database Nat (List Generator) := deleteBelow keysStore height

namespace Module

def initGenesisState (blockHeader : BlockHeader) (store : ConsensusStore) : ConsensusStore :=
  store.setVotes ⟨blockHeader.height,blockHeader.height,blockHeader.height,[],[]⟩

def beforeTransactionsExecute (m : Module) (blockHeader : BlockHeader) (store : ConsensusStore) :
    Except BftError ConsensusStore := do
  let bftVotes ← store.getVotes
  let bftVotes ← bftVotes.insertBlockBFTInfo blockHeader m.maxLengthBlock
  let oldest := (bftVotes.blockBFTInfos.getLast?.map (·.height)).getD 0
  let newest := (bftVotes.blockBFTInfos.head?.map (·.height)).getD 0
  let paramsCache ← (newBFTParamsCache store.params).cache oldest newest
  let bftVotes ← bftVotes.updatePrevotesPrecommits paramsCache
  let bftVotes ← bftVotes.updateMaxHeightPrevoted paramsCache
  let bftVotes ← bftVotes.updateMaxHeightPrecommitted paramsCache
  let bftVotes := bftVotes.updateMaxHeightCertified blockHeader
  let store := store.setVotes bftVotes
  let minHeightBFTParamsRequired := min oldest (u32 (bftVotes.maxHeightCertified + 1))
  .ok {store with
    params := deleteBFTParams store.params minHeightBFTParamsRequired
    keys := deleteGeneratorKeys store.keys minHeightBFTParamsRequired}

end Module

namespace API

def isHeaderContradictingChain (store : ConsensusStore) (header : BlockHeader) : Except BftError Bool := do
  let bftVotes ← store.getVotes
  .ok (bftVotes.contradicting (newBFTBlockHeader header))

def getBFTParameters (store : ConsensusStore) (height : Nat) : Except BftError BFTParams :=
  getBFTParams store.params height

def getBFTHeights (store : ConsensusStore) : Except BftError (Nat × Nat × Nat) := do
  let bftVotes ← store.getVotes
  .ok (bftVotes.maxHeightPrevoted, bftVotes.maxHeightPrecommited, bftVotes.maxHeightCertified)

def nextHeightBFTParameters (store : ConsensusStore) (height : Nat) : Except BftError Nat :=
  match (store.params.range (u32 (height + 1)) maxUint32 1 false).1 with
  | [kv] => .ok kv.1
  | _ => .error .nextParametersNotFound

def currentHeight (v : BFTVotes) : Nat :=
  match v.blockBFTInfos with
  | [] => v.maxHeightPrevoted
  | info :: _ => info.height

def aggregateBFTWeight : Nat → List BFTValidator → Except BftError Nat
  | total, [] => .ok total
  | total, v :: rest =>
    if v.bftWeight = 0 then .error (.invalidBFTWeight v.address)
    else aggregateBFTWeight (u64 (total + v.bftWeight)) rest

def nextActiveValidator (current : List ActiveValidator) (nextHeight : Nat) (v : BFTValidator) :
    ActiveValidator :=
  match ActiveValidator.find current v.address with
  | some original => original
  | none => ⟨v.address,nextHeight,u32 (nextHeight + maxUint32)⟩

def unchangedParams (current : Except BftError BFTParams) (precommitThreshold certificateThreshold : Nat)
    (validators : List BFTValidator) : Bool :=
  match current with
  | .ok currentParams => BFTValidator.equal currentParams.validators validators &&
      currentParams.precommitThreshold == precommitThreshold &&
      currentParams.certificateThreshold == certificateThreshold
  | .error _ => false

/-- An invalid certificate threshold is reported with the precommit threshold, as in the source. -/
def setBFTParameters (m : Module) (store : ConsensusStore) (precommitThreshold certificateThreshold : Nat)
    (validators : List BFTValidator) : Except BftError ConsensusStore := do
  if validators.length > m.batchSize then .error (.invalidValidatorsSize m.batchSize)
  else
    let aggregate ← aggregateBFTWeight 0 validators
    if aggregate / 3 + 1 > precommitThreshold ∨ precommitThreshold > aggregate then
      .error (.invalidPrecommitThreshold precommitThreshold aggregate)
    else if aggregate / 3 + 1 > certificateThreshold ∨ certificateThreshold > aggregate then
      .error (.invalidPrecommitThreshold precommitThreshold aggregate)
    else
      let validators := BFTValidator.sort validators
      let bftVotes ← store.getVotes
      if unchangedParams (getBFTParams store.params (currentHeight bftVotes)) precommitThreshold
          certificateThreshold validators then .ok store
      else
        let nextHeight := u32 (currentHeight bftVotes + 1)
        let params : BFTParams := {
          prevoteThreshold := u64 (aggregate * 2) / 3 + 1
          precommitThreshold := precommitThreshold
          certificateThreshold := certificateThreshold
          validators := validators
          validatorsHash := m.computeValidatorsHash validators certificateThreshold }
        let store := {store with params := store.params.set nextHeight params}
        let active := validators.map (nextActiveValidator bftVotes.activeValidatorsVoteInfo nextHeight)
        .ok (store.setVotes {bftVotes with activeValidatorsVoteInfo := ActiveValidator.sort active})

def setGeneratorKeys (store : ConsensusStore) (generators : List Generator) : Except BftError ConsensusStore := do
  let bftVotes ← store.getVotes
  .ok {store with keys := store.keys.set (u32 (currentHeight bftVotes + 1)) generators}

end API
end LiskEngine.Liskbft
