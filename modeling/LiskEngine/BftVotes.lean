import LiskEngine.Contradiction
import LiskEngine.DiffdbRange

/-! The vote state of Lisk-BFT: the window of recent block headers with the
weights they collected, the active validators, and how a new header adds
prevotes and precommits. BFT parameters are read through a cache filled for the
heights of the window. -/
namespace LiskEngine.Liskbft
open Contradiction Diffdb

structure ActiveValidator where
  address : Bytes
  minActiveHeight : Nat
  largestHeightPrecommit : Nat
  deriving DecidableEq, Repr

def ActiveValidator.sort (xs : List ActiveValidator) : List ActiveValidator :=
  xs.insertionSort (fun a b => b.address ≤ a.address)

def ActiveValidator.find (xs : List ActiveValidator) (address : Bytes) : Option ActiveValidator :=
  xs.find? (fun a => a.address = address)

structure BFTValidator where
  address : Bytes
  bftWeight : Nat
  blsKey : Bytes
  deriving DecidableEq, Repr

def BFTValidator.find (xs : List BFTValidator) (address : Bytes) : Option BFTValidator :=
  xs.find? (fun v => v.address = address)

def BFTValidator.equal (xs ys : List BFTValidator) : Bool :=
  xs.map (fun v => (v.address, v.bftWeight)) == ys.map (fun v => (v.address, v.bftWeight))

def BFTValidator.sort (xs : List BFTValidator) : List BFTValidator :=
  xs.insertionSort (fun a b => b.address ≤ a.address)

structure BFTParams where
  prevoteThreshold : Nat
  precommitThreshold : Nat
  certificateThreshold : Nat
  validators : List BFTValidator
  validatorsHash : Bytes
  deriving DecidableEq, Repr, Inhabited

structure BFTBlockHeader where
  height : Nat
  generatorAddress : Bytes
  maxHeightGenerated : Nat
  maxHeightPrevoted : Nat
  prevoteWeight : Nat
  precommitWeight : Nat
  deriving DecidableEq, Repr

structure BFTVotes where
  maxHeightPrevoted : Nat
  maxHeightPrecommited : Nat
  maxHeightCertified : Nat
  blockBFTInfos : List BFTBlockHeader
  activeValidatorsVoteInfo : List ActiveValidator
  deriving DecidableEq, Repr

inductive BftError where
  | votesNotFound
  | bftParamsNotFound
  | generatorKeysNotFound
  | bftParametersShouldAlwaysExist
  | validatorNotInParameters (address : Bytes) (height : Nat)
  | invalidValidatorsSize (batchSize : Nat)
  | invalidBFTWeight (address : Bytes)
  | invalidPrecommitThreshold (threshold aggregateBFTWeight : Nat)
  | nextParametersNotFound
  | rewardOnlyForCurrentHeight (currentHeight height : Nat)
  | outOfRange
  deriving DecidableEq, Repr

def getBFTParams (paramsStore : Database Nat BFTParams) (height : Nat) : Except BftError BFTParams :=
  match (paramsStore.range 0 height 1 true).1 with
  | [kv] => .ok kv.2
  | _ => .error .bftParamsNotFound

structure BftParamsCache where
  paramsStore : Database Nat BFTParams
  data : List (Nat × BFTParams)

def newBFTParamsCache (paramsStore : Database Nat BFTParams) : BftParamsCache := ⟨paramsStore,[]⟩

def cachedValue (kv : List (Nat × BFTParams)) (height : Nat) : Except BftError (Nat × BFTParams) :=
  match kv.find? (fun element => element.1 ≤ height) with
  | some element => .ok (height, element.2)
  | none => .error .bftParametersShouldAlwaysExist

def BftParamsCache.listed (c : BftParamsCache) (start stop : Nat) : Except BftError (List (Nat × BFTParams)) := do
  let kv := (c.paramsStore.range start stop (-1) true).1
  if start > 0 then
    let nextLowest ← getBFTParams c.paramsStore start
    .ok (kv ++ [(start, nextLowest)])
  else .ok kv

/-- The loop variable is a 32 bit counter, so a loop up to the greatest height
wraps to zero and never returns normally. -/
def BftParamsCache.cache (c : BftParamsCache) (start stop : Nat) : Except BftError BftParamsCache := do
  let kv ← c.listed start stop
  if stop ≥ maxUint32 then .error .bftParametersShouldAlwaysExist
  else do
    let data ← (List.range' start (stop + 1 - start)).mapM (cachedValue kv)
    .ok {c with data := data ++ c.data}

def BftParamsCache.getParameters (c : BftParamsCache) (height : Nat) : Except BftError BFTParams :=
  match c.data.lookup height with
  | some cached => .ok cached
  | none => getBFTParams c.paramsStore height

def BFTBlockHeader.partialHeader (b : BFTBlockHeader) : BFTPartialBlockHeader :=
  ⟨b.height,b.generatorAddress,b.maxHeightGenerated,b.maxHeightPrevoted⟩

def newBlockBFTInfo (header : BlockHeader) : BFTBlockHeader :=
  ⟨header.height,header.generatorAddress,header.maxHeightGenerated,header.maxHeightPrevoted,0,0⟩

namespace BFTVotes

def insertBlockBFTInfo (v : BFTVotes) (header : BlockHeader) (maxLength : Nat) : Except BftError BFTVotes :=
  match maxLength with
  | 0 => .error .outOfRange
  | room + 1 => .ok {v with blockBFTInfos := newBlockBFTInfo header :: v.blockBFTInfos.take room}

/-- One turn per entry at most: the previous height read from a matching entry is
lower each time. A header only gets here with a previous height below its own. -/
def heightNotPrevotedLoop (infos : List BFTBlockHeader) (newInfo : BFTBlockHeader) : Nat → Nat → Nat
  | 0, _ => u32 ((infos.getLast?.map (·.height)).getD 0 + maxUint32)
  | turns + 1, heightPreviousBlock =>
    match infos[newInfo.height - heightPreviousBlock]? with
    | none => u32 ((infos.getLast?.map (·.height)).getD 0 + maxUint32)
    | some info =>
      if info.generatorAddress ≠ newInfo.generatorAddress ∨ info.maxHeightGenerated ≥ heightPreviousBlock then
        heightPreviousBlock
      else heightNotPrevotedLoop infos newInfo turns info.maxHeightGenerated

def getHeightNotPrevoted (infos : List BFTBlockHeader) (newInfo : BFTBlockHeader) : Nat :=
  heightNotPrevotedLoop infos newInfo infos.length newInfo.maxHeightGenerated

def setLargestHeightPrecommit (address : Bytes) (height : Nat) : List ActiveValidator → List ActiveValidator
  | [] => []
  | a :: rest =>
    if a.address = address then {a with largestHeightPrecommit := height} :: rest
    else a :: setLargestHeightPrecommit address height rest

def addPrecommits (paramsCache : BftParamsCache) (generator : Bytes) (minPrecommitHeight : Nat) :
    Bool → List ActiveValidator → List BFTBlockHeader →
      Except BftError (List BFTBlockHeader × List ActiveValidator)
  | _, active, [] => .ok ([], active)
  | hasPrecommitted, active, info :: rest =>
    if info.height < minPrecommitHeight then .ok (info :: rest, active)
    else do
      let params ← paramsCache.getParameters info.height
      if info.prevoteWeight ≥ params.prevoteThreshold then
        match BFTValidator.find params.validators generator with
        | none => .error (.validatorNotInParameters info.generatorAddress info.height)
        | some bftValidator =>
          let active := if hasPrecommitted then active
            else setLargestHeightPrecommit generator info.height active
          let (infos, active) ← addPrecommits paramsCache generator minPrecommitHeight true active rest
          .ok ({info with precommitWeight := u64 (info.precommitWeight + bftValidator.bftWeight)} :: infos, active)
      else
        let (infos, active) ← addPrecommits paramsCache generator minPrecommitHeight hasPrecommitted active rest
        .ok (info :: infos, active)

def addPrevotes (paramsCache : BftParamsCache) (generator : Bytes) (minPrevoteHeight : Nat) :
    List BFTBlockHeader → Except BftError (List BFTBlockHeader)
  | [] => .ok []
  | info :: rest =>
    if info.height < minPrevoteHeight then .ok (info :: rest)
    else do
      let params ← paramsCache.getParameters info.height
      match BFTValidator.find params.validators generator with
      | none => .error (.validatorNotInParameters info.generatorAddress info.height)
      | some bftValidator =>
        let infos ← addPrevotes paramsCache generator minPrevoteHeight rest
        .ok ({info with prevoteWeight := u64 (info.prevoteWeight + bftValidator.bftWeight)} :: infos)

def updatePrevotesPrecommits (v : BFTVotes) (paramsCache : BftParamsCache) : Except BftError BFTVotes :=
  match v.blockBFTInfos with
  | [] => .ok v
  | newInfo :: _ =>
    if newInfo.maxHeightGenerated ≥ newInfo.height then .ok v
    else match ActiveValidator.find v.activeValidatorsVoteInfo newInfo.generatorAddress with
      | none => .ok v
      | some validatorInfo => do
        let heightNotPrevoted := getHeightNotPrevoted v.blockBFTInfos newInfo
        let minPrecommitHeight := max validatorInfo.minActiveHeight
          (max (u32 (heightNotPrevoted + 1)) (u32 (validatorInfo.largestHeightPrecommit + 1)))
        let (infos, active) ← addPrecommits paramsCache newInfo.generatorAddress minPrecommitHeight false
          v.activeValidatorsVoteInfo v.blockBFTInfos
        let minPrevoteHeight := max (u32 (newInfo.maxHeightGenerated + 1)) validatorInfo.minActiveHeight
        let infos ← addPrevotes paramsCache newInfo.generatorAddress minPrevoteHeight infos
        .ok {v with blockBFTInfos := infos, activeValidatorsVoteInfo := active}

def firstMeeting (paramsCache : BftParamsCache) (meets : BFTParams → BFTBlockHeader → Bool) :
    List BFTBlockHeader → Except BftError (Option Nat)
  | [] => .ok none
  | info :: rest => do
    let params ← paramsCache.getParameters info.height
    if meets params info then .ok (some info.height) else firstMeeting paramsCache meets rest

def meetsPrevote (params : BFTParams) (info : BFTBlockHeader) : Bool :=
  info.prevoteWeight ≥ params.prevoteThreshold

def meetsPrecommit (params : BFTParams) (info : BFTBlockHeader) : Bool :=
  info.precommitWeight ≥ params.precommitThreshold

def updateMaxHeightPrevoted (v : BFTVotes) (paramsCache : BftParamsCache) : Except BftError BFTVotes := do
  let height ← firstMeeting paramsCache meetsPrevote v.blockBFTInfos
  .ok {v with maxHeightPrevoted := height.getD v.maxHeightPrevoted}

def updateMaxHeightPrecommitted (v : BFTVotes) (paramsCache : BftParamsCache) : Except BftError BFTVotes := do
  let height ← firstMeeting paramsCache meetsPrecommit v.blockBFTInfos
  .ok {v with maxHeightPrecommited := height.getD v.maxHeightPrecommited}

def updateMaxHeightCertified (v : BFTVotes) (header : BlockHeader) : BFTVotes :=
  if header.aggregateCommit.empty then v
  else {v with maxHeightCertified := header.aggregateCommit.height}

def contradicting (v : BFTVotes) (header : BFTPartialBlockHeader) : Bool :=
  match v.blockBFTInfos.find? (fun b => b.generatorAddress = header.generatorAddress) with
  | some bftBlock => areDistinctHeadersContradicting bftBlock.partialHeader header
  | none => false

end BFTVotes
end LiskEngine.Liskbft
