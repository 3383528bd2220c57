import LiskEngine.BftModule

/-! Certificates: single commits and their pool, aggregation bits, the aggregate
commit a node produces and the check of an aggregate commit it receives. The
BLS library, the encoding of the signed certificate and the hash are parameters. -/
namespace LiskEngine.Consensus
open Liskbft

structure Certificate where
  blockID : Bytes
  height : Nat
  timestamp : Nat
  stateRoot : Bytes
  validatorsHash : Bytes
  aggregationBits : Bytes
  signature : Bytes
  deriving DecidableEq, Repr

def newCertificateFromBlock (h : BlockHeader) : Certificate :=
  ⟨h.id,h.height,h.timestamp,h.stateRoot,h.validatorsHash,[],[]⟩

structure SingleCommit where
  blockID : Bytes
  height : Nat
  validatorAddress : Bytes
  certificateSignature : Bytes
  internal : Bool
  deriving DecidableEq, Repr

structure Pool where
  nonGossiped : List SingleCommit
  gossiped : List SingleCommit
  deriving DecidableEq, Repr

def Pool.get (p : Pool) (height : Nat) : List SingleCommit :=
  p.gossiped.filter (fun c => c.height = height) ++ p.nonGossiped.filter (fun c => c.height = height)

structure Bls where
  aggregate : List Bytes → Bytes
  fastAggregateVerify : List Bytes → Bytes → Bytes → Bool

inductive ConsensusError where
  | bft (e : BftError)
  | aggregateCommitEmpty
  | notStrictlyIncreasing (maxHeightCertified height : Nat)
  | aboveMaxHeightPrecommited (height maxHeightPrecommited : Nat)
  | aboveNextBFTParams (height heightNextBFTParams : Nat)
  | blockNotFound
  | invalidCertificate
  | noSingleCommit
  | blsKeyNotFound (address : Bytes)
  | invalidVersion (version : Nat)
  | notConsecutive (height lastHeight : Nat)
  | invalidPreviousBlockID (id : Bytes)
  | futureBlock (timestamp : Nat)
  | pastBlockSlot (timestamp : Nat)
  | invalidGenerator (expected received : Bytes)
  | invalidMaxHeightPrevoted (expected received : Nat)
  | contradictingHeader (generator : Bytes) (height maxHeightPrevoted maxHeightGenerated : Nat)
  | invalidSignature (signature lastGenerator : Bytes)
  | runtimePanic
  deriving DecidableEq, Repr

def liftBft {α : Type} : Except BftError α → Except ConsensusError α
  | .ok a => .ok a
  | .error e => .error (.bft e)

def writeBit (bits : Bytes) (i : Nat) : Bytes :=
  bits.modify (i / 8) (fun byte => byte ||| ((1 : UInt8) <<< UInt8.ofNat (i % 8)))

/-- Reading past the end of the bits is an index error in the source. -/
def readBit (bits : Bytes) (i : Nat) : Option Bool :=
  (bits[i / 8]?).map (fun byte => (byte >>> UInt8.ofNat (i % 8)) % 2 == 1)

def writeKeyBit (keysList : List Bytes) (bits : Bytes) (pair : Bytes × Bytes) : Bytes :=
  match keysList.findIdx? (fun key => key = pair.1) with
  | some keyIndex => writeBit bits keyIndex
  | none => bits

def blsCreateAggSig (bls : Bls) (keysList : List Bytes) (pairs : List (Bytes × Bytes)) : Bytes × Bytes :=
  let aggregationBits := pairs.foldl (writeKeyBit keysList) (List.replicate ((keysList.length + 7) / 8) 0)
  (aggregationBits, bls.aggregate (pairs.map Prod.snd))

/-- Keys at the set positions and their weights summed modulo 2^64, from a given
position on. -/
def selectKeys (bits : Bytes) : Nat → List (Bytes × Nat) → Option (List Bytes × Nat)
  | _, [] => some ([], 0)
  | i, entry :: rest =>
    match readBit bits i with
    | none => none
    | some chosen =>
      match selectKeys bits (i + 1) rest with
      | none => none
      | some (keys, weight) =>
        if chosen then some (entry.1 :: keys, u64 (entry.2 + weight)) else some (keys, weight)

def blsVerifyWeightedAggSig (bls : Bls) (entries : List (Bytes × Nat)) (aggregationBits signature : Bytes)
    (threshold : Nat) (message : Bytes) : Except ConsensusError Bool :=
  match selectKeys aggregationBits 0 entries with
  | none => .error .runtimePanic
  | some (keys, weightSum) =>
    if weightSum < threshold then .ok false else .ok (bls.fastAggregateVerify keys message signature)

structure AddressKeyPair where
  address : Bytes
  blsKey : Bytes
  deriving DecidableEq, Repr

def AddressKeyPair.sort (kps : List AddressKeyPair) : List AddressKeyPair :=
  kps.insertionSort (fun a b => b.blsKey ≤ a.blsKey)

def AddressKeyPair.find (kps : List AddressKeyPair) (address : Bytes) : Option Bytes :=
  (kps.find? (fun kp => kp.address = address)).map (·.blsKey)

def signaturePairs (keypairs : List AddressKeyPair) :
    List SingleCommit → Except ConsensusError (List (Bytes × Bytes))
  | [] => .ok []
  | commit :: rest =>
    match AddressKeyPair.find keypairs commit.validatorAddress with
    | none => .error (.blsKeyNotFound commit.validatorAddress)
    | some blsKey => do
      let pairs ← signaturePairs keypairs rest
      .ok ((blsKey, commit.certificateSignature) :: pairs)

def aggregateCommits (bls : Bls) (commits : List SingleCommit) (keypairs : List AddressKeyPair) :
    Except ConsensusError AggregateCommit :=
  match commits with
  | [] => .error .noSingleCommit
  | first :: _ => do
    let keypairs := AddressKeyPair.sort keypairs
    let pairs ← signaturePairs keypairs commits
    let (bits, signature) := blsCreateAggSig bls (keypairs.map (·.blsKey)) pairs
    .ok ⟨first.height,bits,signature⟩

structure Engine where
  liskBFT : Module
  bls : Bls
  chainID : Bytes
  certificateMessage : Bytes → Certificate → Bytes
  genesisTimestamp : Nat
  blockTime : Nat
  verifySignature : BlockHeader → Bytes → Bytes → Bool

abbrev Chain := List BlockHeader

def getBlockHeaderByHeight (chain : Chain) (height : Nat) : Except ConsensusError BlockHeader :=
  match chain.find? (fun b => b.height = height) with
  | some b => .ok b
  | none => .error .blockNotFound

structure ValidatorWithBLSKey where
  address : Bytes
  bftWeight : Nat
  blsKey : Bytes
  deriving DecidableEq, Repr

def ValidatorWithBLSKey.sort (vs : List ValidatorWithBLSKey) : List ValidatorWithBLSKey :=
  vs.insertionSort (fun a b => a.blsKey ≤ b.blsKey)

def validatorsWithBLSKey (params : BFTParams) : List ValidatorWithBLSKey :=
  ValidatorWithBLSKey.sort (params.validators.map (fun v => ⟨v.address,v.bftWeight,v.blsKey⟩))

def nextParametersResult (store : ConsensusStore) (height : Nat) : Bool × Nat :=
  match API.nextHeightBFTParameters store height with
  | .ok next => (false, next)
  | .error _ => (true, 0)

def verifyCertificate (c : Engine) (chain : Chain) (store : ConsensusStore) (aggregateCommit : AggregateCommit) :
    Except ConsensusError Unit := do
  let header ← getBlockHeaderByHeight chain aggregateCommit.height
  let params ← liftBft (API.getBFTParameters store aggregateCommit.height)
  let entries := (validatorsWithBLSKey params).map (fun v => (v.blsKey, v.bftWeight))
  let valid ← blsVerifyWeightedAggSig c.bls entries aggregateCommit.aggregationBits
    aggregateCommit.certificateSignature params.certificateThreshold
    (c.certificateMessage c.chainID (newCertificateFromBlock header))
  if valid then .ok () else .error .invalidCertificate

/-- The height of the next parameters is compared when their lookup failed, not when it succeeded. -/
def verifyAggregateCommit (c : Engine) (chain : Chain) (store : ConsensusStore) (aggregateCommit : AggregateCommit) :
    Except ConsensusError Unit := do
  let (_, maxHeightPrecommited, maxHeightCertified) ← liftBft (API.getBFTHeights store)
  if aggregateCommit.empty ∧ aggregateCommit.height = maxHeightCertified then .ok ()
  else if aggregateCommit.aggregationBits.length = 0 ∨ aggregateCommit.certificateSignature.length = 0 then
    .error .aggregateCommitEmpty
  else if aggregateCommit.height ≤ maxHeightCertified then
    .error (.notStrictlyIncreasing maxHeightCertified aggregateCommit.height)
  else if aggregateCommit.height > maxHeightPrecommited then
    .error (.aboveMaxHeightPrecommited aggregateCommit.height maxHeightPrecommited)
  else
    let next := nextParametersResult store (u32 (maxHeightCertified + 1))
    if next.1 ∧ aggregateCommit.height > u32 (next.2 + maxUint32) then
      .error (.aboveNextBFTParams aggregateCommit.height next.2)
    else verifyCertificate c chain store aggregateCommit

def commitsWeight (params : BFTParams) : Nat → List SingleCommit → Except ConsensusError Nat
  | total, [] => .ok total
  | total, commit :: rest =>
    match BFTValidator.find params.validators commit.validatorAddress with
    | none => .error .runtimePanic
    | some v => commitsWeight params (u64 (total + v.bftWeight)) rest

def aggregateFrom (c : Engine) (store : ConsensusStore) (pool : Pool) (maxHeightCertified : Nat) :
    Nat → Except ConsensusError AggregateCommit
  | 0 => .ok ⟨maxHeightCertified,[],[]⟩
  | nextHeight + 1 =>
    if nextHeight + 1 ≤ maxHeightCertified then .ok ⟨maxHeightCertified,[],[]⟩
    else
      let commits := pool.get (nextHeight + 1)
      if commits.length = 0 then aggregateFrom c store pool maxHeightCertified nextHeight
      else do
        let params ← liftBft (API.getBFTParameters store (nextHeight + 1))
        let weight ← commitsWeight params 0 commits
        if weight < params.certificateThreshold then aggregateFrom c store pool maxHeightCertified nextHeight
        else aggregateCommits c.bls commits (params.validators.map (fun v => ⟨v.address,v.blsKey⟩))

def getAggregateCommit (c : Engine) (store : ConsensusStore) (pool : Pool) :
    Except ConsensusError AggregateCommit := do
  let (_, maxHeightPrecommited, maxHeightCertified) ← liftBft (API.getBFTHeights store)
  let next := nextParametersResult store (u32 (maxHeightCertified + 1))
  let nextHeight := if next.1 then maxHeightPrecommited else min (u32 (next.2 + maxUint32)) maxHeightPrecommited
  aggregateFrom c store pool maxHeightCertified nextHeight

end LiskEngine.Consensus
