import LiskEngine.AggregateCommits
import LiskEngine.CodecRoundTrip

/-! The pool of single commits: commits that come in messages, the heights a broadcast keeps
and the commits it selects. -/
namespace LiskEngine.Consensus
open Liskbft
open Codec (Schema Normalizer CodecError)

def commitRangeStored : Nat := 100
def idLength : Nat := 32
def addressLength : Nat := 20
def blsSignatureLength : Nat := 96

inductive CommitError where
  | invalidBlockIDLength
  | invalidAddressLength
  | invalidBLSSignatureLength
  deriving DecidableEq, Repr

namespace SingleCommit

def schema : Schema := .cons 1 .bytes (.cons 2 .uint32 (.cons 3 .bytes (.cons 4 .bytes .nil)))

/-- Decoding leaves no nil pointer in a list. -/
def ofValue (e : Option schema.Value) : SingleCommit :=
  match e.getD schema.zero with
  | (blockID, height, validatorAddress, certificateSignature, _) =>
    ⟨blockID,height,validatorAddress,certificateSignature,false⟩

def validate (c : SingleCommit) : Except CommitError Unit :=
  if c.blockID.length ≠ idLength then .error .invalidBlockIDLength
  else if c.validatorAddress.length ≠ addressLength then .error .invalidAddressLength
  else if c.certificateSignature.length ≠ blsSignatureLength then .error .invalidBLSSignatureLength
  else .ok ()

end SingleCommit

namespace SingleCommits

def has (s : List SingleCommit) (val : SingleCommit) : Bool :=
  s.any (fun commit => commit.blockID = val.blockID ∧ commit.validatorAddress = val.validatorAddress)

def getUntil (s : List SingleCommit) (height : Nat) : List SingleCommit := s.takeWhile (fun commit => commit.height < height)

def largestLoop (limit : Nat) (internal : Bool) : List SingleCommit → List SingleCommit → List SingleCommit
  | [], result => result
  | commit :: rest, result =>
    let result := if commit.internal = internal then result ++ [commit] else result
    if limit ≤ result.length then result else largestLoop limit internal rest result

def getLargestWithLimit (s : List SingleCommit) (limit : Nat) (internal : Bool) : List SingleCommit :=
  largestLoop limit internal s.reverse []

def sort (s : List SingleCommit) : List SingleCommit := s.insertionSort (fun a b => a.height ≤ b.height)

end SingleCommits

def eventPostSingleCommitsSchema : Schema := .cons 1 (.messageArray SingleCommit.schema) .nil

def decodePostSingleCommits (text : Normalizer) (data : Bytes) : Except CodecError (List SingleCommit) :=
  (Schema.decodeStrict text eventPostSingleCommitsSchema data).map (fun value => value.1.map SingleCommit.ofValue)

namespace Pool

def new : Pool := ⟨[],[]⟩

def commits (p : Pool) : List SingleCommit := p.gossiped ++ p.nonGossiped

def has (p : Pool) (val : SingleCommit) : Bool := SingleCommits.has p.gossiped val || SingleCommits.has p.nonGossiped val

def add (p : Pool) (val : SingleCommit) : Pool := {p with nonGossiped := p.nonGossiped ++ [val]}

def select (p : Pool) (maxHeightPrecommited limit : Nat) : Pool × List SingleCommit :=
  let max := if maxHeightPrecommited > commitRangeStored then maxHeightPrecommited - commitRangeStored else 0
  let p := {p with nonGossiped := SingleCommits.sort p.nonGossiped}
  let result := SingleCommits.getUntil p.nonGossiped max
  if limit ≤ result.length then (p, result.take limit)
  else
    let p := {p with gossiped := SingleCommits.sort p.gossiped}
    let result := result ++ SingleCommits.getUntil p.gossiped max
    if limit ≤ result.length then (p, result.take limit)
    else
      let result := result ++ SingleCommits.getLargestWithLimit p.nonGossiped (limit - result.length) true
      if limit ≤ result.length then (p, result.take limit)
      else
        let result := result ++ SingleCommits.getLargestWithLimit p.nonGossiped (limit - result.length) false
        (p, result.take limit)

end Pool

structure SingleBls where
  sign : Bytes → Bytes → Bytes
  verify : Bytes → Bytes → Bytes → Bool

inductive ValidationResult where
  | reject
  | ignore
  deriving DecidableEq, Repr

def existBFTParameters (store : ConsensusStore) (height : Nat) : Bool := (store.params.get height).1.isSome

def getMaxRemovalHeight (h : BlockHeader) : Nat := h.aggregateCommit.height

section
variable (c : Engine) (bls : SingleBls) (state : ChainState)

def checkSingleCommit (commit : SingleCommit) : Except ValidationResult Bool :=
  match API.getBFTHeights state.store with
  | .error _ => .error .ignore
  | .ok (_, maxHeightPrecommited, _) =>
    match getBlockHeaderByHeight state.blocks maxHeightPrecommited with
    | .error _ => .error .ignore
    | .ok finalizedBlockHeader =>
      if commit.height ≤ getMaxRemovalHeight finalizedBlockHeader then .ok false
      else if (commit.height < u32 (maxHeightPrecommited + 2 ^ 32 - commitRangeStored) ∨ commit.height > maxHeightPrecommited) ∧
          !existBFTParameters state.store commit.height then .ok false
      else
        match getBlockHeaderByHeight state.blocks commit.height with
        | .error _ => .error .ignore
        | .ok blockHeader =>
          if blockHeader.id ≠ commit.blockID then .ok false
          else
            match API.getBFTParameters state.store commit.height with
            | .error _ => .error .ignore
            | .ok params =>
              match BFTValidator.find params.validators commit.validatorAddress with
              | none => .error .reject
              | some validator =>
                if bls.verify (c.certificateMessage c.chainID (newCertificateFromBlock blockHeader)) commit.certificateSignature
                    validator.blsKey then .ok true
                else .error .reject

def singleCommitLoop (pool : Pool) : List SingleCommit → Pool × ValidationResult
  | [] => (pool, .ignore)
  | commit :: rest =>
    match commit.validate with
    | .error _ => (pool, .reject)
    | .ok () =>
      if pool.has commit then singleCommitLoop pool rest
      else
        match checkSingleCommit c bls state commit with
        | .error result => (pool, result)
        | .ok false => singleCommitLoop pool rest
        | .ok true => singleCommitLoop (pool.add commit) rest

def singleCommitValidator (text : Normalizer) (pool : Pool) (data : Bytes) : Pool × ValidationResult :=
  match decodePostSingleCommits text data with
  | .error _ => (pool, .reject)
  | .ok commits => singleCommitLoop c bls state pool commits

def keepsHeight (maxHeightPrecommited removeHeight h : Nat) : Bool :=
  if h ≤ removeHeight then false
  else if ¬(u32 (maxHeightPrecommited + 2 ^ 32 - commitRangeStored) ≤ h ∧ h < maxHeightPrecommited) ∧
      !existBFTParameters state.store (u32 (h + 1)) then false
  else true

end

end LiskEngine.Consensus
