import LiskEngine.Bytes

/-! Block headers and the relation between two headers of one generator that
violate the fork choice rule. -/
namespace LiskEngine
open Bool

structure AggregateCommit where
  height : Nat
  aggregationBits : Bytes
  certificateSignature : Bytes
  deriving DecidableEq, Repr, Inhabited

def AggregateCommit.empty (c : AggregateCommit) : Bool :=
  c.aggregationBits.length == 0 && c.certificateSignature.length == 0

structure BlockHeader where
  id : Bytes
  version : Nat
  timestamp : Nat
  height : Nat
  previousBlockID : Bytes
  generatorAddress : Bytes
  transactionRoot : Bytes
  assetRoot : Bytes
  eventRoot : Bytes
  stateRoot : Bytes
  maxHeightPrevoted : Nat
  maxHeightGenerated : Nat
  impliesMaxPrevotes : Bool
  validatorsHash : Bytes
  aggregateCommit : AggregateCommit
  signature : Bytes
  deriving DecidableEq, Repr, Inhabited

namespace Contradiction

structure BFTPartialBlockHeader where
  height : Nat
  generatorAddress : Bytes
  maxHeightGenerated : Nat
  maxHeightPrevoted : Nat
  deriving DecidableEq, Repr

def newBFTBlockHeader (header : BlockHeader) : BFTPartialBlockHeader :=
  ⟨header.height,header.generatorAddress,header.maxHeightGenerated,header.maxHeightPrevoted⟩

def ordered (b1 b2 : BFTPartialBlockHeader) : BFTPartialBlockHeader × BFTPartialBlockHeader :=
  let higherMaxHeightPreviouslyForged := b1.maxHeightGenerated > b2.maxHeightGenerated
  let sameMaxHeightPreviouslyForged := b1.maxHeightGenerated = b2.maxHeightGenerated
  let higherMaxHeightPrevoted := b1.maxHeightPrevoted > b2.maxHeightPrevoted
  let sameMaxHeightPrevoted := b1.maxHeightPrevoted = b2.maxHeightPrevoted
  let higherHeight := b1.height > b2.height
  if higherMaxHeightPreviouslyForged ∨
      (sameMaxHeightPreviouslyForged ∧ higherMaxHeightPrevoted) ∨
      (sameMaxHeightPreviouslyForged ∧ sameMaxHeightPrevoted ∧ higherHeight) then (b2, b1)
  else (b1, b2)

def areDistinctHeadersContradicting (b1 b2 : BFTPartialBlockHeader) : Bool :=
  let (earlierBlock, laterBlock) := ordered b1 b2
  if earlierBlock.generatorAddress ≠ laterBlock.generatorAddress then false
  else if earlierBlock.maxHeightPrevoted = laterBlock.maxHeightPrevoted ∧
      earlierBlock.height ≥ laterBlock.height then true
  else if earlierBlock.height > laterBlock.maxHeightGenerated then true
  else if earlierBlock.maxHeightPrevoted > laterBlock.maxHeightPrevoted then true
  else false

theorem contradictingIff (b1 b2 : BFTPartialBlockHeader) : areDistinctHeadersContradicting b1 b2 = true ↔
      (ordered b1 b2).1.generatorAddress = (ordered b1 b2).2.generatorAddress ∧
      (((ordered b1 b2).1.maxHeightPrevoted = (ordered b1 b2).2.maxHeightPrevoted ∧
          (ordered b1 b2).2.height ≤ (ordered b1 b2).1.height) ∨ (ordered b1 b2).2.maxHeightGenerated < (ordered b1 b2).1.height ∨
        (ordered b1 b2).2.maxHeightPrevoted < (ordered b1 b2).1.maxHeightPrevoted) := by
  unfold areDistinctHeadersContradicting
  simp only
  split <;> [skip; split <;> [skip; split <;> [skip; split]]] <;> simp_all

theorem contradictingSymm (b1 b2 : BFTPartialBlockHeader) :
    areDistinctHeadersContradicting b1 b2 = areDistinctHeadersContradicting b2 b1 := by
  rw [Bool.eq_iff_iff,contradictingIff,contradictingIff]
  unfold ordered
  simp only
  by_cases same : b1.generatorAddress = b2.generatorAddress
  · split <;> split <;> simp_all <;> omega
  · have other : b2.generatorAddress ≠ b1.generatorAddress := fun h => same h.symm
    split <;> split <;> simp_all

theorem acknowledged {old new} (same : old.generatorAddress = new.generatorAddress) (higher : old.height < new.height)
    (prevoted : old.maxHeightPrevoted ≤ new.maxHeightPrevoted) :
    areDistinctHeadersContradicting old new = false ↔ old.height ≤ new.maxHeightGenerated ∧
      old.maxHeightGenerated ≤ new.maxHeightGenerated := by
  rw [← not_eq_true,contradictingIff]
  unfold ordered
  simp only
  split <;> simp_all
  omega

theorem consistentSplit (same : x.generatorAddress = y.generatorAddress) (agree : areDistinctHeadersContradicting x y = false) :
    x.height ≤ y.maxHeightGenerated ∨ y.height ≤ x.maxHeightGenerated := by
  rw [← not_eq_true,contradictingIff] at agree
  unfold ordered at agree
  simp only at agree
  split at agree <;> simp_all

theorem consistentPrevoted {x y} (same : x.generatorAddress = y.generatorAddress)
    (higher : y.maxHeightPrevoted < x.maxHeightPrevoted) (agree : areDistinctHeadersContradicting x y = false) :
    y.height ≤ x.maxHeightGenerated := by
  rw [← not_eq_true,contradictingIff] at agree
  unfold ordered at agree
  simp only at agree
  split at agree <;> simp_all

end Contradiction
end LiskEngine
