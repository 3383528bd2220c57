import LiskEngine.AggregationBits
import LiskEngine.BftReachable

/-! Chain of trust of certificates: when a change of BFT parameters can be
skipped between two certified heights. The comparison with the height of the next
parameters is made only when there are none, so it never rejects a commit. -/
namespace LiskEngine.Consensus
open Liskbft Diffdb List

def NextParameters (store : ConsensusStore) (maxHeightCertified p : Nat) : Prop :=
  maxHeightCertified + 2 ≤ p ∧ (store.params.view p).isSome

def TrustKept (c : Engine) (chain : Chain) (store : ConsensusStore) (v : BFTVotes) : Prop :=
  ∀ commit : AggregateCommit, commit.height ≤ maxUint32 → commit.empty = false →
    verifyAggregateCommit c chain store commit = .ok () →
    v.maxHeightCertified < commit.height ∧ commit.height ≤ v.maxHeightPrecommited ∧
      ∀ p, NextParameters store v.maxHeightCertified p → commit.height ≤ p - 1

structure Certifiable (c : Engine) (chain : Chain) (store : ConsensusStore) (height : Nat) (header : BlockHeader)
    (params : BFTParams) (signature : Bytes) : Prop where
  block : getBlockHeaderByHeight chain height = .ok header
  parameters : API.getBFTParameters store height = .ok params
  validators : params.validators ≠ []
  reached : params.certificateThreshold ≤ u64 (params.validators.map (·.bftWeight)).sum
  nonempty : signature ≠ []
  signed : c.bls.fastAggregateVerify ((validatorsWithBLSKey params).map (·.blsKey))
    (c.certificateMessage c.chainID (newCertificateFromBlock header)) signature = true

theorem marksFull (size : Nat) : Marks (List.replicate ((size+7)/8) 255) size (fun _ => true) :=
  ⟨fun _ inside => readFull (by omega)⟩

theorem sortedWeights (params : BFTParams) :
    ((validatorsWithBLSKey params).map (·.bftWeight)).sum = (params.validators.map (·.bftWeight)).sum := by
  have perm := ((sortedPerm params).map (·.bftWeight)).sum_eq
  rwa [map_map] at perm

theorem certifiableVerified (can : Certifiable c chain store height header params signature) :
    blsVerifyWeightedAggSig c.bls ((validatorsWithBLSKey params).map (fun v => (v.blsKey,v.bftWeight)))
      (List.replicate ((params.validators.length+7)/8) 255) signature params.certificateThreshold
      (c.certificateMessage c.chainID (newCertificateFromBlock header)) = .ok true := by
  rw [verifyMarked (marksFull params.validators.length),chosenAll,sortedWeights]
  exact ⟨can.reached,can.signed⟩

theorem certifiableAccepted (votes : store.votes.view () = some v)
    (small : v.maxHeightPrecommited ≤ maxUint32) (higher : v.maxHeightCertified < v.maxHeightPrecommited)
    (can : Certifiable c chain store v.maxHeightPrecommited header params signature) : verifyAggregateCommit c chain store
      ⟨v.maxHeightPrecommited,List.replicate ((params.validators.length+7)/8) 255,signature⟩ = .ok () := by
  have pos := length_pos_iff.mpr can.validators
  have bits : replicate ((params.validators.length+7)/8) (255 : UInt8) ≠ [] := by
    rw [Ne,replicate_eq_nil_iff]
    omega
  exact certifiesAccepted votes small
    ⟨bits,can.nonempty,higher,le_refl _,can.block,can.parameters,certifiableVerified can⟩

theorem trustKeptIff (c : Engine) (chain : Chain) (store : ConsensusStore) (v : BFTVotes)
    (votes : store.votes.view () = some v) (small : v.maxHeightPrecommited ≤ maxUint32) :
    ((∀ p, NextParameters store v.maxHeightCertified p → v.maxHeightPrecommited < p) → TrustKept c chain store v) ∧
    ∀ header params signature, Certifiable c chain store v.maxHeightPrecommited header params signature →
      (TrustKept c chain store v ↔ ∀ p, NextParameters store v.maxHeightCertified p → v.maxHeightPrecommited < p) := by
  have enough : (∀ p, NextParameters store v.maxHeightCertified p → v.maxHeightPrecommited < p) → TrustKept c chain store v := by
    intro later commit _ nonempty ok
    rcases verifyAggregateCommitOk votes ok with ⟨empty,_⟩ | ⟨_,_,certifies⟩
    · rw [nonempty] at empty
      contradiction
    · refine ⟨certifies.increasing,certifies.precommited,fun p next => ?_⟩
      exact Nat.le_sub_one_of_lt (lt_of_le_of_lt certifies.precommited (later p next))
  refine ⟨enough,fun header params signature can => ⟨fun kept p next => ?_,enough⟩⟩
  by_cases higher : v.maxHeightCertified < v.maxHeightPrecommited
  · have nonempty : AggregateCommit.empty ⟨v.maxHeightPrecommited,
        replicate ((params.validators.length + 7) / 8) 255,signature⟩ = false := by
      simp [AggregateCommit.empty,can.nonempty]
    obtain ⟨_,_,linked⟩ := kept _ small nonempty (certifiableAccepted votes small higher can)
    have before := linked p next
    simp only at before
    omega
  · have low := next.1
    omega

def sampleParamsChange : List Event :=
  [.setBFTParameters 1 1 [sampleValidator 1],.setGeneratorKeys [⟨[1],[]⟩],.commit,
    .block 100 (sampleHeader 1 1 10 0 1 0 0),.commit,.block 100 (sampleHeader 2 2 20 1 1 1 1),
    .setBFTParameters 2 2 [⟨[1],2,[1]⟩],.commit,.block 100 (sampleHeader 3 3 30 2 1 2 2),.commit]

def sampleChain (events : List Event) : ChainState :=
  ((genesisState (sampleHeader 0 0 0 0 0 0 0)).run sampleEngine.liskBFT (verifyBlockAccepts sampleEngine)
    events).getD (genesisState (sampleHeader 0 0 0 0 0 0 0))

def sampleVotes (s : ChainState) : BFTVotes := (s.store.votes.view ()).getD ⟨0,0,0,[],[]⟩

theorem trustKeptBeforeChange : TrustKept sampleEngine (sampleChain sampleParamsChange).blocks
      (sampleChain sampleParamsChange).store (sampleVotes (sampleChain sampleParamsChange)) ↔
    ∀ p, NextParameters (sampleChain sampleParamsChange).store
        (sampleVotes (sampleChain sampleParamsChange)).maxHeightCertified p →
      (sampleVotes (sampleChain sampleParamsChange)).maxHeightPrecommited < p :=
  (trustKeptIff sampleEngine _ _ (sampleVotes (sampleChain sampleParamsChange)) (by decide +kernel)
    (by decide +kernel)).2 (sampleHeader 2 2 20 1 1 1 1) ⟨1,1,1,[sampleValidator 1],[]⟩ [1]
    ⟨by rfl,by rfl,by decide,by decide,by decide,by rfl⟩

def sampleSkip : List Event := sampleParamsChange ++ [.block 100 (sampleHeader 4 4 40 3 1 3 3),.commit]

theorem parametersSkipped :
    (genesisState (sampleHeader 0 0 0 0 0 0 0)).run sampleEngine.liskBFT (verifyBlockAccepts sampleEngine) sampleSkip =
      some (sampleChain sampleSkip) ∧ (sampleChain sampleSkip).store.votes.view () = some (sampleVotes (sampleChain sampleSkip)) ∧
    (sampleVotes (sampleChain sampleSkip)).maxHeightCertified = 0 ∧ NextParameters (sampleChain sampleSkip).store 0 3 ∧
    verifyAggregateCommit sampleEngine (sampleChain sampleSkip).blocks (sampleChain sampleSkip).store ⟨3, [1], [1]⟩ = .ok () ∧
    ¬ TrustKept sampleEngine (sampleChain sampleSkip).blocks (sampleChain sampleSkip).store
      (sampleVotes (sampleChain sampleSkip)) := by
  have certified : (sampleVotes (sampleChain sampleSkip)).maxHeightCertified = 0 := by decide +kernel
  have next : NextParameters (sampleChain sampleSkip).store 0 3 := ⟨by decide,by decide +kernel⟩
  have accepted : verifyAggregateCommit sampleEngine (sampleChain sampleSkip).blocks (sampleChain sampleSkip).store
      ⟨3,[1],[1]⟩ = .ok () := by rfl
  refine ⟨by decide +kernel,by decide +kernel,certified,next,accepted,fun kept => ?_⟩
  obtain ⟨_,_,linked⟩ := kept ⟨3,[1],[1]⟩ (by decide) rfl accepted
  exact absurd (linked 3 next) (by decide)

end LiskEngine.Consensus
