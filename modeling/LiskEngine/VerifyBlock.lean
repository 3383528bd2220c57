import LiskEngine.Certificates
import LiskEngine.BftStep

/-! Verification of a block header against the chain and the consensus store,
and runs of the consensus store: headers applied one after the other, with
parameter and generator key writes and commits of the overlay in between. -/
namespace LiskEngine.Consensus
open Liskbft Contradiction Diffdb List

def Engine.getSlotNumber (c : Engine) (unixTime : Nat) : Nat :=
  u32 (unixTime + (maxUint32 + 1) - c.genesisTimestamp) / c.blockTime

def atTimestamp (c : Engine) (generators : List Generator) (timestamp : Nat) : Except ConsensusError Generator :=
  match generators[c.getSlotNumber timestamp % generators.length]? with
  | some generator => .ok generator
  | none => .error .runtimePanic

def check (condition : Bool) (e : ConsensusError) : Except ConsensusError Unit :=
  if condition then .ok () else .error e

def verifyBlock (c : Engine) (now : Nat) (chain : Chain) (store : ConsensusStore) (blockHeader : BlockHeader) :
    Except ConsensusError Unit :=
  match chain with
  | [] => .error .runtimePanic
  | lastBlockHeader :: _ => do
    check (blockHeader.version == 2) (.invalidVersion blockHeader.version)
    check (blockHeader.height == u32 (lastBlockHeader.height + 1))
      (.notConsecutive blockHeader.height lastBlockHeader.height)
    check (lastBlockHeader.id == blockHeader.previousBlockID) (.invalidPreviousBlockID blockHeader.previousBlockID)
    let blockSlot := c.getSlotNumber blockHeader.timestamp
    check (blockSlot ≤ c.getSlotNumber now) (.futureBlock blockHeader.timestamp)
    check (c.getSlotNumber lastBlockHeader.timestamp < blockSlot) (.pastBlockSlot blockHeader.timestamp)
    let generators ← liftBft (getGeneratorKeys store.keys blockHeader.height)
    let generator ← atTimestamp c generators blockHeader.timestamp
    check (generator.address == blockHeader.generatorAddress)
      (.invalidGenerator generator.address blockHeader.generatorAddress)
    let (maxHeightPrevoted, _, _) ← liftBft (API.getBFTHeights store)
    check (blockHeader.maxHeightPrevoted == maxHeightPrevoted)
      (.invalidMaxHeightPrevoted maxHeightPrevoted blockHeader.maxHeightPrevoted)
    let contradicting ← liftBft (API.isHeaderContradictingChain store blockHeader)
    check (!contradicting) (.contradictingHeader blockHeader.generatorAddress blockHeader.height
      blockHeader.maxHeightPrevoted blockHeader.maxHeightGenerated)
    verifyAggregateCommit c chain store blockHeader.aggregateCommit
    check (c.verifySignature blockHeader c.chainID generator.generatorKey)
      (.invalidSignature blockHeader.signature lastBlockHeader.generatorAddress)

theorem checkOk {cond e u} (ok : check cond e = .ok u) : cond = true := by
  unfold check at ok
  split at ok
  · assumption
  · cases ok

theorem checkPass {cond e} (holds : cond = true) : check cond e = .ok () := by
  rw [check,if_pos holds]

theorem liftBftOk {α : Type} {x} {a : α} (ok : liftBft x = .ok a) : x = .ok a := by
  cases x with
  | error e => cases ok
  | ok b => cases ok; rfl

theorem getVotesOk {store : ConsensusStore} {v} : store.getVotes = .ok v ↔ store.votes.view () = some v := by
  unfold ConsensusStore.getVotes
  rw [Database.getView]
  cases store.votes.view () with
  | none | some w => simp

structure Certifies (c : Engine) (chain : Chain) (store : ConsensusStore) (v : BFTVotes) (commit : AggregateCommit)
    (header : BlockHeader) (params : BFTParams) : Prop where
  bits : commit.aggregationBits ≠ []
  signature : commit.certificateSignature ≠ []
  increasing : v.maxHeightCertified < commit.height
  precommited : commit.height ≤ v.maxHeightPrecommited
  block : getBlockHeaderByHeight chain commit.height = .ok header
  parameters : API.getBFTParameters store commit.height = .ok params
  verified : blsVerifyWeightedAggSig c.bls ((validatorsWithBLSKey params).map (fun v => (v.blsKey, v.bftWeight)))
    commit.aggregationBits commit.certificateSignature params.certificateThreshold
    (c.certificateMessage c.chainID (newCertificateFromBlock header)) = .ok true

structure Signed (chain : Chain) (store : ConsensusStore) (v : BFTVotes) (commit : AggregateCommit)
    (header : BlockHeader) (params : BFTParams) : Prop where
  bits : commit.aggregationBits ≠ []
  signature : commit.certificateSignature ≠ []
  increasing : v.maxHeightCertified < commit.height
  precommited : commit.height ≤ v.maxHeightPrecommited
  block : getBlockHeaderByHeight chain commit.height = .ok header
  parameters : API.getBFTParameters store commit.height = .ok params

def verifySigned (c : Engine) (commit : AggregateCommit) (header : BlockHeader) (params : BFTParams) :
    Except ConsensusError Bool :=
  blsVerifyWeightedAggSig c.bls ((validatorsWithBLSKey params).map (fun v => (v.blsKey, v.bftWeight)))
    commit.aggregationBits commit.certificateSignature params.certificateThreshold
    (c.certificateMessage c.chainID (newCertificateFromBlock header))

theorem Certifies.signed {c chain store commit v header params} (cert : Certifies c chain store v commit header params) :
    Signed chain store v commit header params :=
  ⟨cert.bits,cert.signature,cert.increasing,cert.precommited,cert.block,cert.parameters⟩

theorem verifyAggregateCommitCases {c : Engine} {chain store commit v} (votes : store.votes.view () = some v) {r}
    (res : verifyAggregateCommit c chain store commit = r) :
    (commit.empty = true ∧ commit.height = v.maxHeightCertified ∧ r = .ok ()) ∨ (∃ e, r = .error e ∧ e ≠ .runtimePanic) ∨
      ∃ header params, Signed chain store v commit header params ∧
        (verifySigned c commit header params >>= fun valid => if valid then .ok () else .error .invalidCertificate) = r := by
  unfold verifyAggregateCommit API.getBFTHeights at res
  rw [getVotesOk.mpr votes] at res
  simp only [bind,Except.bind,liftBft] at res
  split at res
  · rename_i empty
    exact .inl ⟨empty.1,empty.2,res.symm⟩
  split at res
  · exact .inr (.inl ⟨_,res.symm,by simp⟩)
  rename_i ne
  rw [not_or] at ne
  split at res
  · exact .inr (.inl ⟨_,res.symm,by simp⟩)
  split at res
  · exact .inr (.inl ⟨_,res.symm,by simp⟩)
  split at res
  · exact .inr (.inl ⟨_,res.symm,by simp⟩)
  unfold verifyCertificate at res
  cases block : getBlockHeaderByHeight chain commit.height with
  | error e =>
    rw [block] at res
    unfold getBlockHeaderByHeight at block
    split at block
    · cases block
    · cases block
      exact .inr (.inl ⟨_,res.symm,by simp⟩)
  | ok header =>
    rw [block] at res
    cases parameters : API.getBFTParameters store commit.height with
    | error e =>
      rw [parameters] at res
      exact .inr (.inl ⟨_,res.symm,by simp⟩)
    | ok params =>
      rw [parameters] at res
      exact .inr (.inr ⟨header,params,⟨fun empty => ne.1 (by rw [empty]; rfl),
        fun empty => ne.2 (by rw [empty]; rfl),by omega,by omega,block,parameters⟩,res⟩)

theorem verifyAggregateCommitOk {c chain store commit v} (votes : store.votes.view () = some v)
    (ok : verifyAggregateCommit c chain store commit = .ok ()) : commit.empty = true ∧ commit.height = v.maxHeightCertified ∨
      ∃ header params, Certifies c chain store v commit header params := by
  rcases verifyAggregateCommitCases votes ok with ⟨empty,height,_⟩ | ⟨_,failed,_⟩ | ⟨header,params,signed,checked⟩
  · exact .inl ⟨empty,height⟩
  · cases failed
  obtain ⟨valid,verified,checked⟩ := bindOk checked
  cases valid with
  | false => cases checked
  | true =>
    exact .inr ⟨header,params,signed.bits,signed.signature,signed.increasing,signed.precommited,signed.block,
      signed.parameters,verified⟩

theorem signedChecked {c : Engine} {chain store commit v header params} (votes : store.votes.view () = some v)
    (small : commit.height ≤ maxUint32) (signed : Signed chain store v commit header params) :
    verifyAggregateCommit c chain store commit =
      verifySigned c commit header params >>= fun valid => if valid then .ok () else .error .invalidCertificate := by
  have bits : commit.aggregationBits.length ≠ 0 := fun h => signed.bits (eq_nil_of_length_eq_zero h)
  have signature : commit.certificateSignature.length ≠ 0 := fun h => signed.signature (eq_nil_of_length_eq_zero h)
  have inc := signed.increasing
  have precommited := signed.precommited
  have notEmpty : ¬ (commit.empty = true ∧ commit.height = v.maxHeightCertified) := fun h => by omega
  have dead : ¬ ((nextParametersResult store (u32 (v.maxHeightCertified+1))).1 = true ∧
      commit.height > u32 ((nextParametersResult store (u32 (v.maxHeightCertified+1))).2+maxUint32)) := by
    unfold nextParametersResult
    cases API.nextHeightBFTParameters store (u32 (v.maxHeightCertified+1)) with
    | ok height => simp
    | error e =>
      have wraps : u32 (0+maxUint32) = maxUint32 := by decide
      simp only [wraps,true_and]
      omega
  unfold verifyAggregateCommit API.getBFTHeights
  rw [getVotesOk.mpr votes]
  simp only [bind,Except.bind,liftBft]
  rw [if_neg notEmpty,if_neg (by simp [bits,signature]),if_neg (by omega),if_neg (by omega),if_neg dead]
  unfold verifyCertificate
  rw [signed.block]
  simp only [bind,Except.bind,liftBft,signed.parameters,verifySigned]

theorem certifiesAccepted {c chain store commit v header params} (votes : store.votes.view () = some v)
    (small : commit.height ≤ maxUint32) (cert : Certifies c chain store v commit header params) :
    verifyAggregateCommit c chain store commit = .ok () := by
  have verified : verifySigned c commit header params = .ok true := cert.verified
  rw [signedChecked votes small cert.signed,verified]
  rfl

structure Accepted (c : Engine) (chain : Chain) (store : ConsensusStore) (v : BFTVotes) (header : BlockHeader) :
    Prop where
  votes : store.votes.view () = some v
  linked : ∃ last rest, chain = last :: rest ∧ header.height = u32 (last.height + 1) ∧
    header.previousBlockID = last.id
  prevoted : header.maxHeightPrevoted = v.maxHeightPrevoted
  consistent : v.contradicting (newBFTBlockHeader header) = false
  certificate : verifyAggregateCommit c chain store header.aggregateCommit = .ok ()

theorem verifyBlockAccepted {c} {now : Nat} {chain store header} (ok : verifyBlock c now chain store header = .ok ()) :
    ∃ v, Accepted c chain store v header := by
  cases chain with
  | nil => cases ok
  | cons last rest =>
    obtain ⟨_,_,ok⟩ := bindOk ok
    obtain ⟨_,height,ok⟩ := bindOk ok
    obtain ⟨_,prev,ok⟩ := bindOk ok
    obtain ⟨_,_,ok⟩ := bindOk ok
    obtain ⟨_,_,ok⟩ := bindOk ok
    obtain ⟨gens,_,ok⟩ := bindOk ok
    obtain ⟨gen,_,ok⟩ := bindOk ok
    obtain ⟨_,_,ok⟩ := bindOk ok
    obtain ⟨⟨maxHeightPrevoted,_,_⟩,heights,ok⟩ := bindOk ok
    obtain ⟨_,prevoted,ok⟩ := bindOk ok
    obtain ⟨contradicting,contradiction,ok⟩ := bindOk ok
    obtain ⟨_,agree,ok⟩ := bindOk ok
    obtain ⟨_,certificate,_⟩ := bindOk ok
    obtain ⟨v,votes,heightsEq⟩ := bindOk (liftBftOk heights)
    obtain ⟨v',votes',contradictingEq⟩ := bindOk (liftBftOk contradiction)
    cases heightsEq
    cases contradictingEq
    have same : v = v' := Except.ok.inj (votes.symm.trans votes')
    subst same
    have height := checkOk height
    have prev := checkOk prev
    have prevoted := checkOk prevoted
    have agree := checkOk agree
    simp only [beq_iff_eq] at height prev prevoted
    exact ⟨v,getVotesOk.mp votes,⟨last,rest,rfl,height,prev.symm⟩,prevoted,by simpa using agree,certificate⟩

end LiskEngine.Consensus
