import LiskEngine.AggregationBits
import LiskEngine.BftReachable

/-! Aggregation bits chosen by a sender. A bit is read for every key of the list, so bits
that are too short end in an index error; no weight that is not there is ever counted. -/
namespace LiskEngine.Consensus
open Liskbft Diffdb List

def bitSet (bits : Bytes) (i : Nat) : Bool := (readBit bits i).getD false

theorem readBitNone : readBit bits i = none ↔ 8*bits.length ≤ i := by
  unfold readBit
  rw [Option.map_eq_none_iff,getElem?_eq_none_iff]
  omega

theorem bitSetMarks (enough : size ≤ 8*bits.length) : Marks bits size (bitSet bits) := by
  refine ⟨fun i inside => ?_⟩
  cases read : readBit bits i with
  | none =>
    have short := readBitNone.mp read
    omega
  | some chosen => rw [bitSet,read,Option.getD_some]

theorem selectShort (es : List (Bytes × Nat)) (short : 8*bits.length < i+es.length) (filled : es ≠ []) :
    selectKeys bits i es = none := by
  induction es generalizing i with
  | nil => exact absurd rfl filled
  | cons entry rest ih =>
    unfold selectKeys
    cases read : readBit bits i with
    | none => rfl
    | some chosen =>
      have inside : ¬ 8*bits.length ≤ i := fun out => by rw [readBitNone.mpr out] at read; cases read
      simp only [length_cons] at short
      have more : rest ≠ [] := fun absent => by rw [absent] at short; simp only [length_nil] at short; omega
      have later := @ih (i+1) (by omega) more
      simp only [later]

section
variable {bls : Bls} {es : List (Bytes × Nat)} {bits signature message : Bytes} {threshold : Nat}

theorem weightedPanics : blsVerifyWeightedAggSig bls es bits signature threshold message = .error .runtimePanic ↔
    8*bits.length < es.length := by
  rcases lt_or_ge (8 * bits.length) es.length with short | enough
  · have filled : es ≠ [] := fun absent => by rw [absent] at short; cases short
    unfold blsVerifyWeightedAggSig
    rw [selectShort es (by omega) filled]
    exact iff_of_true rfl short
  · refine iff_of_false ?_ (by omega)
    unfold blsVerifyWeightedAggSig
    rw [selectMarked (bitSetMarks enough) es (by omega)]
    simp only
    split <;> simp

theorem weightedReached (ok : blsVerifyWeightedAggSig bls es bits signature threshold message = .ok true) :
    threshold ≤ ((chosenEntries (bitSet bits) 0 es).map Prod.snd).sum := by
  have enough : es.length ≤ 8*bits.length := by
    by_contra short
    rw [weightedPanics.mpr (by omega)] at ok
    cases ok
  unfold blsVerifyWeightedAggSig at ok
  rw [selectMarked (bitSetMarks enough) es (by omega)] at ok
  simp only at ok
  split at ok
  · cases ok
  · rename_i reached
    have wrapped : u64 ((chosenEntries (bitSet bits) 0 es).map Prod.snd).sum ≤ _ := Nat.mod_le _ _
    omega

end

section
variable {c : Engine} {chain : Chain} {store : ConsensusStore} {commit : AggregateCommit}

theorem signedPanics : verifySigned c commit header params = .error .runtimePanic ↔
      8*commit.aggregationBits.length < params.validators.length := by
  have size : (validatorsWithBLSKey params).length = params.validators.length := by
    rw [(sortedPerm params).length_eq,length_map]
  unfold verifySigned
  rw [weightedPanics,length_map,size]

theorem commitPanics (small : commit.height ≤ maxUint32) : verifyAggregateCommit c chain store commit = .error .runtimePanic ↔
      ∃ v header params, store.votes.view () = some v ∧ Signed chain store v commit header params ∧
        8*commit.aggregationBits.length < params.validators.length := by
  constructor
  · intro panics
    cases votes : store.votes.view () with
    | none =>
      have missing : store.getVotes = .error .votesNotFound := by
        unfold ConsensusStore.getVotes
        rw [Database.getView,votes]
      unfold verifyAggregateCommit API.getBFTHeights at panics
      rw [missing] at panics
      cases panics
    | some v =>
      rcases verifyAggregateCommitCases votes panics with ⟨_,_,ok⟩ | ⟨e,failed,other⟩ | ⟨header,params,signed,checked⟩
      · cases ok
      · cases failed
        exact absurd rfl other
      · rcases bindError checked with failed | ⟨valid,_,failed⟩
        · exact ⟨v,header,params,rfl,signed,signedPanics.mp failed⟩
        · cases valid <;> cases failed
  · rintro ⟨v,header,params,votes,signed,short⟩
    rw [signedChecked votes small signed,signedPanics.mpr short]
    rfl

theorem commitReached (votes : store.votes.view () = some v) (ok : verifyAggregateCommit c chain store commit = .ok ()) :
    commit.empty = true ∧ commit.height = v.maxHeightCertified ∨
      ∃ params, API.getBFTParameters store commit.height = .ok params ∧ params.certificateThreshold ≤
        ((chosenEntries (bitSet commit.aggregationBits) 0 (validatorsWithBLSKey params)).map (·.bftWeight)).sum := by
  refine (verifyAggregateCommitOk votes ok).imp_right ?_
  rintro ⟨header,params,cert⟩
  refine ⟨params,cert.parameters,?_⟩
  have reached := weightedReached cert.verified
  rwa [chosenMap,map_map] at reached

end

theorem hostileBitsIff (c : Engine) (entries : List (Bytes × Nat)) (aggregationBits signature message : Bytes)
    (threshold : Nat) (chain : Chain) (store : ConsensusStore) (v : BFTVotes) (votes : store.getVotes = .ok v)
    (commit : AggregateCommit) (uint32 : commit.height ≤ maxUint32) :
    (blsVerifyWeightedAggSig c.bls entries aggregationBits signature threshold message = .error .runtimePanic ↔
      8 * aggregationBits.length < entries.length) ∧
    (blsVerifyWeightedAggSig c.bls entries aggregationBits signature threshold message = .ok true →
      threshold ≤ ((chosenEntries (bitSet aggregationBits) 0 entries).map Prod.snd).sum) ∧
    (verifyAggregateCommit c chain store commit = .error .runtimePanic ↔
      ∃ header params, Signed chain store v commit header params ∧ 8 * commit.aggregationBits.length < params.validators.length) ∧
    (verifyAggregateCommit c chain store commit = .ok () → commit.empty = true ∧ commit.height = v.maxHeightCertified ∨
      ∃ params, API.getBFTParameters store commit.height = .ok params ∧ params.certificateThreshold ≤
        ((chosenEntries (bitSet commit.aggregationBits) 0 (validatorsWithBLSKey params)).map (·.bftWeight)).sum) := by
  have view := getVotesOk.mp votes
  refine ⟨weightedPanics,weightedReached,?_,commitReached view⟩
  rw [commitPanics uint32]
  constructor
  · rintro ⟨v',header,params,seen,signed,short⟩
    cases seen.symm.trans view
    exact ⟨header,params,signed,short⟩
  · rintro ⟨header,params,signed,short⟩
    exact ⟨v,header,params,view,signed,short⟩

def nineValidators : List BFTValidator :=
  ⟨[1],100,[1]⟩ :: [2,3,4,5,6,7,8,9].map sampleValidator

def nineEngine : Engine := {sampleEngine with liskBFT := ⟨9,fun _ _ => []⟩}

def nineStart : List Event :=
  [.setBFTParameters 40 40 nineValidators,.setGeneratorKeys [⟨[1],[]⟩],.commit,
    .block 100 (sampleHeader 1 1 10 0 1 0 0),.commit,.block 100 (sampleHeader 2 2 20 1 1 1 1),.commit]

def nineCommit (bits : Bytes) : AggregateCommit := ⟨1,bits,[1]⟩

theorem hostileBitsSample : ∃ s v, (genesisState (sampleHeader 0 0 0 0 0 0 0)).run nineEngine.liskBFT
      (verifyBlockAccepts nineEngine) nineStart = some s ∧ s.store.getVotes = .ok v ∧
    (verifyAggregateCommit nineEngine s.blocks s.store (nineCommit [1, 0]) = .error .runtimePanic ↔
      ∃ header params, Signed s.blocks s.store v (nineCommit [1, 0]) header params ∧ 16 < params.validators.length) := by
  have runs : (((genesisState (sampleHeader 0 0 0 0 0 0 0)).run nineEngine.liskBFT (verifyBlockAccepts nineEngine)
      nineStart).bind (fun s => s.store.getVotes.toOption)).isSome = true := by decide +kernel
  obtain ⟨v,found⟩ := Option.isSome_iff_exists.mp runs
  obtain ⟨s,run,read⟩ := Option.bind_eq_some_iff.mp found
  have votes : s.store.getVotes = .ok v := by
    cases held : s.store.getVotes with
    | error e => rw [held] at read; cases read
    | ok v' => rw [held] at read; cases read; rfl
  exact ⟨s,v,run,votes,(hostileBitsIff nineEngine [] [] [] [] 0 s.blocks s.store v votes (nineCommit [1,0])
    (by decide)).2.2.1⟩

theorem shortBitsPanic : ((genesisState (sampleHeader 0 0 0 0 0 0 0)).run nineEngine.liskBFT
      (verifyBlockAccepts nineEngine) nineStart).map (fun s => verifyBlock nineEngine 100 s.blocks s.store
        {sampleHeader 3 3 30 2 1 2 2 with aggregateCommit := nineCommit [1]}) = some (.error .runtimePanic) := by
  decide +kernel

end LiskEngine.Consensus
