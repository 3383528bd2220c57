import LiskEngine.BftHistory

/-! What a parameter change leaves for the next height: the thresholds against the true total
weight, and which of several changes after one block is in force. -/
namespace LiskEngine.Consensus
open Liskbft Diffdb BFTVotes List Option

structure MatchesTotal (total : Nat) (p : BFTParams) : Prop where
  prevote : p.prevoteThreshold = 2 * total / 3 + 1
  precommitLow : total < 3 * p.precommitThreshold
  precommitHigh : p.precommitThreshold ≤ total
  certificateLow : total < 3 * p.certificateThreshold
  certificateHigh : p.certificateThreshold ≤ total
  distinct : (p.validators.map (·.address)).Nodup

theorem sortedAddresses (vals : List BFTValidator) :
    ((BFTValidator.sort vals).map (·.address)).Nodup ↔ (vals.map (·.address)).Nodup :=
  ((perm_insertionSort _ vals).map _).nodup_iff

theorem prevoteExact : u64 (u64 total*2)/3+1 = 2*total/3+1 ↔ total < 9223372036854775808 := by
  unfold u64
  omega

theorem thresholdsMatchIff (m : Module) (store store' : ConsensusStore) (v : BFTVotes) (call : ParamsCall)
    (votes : store.getVotes = .ok v)
    (ok : API.setBFTParameters m store call.precommitThreshold call.certificateThreshold call.validators = .ok store')
    (stored : API.unchangedParams (getBFTParams store.params (API.currentHeight v)) call.precommitThreshold
      call.certificateThreshold (BFTValidator.sort call.validators) = false) :
    ∃ p, store'.params = store.params.set (u32 (API.currentHeight v + 1)) p ∧
      (MatchesTotal (WeightedQuorum.total BFTValidator.bftWeight call.validators) p ↔
        WeightedQuorum.total BFTValidator.bftWeight call.validators < 9223372036854775808 ∧
          (call.validators.map (·.address)).Nodup) := by
  obtain ⟨precommit,certificate,⟨unchanged,_⟩ | ⟨_,rfl⟩⟩ := setParametersOk ok (getVotesOk.mp votes)
  · rw [stored] at unchanged
    cases unchanged
  refine ⟨_,rfl,?_⟩
  generalize WeightedQuorum.total BFTValidator.bftWeight call.validators = total at precommit certificate ⊢
  constructor
  · intro matching
    exact ⟨prevoteExact.mp matching.prevote,(sortedAddresses _).mp matching.distinct⟩
  rintro ⟨fits,distinct⟩
  rw [u64Small (by omega)] at precommit certificate
  obtain ⟨precommitLow,precommitHigh⟩ := precommit
  obtain ⟨certificateLow,certificateHigh⟩ := certificate
  exact ⟨prevoteExact.mpr fits,by simp only; omega,precommitHigh,by simp only; omega,certificateHigh,
    (sortedAddresses _).mpr distinct⟩

def cancellingValidators : List BFTValidator :=
  [⟨[1],9223372036854775808,[1]⟩,⟨[2],9223372036854775808,[2]⟩,⟨[3],3,[3]⟩,⟨[3],3,[4]⟩]

theorem thresholdsMatchSample : ∃ store' p, API.setBFTParameters ⟨4, fun _ _ => []⟩
      (genesisState (sampleHeader 0 0 0 0 0 0 0)).store 2 2 [sampleValidator 1, sampleValidator 2] = .ok store' ∧
    store'.params = (genesisState (sampleHeader 0 0 0 0 0 0 0)).store.params.set 1 p ∧ MatchesTotal 2 p := by
  obtain ⟨v,votes⟩ : ∃ v, (genesisState (sampleHeader 0 0 0 0 0 0 0)).store.getVotes = .ok v := ⟨_,rfl⟩
  obtain ⟨store',ok⟩ : ∃ store', API.setBFTParameters ⟨4,fun _ _ => []⟩
      (genesisState (sampleHeader 0 0 0 0 0 0 0)).store 2 2 [sampleValidator 1,sampleValidator 2] = .ok store' := ⟨_,rfl⟩
  obtain ⟨p,set,matching⟩ := thresholdsMatchIff _ _ _ v ⟨2,2,[sampleValidator 1,sampleValidator 2]⟩ votes ok rfl
  cases votes
  exact ⟨store',p,ok,set,matching.mpr (by decide)⟩

theorem wrappedThresholdsStored : ∃ p, ((API.setBFTParameters ⟨4, fun _ _ => []⟩
      (genesisState (sampleHeader 0 0 0 0 0 0 0)).store 3 3 cancellingValidators).toOption.map
        (fun store => getBFTParams store.params 1)) = some (.ok p) ∧
    WeightedQuorum.total BFTValidator.bftWeight p.validators = 18446744073709551622 ∧ p.prevoteThreshold = 5 ∧
      p.precommitThreshold = 3 ∧ ¬ (p.validators.map (·.address)).Nodup :=
  ⟨⟨5,3,3,[⟨[3],3,[3]⟩,⟨[3],3,[4]⟩,⟨[2],9223372036854775808,[2]⟩,⟨[1],9223372036854775808,[1]⟩],[]⟩,
    by decide +kernel,by decide,rfl,rfl,by decide⟩

structure Grants (m : Module) (call : ParamsCall) (p : BFTParams) : Prop where
  validators : p.validators.Perm call.validators
  precommit : p.precommitThreshold = call.precommitThreshold
  certificate : p.certificateThreshold = call.certificateThreshold
  hash : p.validatorsHash = m.computeValidatorsHash p.validators call.certificateThreshold

theorem grantsOwn (m : Module) (call : ParamsCall) : Grants m call (call.params m) := ⟨perm_insertionSort _ _,rfl,rfl,rfl⟩

theorem lastUpdateWinsIff (c : Engine) (genesis : BlockHeader) (uint32 : genesis.height ≤ maxUint32) (events : List Event)
    (s s' : ChainState) (call : ParamsCall) (run : (genesisState genesis).run c.liskBFT (verifyBlockAccepts c) events = some s)
    (last : s.apply c.liskBFT (verifyBlockAccepts c) (.setBFTParameters call.precommitThreshold
      call.certificateThreshold call.validators) = some s') : ∃ tip, s.blocks.head?.map (·.height) = some tip ∧
      ((∃ p, getBFTParams s'.store.params (u32 (tip + 1)) = .ok p ∧ Grants c.liskBFT call p) ↔
        API.unchangedParams (getBFTParams s.store.params tip) call.precommitThreshold call.certificateThreshold
          (BFTValidator.sort call.validators) = false ∨
        ∃ p, getBFTParams s.store.params (u32 (tip + 1)) = .ok p ∧ Grants c.liskBFT call p) := by
  obtain ⟨called,v,r,follows⟩ := reachFollows uint32 run
  obtain ⟨store',changed,rfl⟩ := applyParams call last
  refine ⟨r.tip,follows.blocks,?_⟩
  have result := setParamsResult call changed follows.votes
  rw [follows.tip] at result
  rw [← Bool.not_eq_true,unchangedIff]
  rcases result with ⟨unchanged,rfl⟩ | ⟨differs,rfl⟩
  · exact (or_iff_right (not_not.mpr unchanged)).symm
  have follows' := followsChanged follows c.liskBFT call
  rw [follows.tip] at follows'
  have read := getBFTParamsTracked follows'.params (lowestLeNext follows') (call.params c.liskBFT)
  exact iff_of_true ⟨_,read.mpr (lastSetFrom (Nat.le_refl r.next)),grantsOwn c.liskBFT call⟩ (.inl differs)

def paramsAfter (calls : List Event) (height : Nat) : Option BFTParams :=
  ((genesisState (sampleHeader 0 0 0 0 0 0 0)).run sampleEngine.liskBFT (verifyBlockAccepts sampleEngine)
    (sampleStart ++ calls)).bind (fun s => (getBFTParams s.store.params height).toOption)

theorem lastUpdateWinsSample : ∃ s s', (genesisState (sampleHeader 0 0 0 0 0 0 0)).run sampleEngine.liskBFT
      (verifyBlockAccepts sampleEngine) sampleStart = some s ∧
    s.apply sampleEngine.liskBFT (verifyBlockAccepts sampleEngine) (.setBFTParameters 2 2 [⟨[1], 2, [1]⟩]) = some s' ∧
    ∃ p, getBFTParams s'.store.params 2 = .ok p ∧ Grants sampleEngine.liskBFT ⟨2, 2, [⟨[1], 2, [1]⟩]⟩ p := by
  have runs : (((genesisState (sampleHeader 0 0 0 0 0 0 0)).run sampleEngine.liskBFT
      (verifyBlockAccepts sampleEngine) sampleStart).bind (fun s => s.apply sampleEngine.liskBFT
        (verifyBlockAccepts sampleEngine) (.setBFTParameters 2 2 [⟨[1],2,[1]⟩]))).isSome = true := by decide +kernel
  have differs : ((genesisState (sampleHeader 0 0 0 0 0 0 0)).run sampleEngine.liskBFT (verifyBlockAccepts sampleEngine)
      sampleStart).map (fun s => (s.blocks.head?.map (·.height),
        API.unchangedParams (getBFTParams s.store.params 1) 2 2 [⟨[1],2,[1]⟩])) = some (some 1, false) := by decide +kernel
  obtain ⟨s',both⟩ := isSome_iff_exists.mp runs
  obtain ⟨s,run,last⟩ := bind_eq_some_iff.mp both
  rw [run,map_some,some.injEq,Prod.mk.injEq] at differs
  obtain ⟨tip,height,wins⟩ := lastUpdateWinsIff sampleEngine _ (by decide) sampleStart s s' ⟨2,2,[⟨[1],2,[1]⟩]⟩ run last
  cases height.symm.trans differs.1
  exact ⟨s,s',run,last,wins.mpr (.inl differs.2)⟩

theorem updateLost : (paramsAfter [.setBFTParameters 2 2 [⟨[1], 2, [1]⟩], .setBFTParameters 1 1 [⟨[1], 1, [1]⟩]] 2).map
        (fun p => (p.precommitThreshold, p.validators)) = some (2, [⟨[1], 2, [1]⟩]) ∧
      (paramsAfter [.setBFTParameters 1 1 [⟨[1], 1, [9]⟩]] 2).map (fun p => p.validators) = some [⟨[1], 1, [1]⟩] := by
  decide +kernel

end LiskEngine.Consensus
