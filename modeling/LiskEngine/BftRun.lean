import LiskEngine.VerifyBlock

/-! Runs of the BFT module. The invariant of the vote state is carried through
every accepted block, parameter change, generator key change and commit. -/
namespace LiskEngine.Consensus
open Liskbft Contradiction Diffdb BFTVotes List Option Bool BFTValidator ActiveValidator

structure ChainState where
  store : ConsensusStore
  blocks : Chain
  deriving DecidableEq

inductive Event where
  | block (now : Nat) (header : BlockHeader)
  | setBFTParameters (precommitThreshold certificateThreshold : Nat) (validators : List BFTValidator)
  | setGeneratorKeys (generators : List Generator)
  | commit
  deriving DecidableEq, Repr

def emptyStore : ConsensusStore :=
  ⟨Database.new OrderedMap.empty,Database.new OrderedMap.empty,Database.new OrderedMap.empty⟩

def genesisState (genesis : BlockHeader) : ChainState :=
  ⟨Module.initGenesisState genesis emptyStore,[genesis]⟩

def flushStore (store : ConsensusStore) : ConsensusStore :=
  ⟨store.votes.flush,store.params.flush,store.keys.flush⟩

abbrev Accept := Nat → ChainState → BlockHeader → Bool

def ChainState.apply (m : Module) (accept : Accept) (s : ChainState) : Event → Option ChainState
  | .block now header =>
    if accept now s header then
      match m.beforeTransactionsExecute header s.store with
      | .ok store => some ⟨store,header :: s.blocks⟩
      | .error _ => none
    else none
  | .setBFTParameters precommitThreshold certificateThreshold validators =>
    match API.setBFTParameters m s.store precommitThreshold certificateThreshold validators with
    | .ok store => some {s with store := store}
    | .error _ => none
  | .setGeneratorKeys generators =>
    match API.setGeneratorKeys s.store generators with
    | .ok store => some {s with store := store}
    | .error _ => none
  | .commit => some {s with store := flushStore s.store}

def ChainState.run (m : Module) (accept : Accept) : ChainState → List Event → Option ChainState
  | s, [] => some s
  | s, e :: rest =>
    match s.apply m accept e with
    | some next => next.run m accept rest
    | none => none

theorem runCons {m accept} {s s' : ChainState} {e rest} (run : s.run m accept (e::rest) = some s') :
    ∃ next, s.apply m accept e = some next ∧ next.run m accept rest = some s' := by
  unfold ChainState.run at run
  cases applied : s.apply m accept e with
  | none => rw [applied] at run; cases run
  | some next =>
    rw [applied] at run
    exact ⟨next,rfl,run⟩

def headerChecks : Accept := fun _ s header =>
  match s.blocks, s.store.getVotes with
  | last :: _, .ok v => header.height == u32 (last.height + 1) && header.maxHeightPrevoted == v.maxHeightPrevoted &&
      !v.contradicting (newBFTBlockHeader header)
  | _, _ => false

def verifyBlockAccepts (c : Engine) : Accept := fun now s header =>
  match verifyBlock c now s.blocks s.store header with
  | .ok _ => true
  | .error _ => false

theorem acceptsAccepted (ok : verifyBlockAccepts c now s header = true) : ∃ v, Accepted c s.blocks s.store v header := by
  unfold verifyBlockAccepts at ok
  split at ok
  · exact verifyBlockAccepted ‹_›
  · cases ok

theorem verifyBlockChecks (ok : verifyBlockAccepts c now s header = true) : headerChecks now s header = true := by
  obtain ⟨v,acc⟩ := acceptsAccepted ok
  obtain ⟨last,rest,blocks,height,_⟩ := acc.linked
  unfold headerChecks
  rw [blocks,getVotesOk.mpr acc.votes]
  simp [height,acc.prevoted,acc.consistent]

structure StoreInv (good : BFTParams → Prop) (genesis : BlockHeader) (P : Nat → BFTParams) (chain : List BlockHeader)
    (v : BFTVotes) (s : ChainState) : Prop where
  blocks : s.blocks = chain ++ [genesis]
  votesCoherent : Database.Coherent s.store.votes
  paramsCoherent : Database.Coherent s.store.params
  keysCoherent : Database.Coherent s.store.keys
  votes : s.store.votes.view () = some v
  settled : ∃ bound, Settled s.store.params bound ∧ bound ≤ genesis.height + chain.length ∧
    ∀ i ∈ v.blockBFTInfos, bound ≤ i.height
  inForce : ∀ i ∈ v.blockBFTInfos, InForce s.store.params i.height (P i.height)
  entries : ∀ k p, s.store.params.view k = some p → good p
  inv : VotesInv good genesis.height P chain v

theorem lastHeight (base : genesis.height = g) (consec : Consecutive g chain) (blocks : chain ++ [genesis] = last::rest) :
    last.height = g+chain.length := by
  cases chain with
  | nil => cases blocks; simpa using base
  | cons b tail =>
    cases blocks
    have := consec.1
    omega

theorem checkedOfAccept (inv : StoreInv good genesis P chain v s) (ok : headerChecks now s n = true) :
    Checked genesis.height chain v n := by
  unfold headerChecks at ok
  rw [inv.blocks,getVotesOk.mpr inv.votes] at ok
  cases split : chain ++ [genesis] with
  | nil => rw [split] at ok; cases ok
  | cons last rest =>
    rw [split] at ok
    simp only [and_eq_true,beq_iff_eq,not_eq_true'] at ok
    obtain ⟨⟨height,prevoted⟩,agree⟩ := ok
    have small := inv.inv.small
    have tip := lastHeight rfl inv.inv.window.consecutive split
    rw [tip,u32Small (by unfold maxUint32 at small; omega)] at height
    exact ⟨height,prevoted,agree⟩

theorem votesInvCongr (same : ∀ k, k ≤ g+chain.length → P' k = P k) (inv : VotesInv good g P chain v) :
    VotesInv good g P' chain v := by
  have atEntry : ∀ i ∈ v.blockBFTInfos, P' i.height = P i.height :=
    fun i mem => same _ (inv.window.bounds mem).2
  have headLe : (chain.head?.map (·.height)).getD 0 ≤ g+chain.length := by
    cases chain with
    | nil => simp
    | cons b rest => have := inv.window.consecutive.1; simp; omega
  refine ⟨inv.window,inv.small,?_,inv.acknowledged,?_,inv.active,?_,?_,?_,inv.genesis,inv.ordered,inv.tip,
    ?_,?_⟩
  · exact fun k low high => same k high ▸ inv.params k low high
  · exact fun i mem => atEntry i mem ▸ inv.tallies i mem
  · exact fun i mem met => inv.prevotedTop i mem (atEntry i mem ▸ met)
  · exact fun i mem eq => atEntry i mem ▸ inv.prevotedHeld i mem eq
  · exact fun i mem eq => atEntry i mem ▸ inv.precommitedHeld i mem eq
  · intro t low high
    obtain ⟨k,voters,above,fit,rest⟩ := inv.prevoteEvidence t low high
    refine ⟨k,voters,above,fit,?_⟩
    rw [same k (fit.trans headLe)]
    exact rest
  · intro above
    unfold PrecommitEvidence
    rw [same _ (inv.ordered.trans inv.tip)]
    exact inv.precommitEvidence above

structure Executed (bound : Nat) (n : BlockHeader) (store store' : ConsensusStore) (v v' : BFTVotes)
    (room oldest required : Nat) : Prop where
  small : n.height < maxUint32
  params : ∃ p, InForce store.params n.height p
  applied : ∀ P, (∀ i ∈ newBlockBFTInfo n :: v.blockBFTInfos.take room, InForce store.params i.height (P i.height)) →
    Applied P room n v v'
  certified : v'.maxHeightCertified =
    if n.aggregateCommit.empty then v.maxHeightCertified else n.aggregateCommit.height
  lowest : ∀ i ∈ newBlockBFTInfo n :: v.blockBFTInfos.take room, oldest ≤ i.height
  above : bound ≤ oldest
  top : oldest ≤ n.height
  deleted : required ≤ oldest
  result : store' = ⟨store.votes.set () v',deleteBelow store.params required,deleteBelow store.keys required⟩

section
variable {c : BftParamsCache} {P : Nat → BFTParams} {v1 v2 v3 v4 : BFTVotes} {n : BlockHeader}

theorem certifiedUpdated (voted : v1.updatePrevotesPrecommits c = .ok v2)
    (prevoted : v2.updateMaxHeightPrevoted c = .ok v3) (precommited : v3.updateMaxHeightPrecommitted c = .ok v4) :
    (v4.updateMaxHeightCertified n).maxHeightCertified =
      if n.aggregateCommit.empty then v1.maxHeightCertified else n.aggregateCommit.height := by
  obtain ⟨_,_,prevotedEq⟩ := bindOk prevoted
  obtain ⟨_,_,precommitedEq⟩ := bindOk precommited
  cases prevotedEq
  cases precommitedEq
  have kept : v2.maxHeightCertified = v1.maxHeightCertified := by
    unfold updatePrevotesPrecommits at voted
    split at voted
    · cases voted; rfl
    split at voted
    · cases voted; rfl
    split at voted
    · cases voted; rfl
    obtain ⟨_,_,voted⟩ := bindOk voted
    obtain ⟨_,_,voted⟩ := bindOk voted
    cases voted
    rfl
  unfold updateMaxHeightCertified
  split <;> simp [kept]

theorem votesUpdated (window : v1.blockBFTInfos = newInfo::rest)
    (known : ∀ i ∈ v1.blockBFTInfos, c.getParameters i.height = .ok (P i.height)) (sorted : Descending v1.blockBFTInfos)
    (voted : v1.updatePrevotesPrecommits c = .ok v2) (prevoted : v2.updateMaxHeightPrevoted c = .ok v3)
    (precommited : v3.updateMaxHeightPrecommitted c = .ok v4) :
    let v' := v4.updateMaxHeightCertified n
    (∃ toPrevote toPrecommit, Voted P newInfo v1.activeValidatorsVoteInfo v'.activeValidatorsVoteInfo
      v1.blockBFTInfos v'.blockBFTInfos toPrevote toPrecommit) ∧
    v'.maxHeightPrevoted = ((v'.blockBFTInfos.find? (fun i => meetsPrevote (P i.height) i)).map (·.height)).getD
      v1.maxHeightPrevoted ∧
    v'.maxHeightPrecommited = ((v'.blockBFTInfos.find? (fun i => meetsPrecommit (P i.height) i)).map (·.height)).getD
      v1.maxHeightPrecommited := by
  obtain ⟨toPrevote,toPrecommit,spec,shape⟩ := updatePrevotesPrecommitsSpec window known sorted voted
  have known' : ∀ i ∈ v2.blockBFTInfos, c.getParameters i.height = .ok (P i.height) := by
    intro i mem
    rw [spec.infos] at mem
    obtain ⟨j,inside,rfl⟩ := mem_map.mp mem
    exact known j inside
  obtain ⟨r,firstPrevoted,prevotedEq⟩ := bindOk prevoted
  cases prevotedEq
  obtain ⟨r',firstPrecommited,precommitedEq⟩ := bindOk precommited
  cases precommitedEq
  have prevotedAt := firstMeetingSpec known' firstPrevoted
  have precommitedAt := firstMeetingSpec known' firstPrecommited
  have oldPrevoted : v2.maxHeightPrevoted = v1.maxHeightPrevoted := by rw [shape]
  have oldPrecommited : v2.maxHeightPrecommited = v1.maxHeightPrecommited := by rw [shape]
  unfold updateMaxHeightCertified
  rw [prevotedAt,precommitedAt,oldPrevoted]
  split <;> exact ⟨⟨toPrevote,toPrecommit,spec⟩,rfl,by rw [← oldPrecommited]⟩

end

structure Computed (n : BlockHeader) (store store' : ConsensusStore) (v : BFTVotes) (room : Nat) (last : BFTBlockHeader)
    (paramsCache : BftParamsCache) (v2 v3 v4 : BFTVotes) : Prop where
  final : (newBlockBFTInfo n :: v.blockBFTInfos.take room).getLast? = some last
  cached : (newBFTParamsCache store.params).cache last.height n.height = .ok paramsCache
  voted : updatePrevotesPrecommits {v with blockBFTInfos := newBlockBFTInfo n :: v.blockBFTInfos.take room} paramsCache = .ok v2
  prevoted : v2.updateMaxHeightPrevoted paramsCache = .ok v3
  precommited : v3.updateMaxHeightPrecommitted paramsCache = .ok v4
  result : store' =
    let required := min last.height (u32 ((v4.updateMaxHeightCertified n).maxHeightCertified + 1))
    ⟨store.votes.set () (v4.updateMaxHeightCertified n),deleteBelow store.params required,deleteBelow store.keys required⟩

section
variable {m : Module} {n store store' v} (ok : m.beforeTransactionsExecute n store = .ok store') (votes : store.votes.view () = some v)
include m ok votes

theorem beforeComputed : ∃ room last paramsCache v2 v3 v4, Computed n store store' v room last paramsCache v2 v3 v4 := by
  obtain ⟨v0,read,ok⟩ := bindOk ok
  have same : v0 = v := some.inj ((getVotesOk.mp read).symm.trans votes)
  subst same
  obtain ⟨v1,inserted,ok⟩ := bindOk ok
  obtain ⟨c,cached,ok⟩ := bindOk ok
  obtain ⟨v2,voted,ok⟩ := bindOk ok
  obtain ⟨v3,prevoted,ok⟩ := bindOk ok
  obtain ⟨v4,precommited,ok⟩ := bindOk ok
  cases ok
  unfold insertBlockBFTInfo at inserted
  split at inserted
  · cases inserted
  rename_i room _
  cases inserted
  obtain ⟨last,final⟩ : ∃ last, (newBlockBFTInfo n::v0.blockBFTInfos.take room).getLast? = some last :=
    ⟨_,getLast?_cons⟩
  simp only [final,map_some,getD_some,head?_cons] at cached
  refine ⟨room,last,c,v2,v3,v4,final,cached,voted,prevoted,precommited,?_⟩
  simp only [ConsensusStore.setVotes,deleteBFTParams,deleteGeneratorKeys,final,map_some,getD_some]

theorem beforeSpec (window : Window g chain v.blockBFTInfos)
    (height : n.height = g+chain.length+1) (settled : Settled store.params bound) (low : bound ≤ g+chain.length)
    (lowAll : ∀ i ∈ v.blockBFTInfos, bound ≤ i.height) :
    ∃ v' room oldest required, Executed bound n store store' v v' room oldest required := by
  obtain ⟨room,last,c,v2,v3,v4,final,cached,voted,prevoted,precommited,rfl⟩ := beforeComputed ok votes
  have pushed := window.push height room
  generalize infosEq : newBlockBFTInfo n::v.blockBFTInfos.take room = infos at *
  have lastIn : last ∈ infos := mem_of_getLast? final
  have boundLast : bound ≤ last.height := by
    rw [← infosEq] at lastIn
    rcases mem_cons.mp lastIn with rfl | old
    · show bound ≤ n.height
      omega
    · exact lowAll last (mem_of_mem_take old)
  have allIn : ∀ i ∈ infos, last.height ≤ i.height ∧ i.height ≤ n.height := by
    intro i mem
    have upper := (pushed.bounds mem).2
    simp only [length_cons] at upper
    exact ⟨pushed.oldest mem final,by omega⟩
  obtain ⟨small,known⟩ := cacheSpec settled boundLast cached
  have lastLe := (allIn last lastIn).2
  obtain ⟨p,_,force⟩ := known n.height lastLe (le_refl _)
  have certified := certifiedUpdated (n := n) voted prevoted precommited
  refine ⟨v4.updateMaxHeightCertified n,room,last.height,
    min last.height (u32 ((v4.updateMaxHeightCertified n).maxHeightCertified+1)),small,⟨p,force⟩,
    fun P force => ?_,certified,fun i mem => (allIn i (infosEq ▸ mem)).1,boundLast,lastLe,
    min_le_left _ _,rfl⟩
  · have readAll : ∀ i ∈ infos, c.getParameters i.height = .ok (P i.height) := by
      intro i mem
      obtain ⟨q,got,inForce⟩ := known i.height (allIn i mem).1 (allIn i mem).2
      rw [got,inForceUnique inForce (force i (infosEq ▸ mem))]
    obtain ⟨spec,prevotedAt,precommitedAt⟩ :=
      votesUpdated infosEq.symm readAll pushed.descending voted prevoted precommited
    exact ⟨infosEq.symm ▸ spec,prevotedAt,precommitedAt⟩

end

theorem aggregateWraps (wrapped : total < 18446744073709551616) (ok : API.aggregateBFTWeight total validators = .ok r) :
    r = u64 (total+WeightedQuorum.total bftWeight validators) := by
  induction validators generalizing total with
  | nil =>
    cases ok
    exact (u64Small wrapped).symm
  | cons v rest ih =>
    unfold API.aggregateBFTWeight at ok
    split at ok
    · cases ok
    · rw [ih (Nat.mod_lt _ (by decide)) ok]
      simp only [WeightedQuorum.total,map_cons,sum_cons,u64]
      omega

theorem sortedTotal (validators : List BFTValidator) : WeightedQuorum.total bftWeight (sort validators) =
      WeightedQuorum.total bftWeight validators :=
  ((perm_insertionSort _ validators).map _).sum_eq

def votesWithValidators (v : BFTVotes) (validators : List BFTValidator) : BFTVotes :=
  let active := (BFTValidator.sort validators).map
    (API.nextActiveValidator v.activeValidatorsVoteInfo (u32 (API.currentHeight v + 1)))
  {v with activeValidatorsVoteInfo := ActiveValidator.sort active}

def InRange (aggregate threshold : Nat) : Prop := aggregate / 3 + 1 ≤ threshold ∧ threshold ≤ aggregate

section
variable {m store store' precommitThreshold certificateThreshold validators v}
  (ok : API.setBFTParameters m store precommitThreshold certificateThreshold validators = .ok store')
  (votes : store.votes.view () = some v)
include m certificateThreshold ok votes

theorem setParametersOk :
    InRange (u64 (WeightedQuorum.total bftWeight validators)) precommitThreshold ∧
    InRange (u64 (WeightedQuorum.total bftWeight validators)) certificateThreshold ∧
    ((API.unchangedParams (getBFTParams store.params (API.currentHeight v)) precommitThreshold certificateThreshold
        (sort validators) = true ∧ store' = store) ∨
      (¬API.unchangedParams (getBFTParams store.params (API.currentHeight v)) precommitThreshold certificateThreshold
        (sort validators) = true ∧
        store' = ⟨store.votes.set () (votesWithValidators v validators),store.params.set (u32 (API.currentHeight v+1)) {
          prevoteThreshold := u64 (u64 (WeightedQuorum.total bftWeight validators)*2)/3+1
          precommitThreshold := precommitThreshold
          certificateThreshold := certificateThreshold
          validators := sort validators
          validatorsHash := m.computeValidatorsHash (sort validators) certificateThreshold },store.keys⟩)) := by
  unfold API.setBFTParameters at ok
  split at ok
  · cases ok
  obtain ⟨aggregate,summed,ok⟩ := bindOk ok
  have sum := aggregateWraps (by decide) summed
  rw [zero_add] at sum
  subst sum
  split at ok
  · cases ok
  rename_i precommitRange
  split at ok
  · cases ok
  rename_i certificateRange
  obtain ⟨v',read,ok⟩ := bindOk ok
  have same : v' = v := some.inj ((getVotesOk.mp read).symm.trans votes)
  subst same
  refine ⟨⟨by omega,by omega⟩,⟨by omega,by omega⟩,?_⟩
  split at ok
  · rename_i unchanged
    cases ok
    exact .inl ⟨unchanged,rfl⟩
  · rename_i changed
    cases ok
    exact .inr ⟨changed,rfl⟩

theorem setParamsSpec (fits : WeightedQuorum.total bftWeight validators < 9223372036854775808) :
    store' = store ∨ ∃ params, WellFormed params ∧
      params.validators = sort validators ∧ params.precommitThreshold = precommitThreshold ∧
      params.prevoteThreshold = WeightedQuorum.total bftWeight validators*2/3+1 ∧
      store' = ⟨store.votes.set () (votesWithValidators v validators),
        store.params.set (u32 (API.currentHeight v+1)) params,store.keys⟩ := by
  obtain ⟨⟨bound,_⟩,_,⟨_,rfl⟩ | ⟨_,res⟩⟩ := setParametersOk ok votes
  · exact .inl rfl
  have whole := u64Small (show WeightedQuorum.total bftWeight validators < 18446744073709551616 by omega)
  rw [whole] at bound res
  rw [u64Small (by omega)] at res
  refine .inr ⟨_,⟨?_,Nat.succ_pos _,by simp only; omega⟩,rfl,rfl,rfl,res⟩
  unfold totalWeight
  rw [sortedTotal]
  exact fits

end

theorem findNextActive {cur nextHeight} {validators : List BFTValidator} {addr info}
    (hit : find (sort (validators.map (API.nextActiveValidator cur nextHeight))) addr = some info) :
    (∃ v ∈ validators, v.address = addr) ∧ (find cur addr = some info ∨ info = ⟨addr,nextHeight,u32 (nextHeight+maxUint32)⟩) := by
  have own : info.address = addr := by simpa using find?_some hit
  have mem := (perm_insertionSort _ _).mem_iff.mp (mem_of_find?_eq_some hit)
  obtain ⟨v,listed,made⟩ := mem_map.mp mem
  unfold API.nextActiveValidator at made
  cases original : find cur v.address with
  | none =>
    rw [original] at made
    have key : v.address = addr := by rw [← own,← made]
    exact ⟨⟨v,listed,key⟩,Or.inr (by rw [← made,key])⟩
  | some a =>
    rw [original] at made
    have same : a = info := made
    have key : v.address = addr := by
      have recorded : a.address = v.address := by simpa using find?_some original
      rw [← own,← same,recorded]
    rw [key,same] at original
    exact ⟨⟨v,listed,key⟩,Or.inl original⟩

end LiskEngine.Consensus
