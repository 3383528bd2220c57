import LiskEngine.BftRun

/-! The store invariant along whole runs, and what it says about every state a
run reaches: votes are counted once, and the BFT heights are ordered and never
decrease. -/
namespace LiskEngine.Consensus
open Liskbft Contradiction Diffdb BFTVotes List Option OrderedMap Database

section
variable {good : BFTParams → Prop} {genesis : BlockHeader} {P : Nat → BFTParams} {chain : List BlockHeader}
  {v : BFTVotes} {s : ChainState}

def withHeight (P : Nat → BFTParams) (height : Nat) (p : BFTParams) : Nat → BFTParams :=
  fun k => if k = height then p else P k

theorem entryOrigin (applied : Applied P room n v v') (mem : i' ∈ v'.blockBFTInfos) :
    ∃ i ∈ newBlockBFTInfo n::v.blockBFTInfos.take room, i'.height = i.height := by
  obtain ⟨_,_,voted⟩ := applied.voted
  rw [voted.infos] at mem
  obtain ⟨i,inside,rfl⟩ := mem_map.mp mem
  exact ⟨i,inside,rfl⟩

theorem blockStep (inv : StoreInv good genesis P chain v s) (wf : ∀ p, good p → WellFormed p) {m : Module} {now n}
    (acc : headerChecks now s n = true) {store'} (ok : m.beforeTransactionsExecute n s.store = .ok store') :
    ∃ P' v', StoreInv good genesis P' (n::chain) v' ⟨store',n::s.blocks⟩ ∧
      v.maxHeightPrevoted ≤ v'.maxHeightPrevoted ∧ v.maxHeightPrecommited ≤ v'.maxHeightPrecommited ∧ v'.maxHeightCertified =
        if n.aggregateCommit.empty then v.maxHeightCertified else n.aggregateCommit.height := by
  have checked := checkedOfAccept inv acc
  have height := checked.height
  obtain ⟨bound,settled,low,lowAll⟩ := inv.settled
  obtain ⟨v',room,oldest,required,ran⟩ := beforeSpec ok inv.votes inv.inv.window height settled low lowAll
  obtain ⟨p,atNew⟩ := ran.params
  obtain ⟨k,floor⟩ := atNew
  have goodNew : good p := inv.entries k p floor.held
  let P' := withHeight P n.height p
  have unchanged : ∀ h, h ≤ genesis.height+chain.length → P' h = P h := by
    intro h le
    simp only [P',withHeight]
    rw [if_neg (by omega)]
  have newest : P' n.height = p := by simp [P',withHeight]
  have force : ∀ i ∈ newBlockBFTInfo n::v.blockBFTInfos.take room, InForce s.store.params i.height (P' i.height) := by
    intro i mem
    rcases mem_cons.mp mem with rfl | old
    · show InForce s.store.params n.height (P' n.height)
      rw [newest]
      exact ⟨k,floor⟩
    · have inside := mem_of_mem_take old
      rw [unchanged _ (inv.inv.window.bounds inside).2]
      exact inv.inForce i inside
  have applied := ran.applied P' force
  have small := ran.small
  obtain ⟨inv',prevotedUp,precommitedUp⟩ := votesStep (votesInvCongr unchanged inv.inv) wf (newest ▸ goodNew) checked
    (by omega) applied
  have lowest : ∀ i' ∈ v'.blockBFTInfos, oldest ≤ i'.height := by
    intro i' mem
    obtain ⟨i,inside,same⟩ := entryOrigin applied mem
    rw [same]
    exact ran.lowest i inside
  have top := ran.top
  refine ⟨P',v',?_,prevotedUp,precommitedUp,ran.certified⟩
  rw [ran.result]
  refine ⟨by rw [inv.blocks]; rfl,setCoherent inv.votesCoherent _ _,(deleteBelowSpec inv.paramsCoherent _).1,
    (deleteBelowSpec inv.keysCoherent _).1,by simp [setView inv.votesCoherent],
    ⟨oldest,settledDelete inv.paramsCoherent ran.deleted (settledMono settled ran.above),?_,lowest⟩,
    ?_,fun h q seen => inv.entries h q (deleteViewSubset inv.paramsCoherent seen),inv'⟩
  · simp only [length_cons]
    omega
  intro i' mem
  obtain ⟨i,inside,same⟩ := entryOrigin applied mem
  have exceeds := lowest i' mem
  rw [same] at exceeds ⊢
  exact inForceDelete inv.paramsCoherent (ran.deleted.trans exceeds) (force i inside)

theorem currentHeightEq (inv : VotesInv good genesis.height P chain v) : API.currentHeight v = genesis.height+chain.length := by
  unfold API.currentHeight
  cases infos : v.blockBFTInfos with
  | nil =>
    have empty : chain = [] := by
      by_contra some
      exact inv.window.started some infos
    have tip := inv.tip
    have low := inv.genesis
    have ordered := inv.ordered
    simp only [empty,length_nil] at tip ⊢
    omega
  | cons info rest =>
    have := inv.window.heightAt (j := 0) (i := info) (by rw [infos]; rfl)
    omega

theorem validatorsStep (inv : VotesInv good genesis.height P chain v) (vals : List BFTValidator) :
    VotesInv good genesis.height P chain (votesWithValidators v vals) := by
  have cur := currentHeightEq inv
  have small := inv.small
  have tip : u32 (u32 (API.currentHeight v+1)+maxUint32) = genesis.height+chain.length := by
    unfold u32 maxUint32 at *
    omega
  have largest : ∀ a info, ActiveValidator.find (votesWithValidators v vals).activeValidatorsVoteInfo a =
      some info → ActiveValidator.find v.activeValidatorsVoteInfo a = some info ∨
        info.largestHeightPrecommit = genesis.height+chain.length := by
    intro a info hit
    rw [← tip]
    exact (findNextActive hit).2.imp_right (fun fresh => by rw [fresh])
  refine ⟨inv.window,inv.small,inv.params,inv.acknowledged,?_,?_,inv.prevotedTop,inv.prevotedHeld,
    inv.precommitedHeld,inv.genesis,inv.ordered,inv.tip,inv.prevoteEvidence,inv.precommitEvidence⟩
  · intro i mem
    obtain ⟨S,T,tallied⟩ := inv.tallies i mem
    refine ⟨S,T,tallied.prevoteWeight,tallied.precommitWeight,tallied.prevoted,tallied.precommitted,?_,tallied.quorum⟩
    intro a inside info hit
    rcases largest a info hit with old | fresh
    · exact tallied.once a inside info old
    · rw [fresh]
      exact (inv.window.bounds mem).2
  · intro a info hit
    rcases largest a info hit with old | fresh
    · exact inv.active a info old
    · exact le_of_eq fresh

theorem paramsStep (inv : StoreInv good genesis P chain v s)
    (ok : API.setBFTParameters m s.store precommitThreshold certificateThreshold validators = .ok store')
    (fits : WeightedQuorum.total BFTValidator.bftWeight validators < 9223372036854775808)
    (keeps : ∀ p, WellFormed p → p.validators = BFTValidator.sort validators → good p) :
    ∃ v', StoreInv good genesis P chain v' ⟨store',s.blocks⟩ ∧ v'.maxHeightPrevoted = v.maxHeightPrevoted ∧
      v'.maxHeightPrecommited = v.maxHeightPrecommited ∧ v'.maxHeightCertified = v.maxHeightCertified := by
  rcases setParamsSpec ok inv.votes fits with same | ⟨p,wf,vals,_,_,res⟩
  · subst same
    exact ⟨v,inv,rfl,rfl,rfl⟩
  have cur := currentHeightEq inv.inv
  have small := inv.inv.small
  have next : u32 (API.currentHeight v+1) = genesis.height+chain.length+1 := by
    rw [cur]
    exact u32Small (by unfold maxUint32 at small; omega)
  subst res
  obtain ⟨bound,settled,low,lowAll⟩ := inv.settled
  refine ⟨votesWithValidators v validators,⟨inv.blocks,setCoherent inv.votesCoherent _ _,
    setCoherent inv.paramsCoherent _ _,inv.keysCoherent,by simp [setView inv.votesCoherent],
    ⟨bound,settledSet inv.paramsCoherent settled _ _,low,lowAll⟩,?_,?_,validatorsStep inv.inv validators⟩,
    rfl,rfl,rfl⟩
  · intro i mem
    have := (inv.inv.window.bounds mem).2
    exact inForceSet inv.paramsCoherent p (by omega) (inv.inForce i mem)
  · intro h q seen
    rw [setView inv.paramsCoherent] at seen
    split at seen
    · cases seen
      exact keeps p wf vals
    · exact inv.entries h q seen

theorem keysStep (inv : StoreInv good genesis P chain v s) (ok : API.setGeneratorKeys s.store generators = .ok store') :
    StoreInv good genesis P chain v ⟨store',s.blocks⟩ := by
  obtain ⟨_,_,ok⟩ := bindOk ok
  cases ok
  exact ⟨inv.blocks,inv.votesCoherent,inv.paramsCoherent,setCoherent inv.keysCoherent _ _,inv.votes,
    inv.settled,inv.inForce,inv.entries,inv.inv⟩

theorem commitStep (inv : StoreInv good genesis P chain v s) : StoreInv good genesis P chain v ⟨flushStore s.store,s.blocks⟩ := by
  obtain ⟨bound,_,low,lowAll⟩ := inv.settled
  refine ⟨inv.blocks,flushCoherent _,flushCoherent _,flushCoherent _,?_,
    ⟨bound,settledNew _ _,low,lowAll⟩,?_,?_,inv.inv⟩
  · exact (flushView inv.votesCoherent ()).trans inv.votes
  · intro i mem
    exact inForceCongr (fun k _ => (flushView inv.paramsCoherent k).symm) (inv.inForce i mem)
  · intro k p seen
    exact inv.entries k p ((flushView inv.paramsCoherent k).symm.trans seen)

end

theorem genesisVotes (genesis : BlockHeader) : Database.Coherent (genesisState genesis).store.votes ∧
    (genesisState genesis).store.votes.view () = some ⟨genesis.height,genesis.height,genesis.height,[],[]⟩ := by
  have fresh : Database.Coherent (new (empty : OrderedMap Unit BFTVotes)) := newCoherent _
  exact ⟨setCoherent fresh _ _,(setView fresh () _ ()).trans (if_pos rfl)⟩

theorem genesisInv (good : BFTParams → Prop) (genesis : BlockHeader) (small : genesis.height < maxUint32)
    (P : Nat → BFTParams) : ∃ v, StoreInv good genesis P [] v (genesisState genesis) ∧ v.maxHeightCertified = genesis.height := by
  obtain ⟨coh,votes⟩ := genesisVotes genesis
  refine ⟨⟨genesis.height,genesis.height,genesis.height,[],[]⟩,⟨rfl,coh,newCoherent _,
    newCoherent _,votes,⟨0,settledNew _ _,Nat.zero_le _,by simp⟩,by simp,?_,?_⟩,rfl⟩
  · intro k p seen
    simp [genesisState,Module.initGenesisState,ConsensusStore.setVotes,emptyStore,newView,getEmpty] at seen
  · refine ⟨⟨trivial,rfl,by simp⟩,by simpa using small,?_,by simp,by simp,?_,by simp,by simp,by simp,
      le_refl _,le_refl _,by simp,?_,?_⟩
    · intro k low high
      simp only [length_nil] at high
      omega
    · intro a info hit
      simp [ActiveValidator.find] at hit
    · intro t low high
      simp only at high
      omega
    · intro above
      exact absurd above (lt_irrefl _)

theorem runInduction {admissible : Event → Prop} (Inv : ChainState → Prop)
    (step : ∀ s e s', admissible e → Inv s → s.apply m accept e = some s' → Inv s') (fit : ∀ e ∈ events, admissible e)
    (start : Inv s) (run : s.run m accept events = some s') : Inv s' := by
  induction events generalizing s with
  | nil => cases run; exact start
  | cons e rest ih =>
    obtain ⟨next,applied,later⟩ := runCons run
    exact ih (fun e' mem => fit e' (.tail _ mem)) (step s e next (fit e (by simp)) start applied) later

def Event.WeightsFit : Event → Prop
  | .setBFTParameters _ _ validators => WeightedQuorum.total BFTValidator.bftWeight validators < 9223372036854775808
  | _ => True

instance : DecidablePred Event.WeightsFit
  | .setBFTParameters _ _ _ => inferInstanceAs (Decidable (_ < _))
  | .block _ _ => inferInstanceAs (Decidable True)
  | .setGeneratorKeys _ => inferInstanceAs (Decidable True)
  | .commit => inferInstanceAs (Decidable True)

theorem applyBlock {m accept} {s s' : ChainState} {now n} (ok : s.apply m accept (.block now n) = some s') :
    accept now s n = true ∧ ∃ store', m.beforeTransactionsExecute n s.store = .ok store' ∧ s' = ⟨store',n::s.blocks⟩ := by
  simp only [ChainState.apply] at ok
  split at ok
  · rename_i acc
    cases ran : m.beforeTransactionsExecute n s.store with
    | error e => rw [ran] at ok; cases ok
    | ok store' => rw [ran] at ok; cases ok; exact ⟨acc,store',rfl,rfl⟩
  · cases ok

def Event.Keeps (good : BFTParams → Prop) : Event → Prop
  | .setBFTParameters _ _ validators =>
    WeightedQuorum.total BFTValidator.bftWeight validators < 9223372036854775808 ∧
      ∀ p, WellFormed p → p.validators = BFTValidator.sort validators → good p
  | _ => True

theorem weightsFitKeeps {e : Event} (fit : e.WeightsFit) : e.Keeps WellFormed := by
  cases e with
  | setBFTParameters _ _ vals => exact ⟨fit,fun _ wf _ => wf⟩
  | block _ _ | setGeneratorKeys _ | commit => trivial

theorem stepInv {m : Module} {accept} {good : BFTParams → Prop} (wf : ∀ p, good p → WellFormed p)
    (checks : ∀ now s n, accept now s n = true → headerChecks now s n = true) {genesis P chain v s s' e} (keeps : e.Keeps good)
    (inv : StoreInv good genesis P chain v s) (ok : s.apply m accept e = some s') :
    ∃ P' chain' v', StoreInv good genesis P' chain' v' s' ∧ v.maxHeightPrevoted ≤ v'.maxHeightPrevoted ∧
      v.maxHeightPrecommited ≤ v'.maxHeightPrecommited ∧
      (v'.maxHeightCertified = v.maxHeightCertified ∨ ∃ now n, e = .block now n ∧ accept now s n = true ∧
        n.aggregateCommit.empty = false ∧ v'.maxHeightCertified = n.aggregateCommit.height) := by
  cases e with
  | block now n =>
    obtain ⟨acc,store',ran,rfl⟩ := applyBlock ok
    obtain ⟨P',v',inv',prevoted,precommited,certified⟩ := blockStep inv wf (checks now s n acc) ran
    refine ⟨P',_,v',inv',prevoted,precommited,?_⟩
    cases empty : n.aggregateCommit.empty with
    | true => exact .inl (by rw [certified,empty]; rfl)
    | false => exact .inr ⟨now,n,rfl,acc,empty,by rw [certified,empty]; rfl⟩
  | setBFTParameters pre cert vals =>
    simp only [ChainState.apply] at ok
    cases changed : API.setBFTParameters m s.store pre cert vals with
    | error e => rw [changed] at ok; cases ok
    | ok store' =>
      rw [changed] at ok
      cases ok
      obtain ⟨v',inv',prevoted,precommited,certified⟩ := paramsStep inv changed keeps.1 keeps.2
      exact ⟨P,chain,v',inv',le_of_eq prevoted.symm,le_of_eq precommited.symm,Or.inl certified⟩
  | setGeneratorKeys gens =>
    simp only [ChainState.apply] at ok
    cases changed : API.setGeneratorKeys s.store gens with
    | error e => rw [changed] at ok; cases ok
    | ok store' =>
      rw [changed] at ok
      cases ok
      exact ⟨P,chain,v,keysStep inv changed,le_refl _,le_refl _,Or.inl rfl⟩
  | commit =>
    cases ok
    exact ⟨P,chain,v,commitStep inv,le_refl _,le_refl _,Or.inl rfl⟩

theorem reachInv (checks : ∀ now s n, accept now s n = true → headerChecks now s n = true)
    (small : genesis.height < maxUint32) (fit : ∀ e ∈ events, e.WeightsFit) (run : (genesisState genesis).run m accept events = some s) :
    ∃ P chain v, StoreInv WellFormed genesis P chain v s := by
  refine runInduction (fun s => ∃ P chain v, StoreInv WellFormed genesis P chain v s)
    (fun s e s' fit ⟨P,chain,v,inv⟩ ok => ?_) fit ?_ run
  · obtain ⟨P',chain',v',inv',_⟩ := stepInv (fun _ h => h) checks (weightsFitKeeps fit) inv ok
    exact ⟨P',chain',v',inv'⟩
  · obtain ⟨v,inv,_⟩ := genesisInv WellFormed genesis small default
    exact ⟨_,_,v,inv⟩

theorem votesCountedOnce (m : Module) (genesis : BlockHeader) (small : genesis.height < maxUint32)
    (events : List Event) (fit : ∀ e ∈ events, e.WeightsFit) (s : ChainState)
    (run : (genesisState genesis).run m headerChecks events = some s) : ∃ v, s.store.getVotes = .ok v ∧ ∀ i ∈ v.blockBFTInfos,
      ∃ p, API.getBFTParameters s.store i.height = .ok p ∧ ∃ prevoters precommitters : Finset Bytes,
        (∀ a ∈ prevoters, IsValidator p a) ∧ (∀ a ∈ precommitters, IsValidator p a) ∧
        i.prevoteWeight = ∑ a ∈ prevoters, weightOf p a ∧ i.precommitWeight = ∑ a ∈ precommitters, weightOf p a ∧
        i.prevoteWeight ≤ totalWeight p ∧ i.precommitWeight ≤ totalWeight p := by
  obtain ⟨P,chain,v,inv⟩ := reachInv (fun _ _ _ h => h) small fit run
  refine ⟨v,getVotesOk.mpr inv.votes,fun i member => ?_⟩
  obtain ⟨bound,settled,_,lowAll⟩ := inv.settled
  obtain ⟨S,T,tallied⟩ := inv.inv.tallies i member
  refine ⟨P i.height,(getBFTParamsInForce settled (lowAll i member)).mpr (inv.inForce i member),S,T,
    fun a inside => (tallied.prevoted a inside).1,fun a inside => (tallied.precommitted a inside).1,
    tallied.prevoteWeight,tallied.precommitWeight,?_,?_⟩
  · exact tallied.prevoteWeight ▸ votersWeightLe _ _
  · exact tallied.precommitWeight ▸ votersWeightLe _ _

def sampleValidator (key : UInt8) : BFTValidator := ⟨[key],1,[key]⟩

def sampleHeader (id : UInt8) (height timestamp : Nat) (previous generator : UInt8)
    (maxHeightPrevoted maxHeightGenerated : Nat) : BlockHeader :=
  {(default : BlockHeader) with
    id := [id], version := 2, height := height, timestamp := timestamp, previousBlockID := [previous]
    generatorAddress := [generator], maxHeightPrevoted := maxHeightPrevoted
    maxHeightGenerated := maxHeightGenerated}

def sampleRejoin : List Event :=
  [.setBFTParameters 2 2 [sampleValidator 1,sampleValidator 2],.commit,.block 0 (sampleHeader 1 1 10 0 1 0 0),
    .setBFTParameters 1 1 [sampleValidator 2],.commit,.block 0 (sampleHeader 2 2 20 1 2 0 0),
    .setBFTParameters 2 2 [sampleValidator 1,sampleValidator 2],.commit,.block 0 (sampleHeader 3 3 30 2 1 2 1)]

theorem votesCountedOnceRejoin : ∃ s, (genesisState (sampleHeader 0 0 0 0 0 0 0)).run ⟨4, fun _ _ => []⟩ headerChecks
    sampleRejoin = some s ∧ ∃ v, s.store.getVotes = .ok v ∧ ∀ i ∈ v.blockBFTInfos,
      ∃ p, API.getBFTParameters s.store i.height = .ok p ∧ ∃ prevoters precommitters : Finset Bytes,
        (∀ a ∈ prevoters, IsValidator p a) ∧ (∀ a ∈ precommitters, IsValidator p a) ∧
        i.prevoteWeight = ∑ a ∈ prevoters, weightOf p a ∧ i.precommitWeight = ∑ a ∈ precommitters, weightOf p a ∧
        i.prevoteWeight ≤ totalWeight p ∧ i.precommitWeight ≤ totalWeight p := by
  have runs : ((genesisState (sampleHeader 0 0 0 0 0 0 0)).run ⟨4,fun _ _ => []⟩ headerChecks
    sampleRejoin).isSome = true := by decide +kernel
  obtain ⟨s,run⟩ := isSome_iff_exists.mp runs
  exact ⟨s,run,votesCountedOnce _ _ (by decide) sampleRejoin (by decide) s run⟩

theorem certifiedBounds (votes : s.store.votes.view () = some v) (ok : verifyBlockAccepts c now s n = true)
    (ne : n.aggregateCommit.empty = false) :
    v.maxHeightCertified < n.aggregateCommit.height ∧ n.aggregateCommit.height ≤ v.maxHeightPrecommited := by
  obtain ⟨v',acc⟩ := acceptsAccepted ok
  have same : v' = v := some.inj (acc.votes.symm.trans votes)
  subst same
  rcases verifyAggregateCommitOk acc.votes acc.certificate with ⟨empty,_⟩ | ⟨_,_,cert⟩
  · rw [empty] at ne; contradiction
  · exact ⟨cert.increasing,cert.precommited⟩

structure HeightsInv (genesis : BlockHeader) (s : ChainState) (v : BFTVotes) : Prop where
  store : ∃ P chain, StoreInv WellFormed genesis P chain v s
  low : genesis.height ≤ v.maxHeightCertified
  high : v.maxHeightCertified ≤ v.maxHeightPrecommited

theorem heightsStep (fit : e.WeightsFit) (inv : HeightsInv genesis s v) (ok : s.apply c.liskBFT (verifyBlockAccepts c) e = some s') :
    ∃ v', HeightsInv genesis s' v' ∧ v.maxHeightPrevoted ≤ v'.maxHeightPrevoted ∧
      v.maxHeightPrecommited ≤ v'.maxHeightPrecommited ∧ v.maxHeightCertified ≤ v'.maxHeightCertified := by
  obtain ⟨P,chain,store⟩ := inv.store
  have low := inv.low
  have high := inv.high
  obtain ⟨P',chain',v',store',prevoted,precommited,certified⟩ :=
    stepInv (fun _ h => h) (fun _ _ _ => verifyBlockChecks) (weightsFitKeeps fit) store ok
  rcases certified with same | ⟨now,n,rfl,acc,ne,moved⟩
  · exact ⟨v',⟨⟨P',chain',store'⟩,by omega,by omega⟩,prevoted,precommited,by omega⟩
  · obtain ⟨above,below⟩ := certifiedBounds store.votes acc ne
    exact ⟨v',⟨⟨P',chain',store'⟩,by omega,by omega⟩,prevoted,precommited,by omega⟩

theorem heightsReached (small : genesis.height < maxUint32) (fit : ∀ e ∈ events, e.WeightsFit)
    (run : (genesisState genesis).run c.liskBFT (verifyBlockAccepts c) events = some s) : ∃ v, HeightsInv genesis s v := by
  refine runInduction (fun s => ∃ v, HeightsInv genesis s v) (fun s e s' fit ⟨v,inv⟩ ok => ?_) fit ?_ run
  · obtain ⟨v',inv',_⟩ := heightsStep fit inv ok
    exact ⟨v',inv'⟩
  · obtain ⟨v,inv,certified⟩ := genesisInv WellFormed genesis small default
    exact ⟨v,⟨⟨_,_,inv⟩,le_of_eq certified.symm,certified ▸ inv.inv.genesis⟩⟩

theorem heightsOrderedAndMonotone (c : Engine) (genesis : BlockHeader) (small : genesis.height < maxUint32)
    (events : List Event) (fit : ∀ e ∈ events, e.WeightsFit) (s s' : ChainState) (now : Nat) (n : BlockHeader)
    (run : (genesisState genesis).run c.liskBFT (verifyBlockAccepts c) events = some s)
    (block : s.apply c.liskBFT (verifyBlockAccepts c) (.block now n) = some s') :
    ∃ v v', s.store.getVotes = .ok v ∧ s'.store.getVotes = .ok v' ∧ s'.blocks.head? = some n ∧
      genesis.height ≤ v'.maxHeightCertified ∧ v'.maxHeightCertified ≤ v'.maxHeightPrecommited ∧
      v'.maxHeightPrecommited ≤ v'.maxHeightPrevoted ∧ v'.maxHeightPrevoted ≤ n.height ∧
      v.maxHeightPrevoted ≤ v'.maxHeightPrevoted ∧ v.maxHeightPrecommited ≤ v'.maxHeightPrecommited ∧
      v.maxHeightCertified ≤ v'.maxHeightCertified := by
  obtain ⟨v,inv⟩ := heightsReached small fit run
  obtain ⟨P,chain,store⟩ := inv.store
  obtain ⟨v',inv',prevoted,precommited,certified⟩ := heightsStep (e := .block now n) trivial inv block
  obtain ⟨P',chain',store'⟩ := inv'.store
  obtain ⟨_,store'',_,rfl⟩ := applyBlock block
  have tip := lastHeight rfl store'.inv.window.consecutive store'.blocks.symm
  exact ⟨v,v',getVotesOk.mpr store.votes,getVotesOk.mpr store'.votes,rfl,inv'.low,inv'.high,store'.inv.ordered,
    tip ▸ store'.inv.tip,prevoted,precommited,certified⟩

def sampleEngine : Engine where
  liskBFT := ⟨4,fun _ _ => []⟩
  bls := ⟨fun _ => [1],fun _ _ _ => true⟩
  chainID := []
  certificateMessage := fun _ _ => []
  genesisTimestamp := 0
  blockTime := 10
  verifySignature := fun _ _ _ => true

def sampleStart : List Event :=
  [.setBFTParameters 1 1 [sampleValidator 1],.setGeneratorKeys [⟨[1],[]⟩],.commit,
    .block 100 (sampleHeader 1 1 10 0 1 0 0),.commit]

theorem heightsOrderedAndMonotoneBlock : ∃ s s', (genesisState (sampleHeader 0 0 0 0 0 0 0)).run sampleEngine.liskBFT
    (verifyBlockAccepts sampleEngine) sampleStart = some s ∧ s.apply sampleEngine.liskBFT
      (verifyBlockAccepts sampleEngine) (.block 100 (sampleHeader 2 2 20 1 1 1 1)) = some s' ∧
    ∃ v v', s.store.getVotes = .ok v ∧ s'.store.getVotes = .ok v' ∧
      v'.maxHeightCertified ≤ v'.maxHeightPrecommited ∧ v'.maxHeightPrecommited ≤ v'.maxHeightPrevoted ∧
      v'.maxHeightPrevoted ≤ 2 ∧ v.maxHeightPrecommited ≤ v'.maxHeightPrecommited := by
  have runs : (((genesisState (sampleHeader 0 0 0 0 0 0 0)).run sampleEngine.liskBFT
      (verifyBlockAccepts sampleEngine) sampleStart).bind (fun s => s.apply sampleEngine.liskBFT
        (verifyBlockAccepts sampleEngine) (.block 100 (sampleHeader 2 2 20 1 1 1 1)))).isSome = true := by decide +kernel
  obtain ⟨s',both⟩ := isSome_iff_exists.mp runs
  obtain ⟨s,run,block⟩ := bind_eq_some_iff.mp both
  obtain ⟨v,v',votes,votes',_,_,certified,ordered,tip,_,monotone,_⟩ :=
    heightsOrderedAndMonotone sampleEngine _ (by decide) sampleStart (by decide) s s' 100 _ run block
  exact ⟨s,s',run,block,v,v',votes,votes',certified,ordered,tip,monotone⟩

end LiskEngine.Consensus
