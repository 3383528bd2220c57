import LiskEngine.BftReachable

/-! Accountable safety with fixed parameters. When two runs from one genesis
state precommit conflicting blocks, the generators with a contradicting pair of
headers, one in each run, outweigh the slack of the two quorums. Block IDs are
assumed not to collide among the headers of the two runs. -/
namespace LiskEngine.Consensus
open Liskbft Contradiction Diffdb BFTVotes List Option Bool WeightedQuorum

def ownsContradictingPair (chainA chainB : List BlockHeader) (address : Bytes) : Bool :=
  chainA.any (fun x => chainB.any (fun y => x ≠ y && x.generatorAddress = address && y.generatorAddress = address &&
    areDistinctHeadersContradicting (newBFTBlockHeader x) (newBFTBlockHeader y)))

theorem ownsPair (left : x ∈ chainA) (right : y ∈ chainB) (nodup : x ≠ y) (ownX : x.generatorAddress = address)
    (ownY : y.generatorAddress = address)
    (contradicting : areDistinctHeadersContradicting (newBFTBlockHeader x) (newBFTBlockHeader y) = true) :
    ownsContradictingPair chainA chainB address = true := by
  refine any_eq_true.mpr ⟨x,left,any_eq_true.mpr ⟨y,right,?_⟩⟩
  simp [nodup,ownX,ownY,contradicting]

theorem ownsPairSymm (chainA chainB : List BlockHeader) (addr : Bytes) :
    ownsContradictingPair chainA chainB addr = true → ownsContradictingPair chainB chainA addr = true := by
  intro owns
  obtain ⟨x,left,inner⟩ := any_eq_true.mp owns
  obtain ⟨y,right,facts⟩ := any_eq_true.mp inner
  simp only [and_eq_true,decide_eq_true_eq,ne_eq] at facts
  obtain ⟨⟨⟨nodup,ownX⟩,ownY⟩,contradicting⟩ := facts
  rw [contradictingSymm] at contradicting
  exact ownsPair right left (fun same => nodup same.symm) ownY ownX contradicting

theorem spanningHeader (walk : Acknowledges chain k x) (above : k ≤ height) (acknowledged : height ≤ x.maxHeightGenerated) :
    ∃ z ∈ chain, z.generatorAddress = x.generatorAddress ∧ z.maxHeightGenerated < height ∧ height ≤ z.height := by
  induction walk with
  | base lower => omega
  | @back x z mem own heightEq rest ih =>
    rcases lt_or_ge z.maxHeightGenerated height with lower | upper
    · exact ⟨z,mem,own,lower,by omega⟩
    · obtain ⟨z',mem',own',facts⟩ := ih upper
      exact ⟨z',mem',own'.trans own,facts⟩

theorem voteConflict (apart : ∀ z ∈ chainA, ∀ y ∈ chainB, h ≤ z.height → z ≠ y) (xIn : x ∈ chainA)
    (xOwn : x.generatorAddress = address) (xPrevoted : h ≤ x.maxHeightPrevoted)
    (walk : Acknowledges chainA h x) (yIn : y ∈ chainB) (yOwn : y.generatorAddress = address) (yLow : y.maxHeightGenerated < k)
    (yHigh : k ≤ y.height) (yPrevoted : y.maxHeightPrevoted < h) (above : h ≤ k) :
    ownsContradictingPair chainA chainB address = true := by
  have same := xOwn.trans yOwn.symm
  cases contradicting : areDistinctHeadersContradicting (newBFTBlockHeader x) (newBFTBlockHeader y) with
  | true =>
    have nodup : x ≠ y := fun eq => by rw [eq] at xPrevoted; omega
    exact ownsPair xIn yIn nodup xOwn yOwn contradicting
  | false =>
    have lower := lt_of_lt_of_le yPrevoted xPrevoted
    have acknowledged := consistentPrevoted same lower contradicting
    obtain ⟨z,zIn,zOwn,zLow,zHigh⟩ := spanningHeader walk (above.trans yHigh) acknowledged
    refine ownsPair zIn yIn (apart z zIn y yIn (by omega)) (zOwn.trans xOwn) yOwn ?_
    by_contra consistent
    rw [not_eq_true] at consistent
    have sameZ := (zOwn.trans xOwn).trans yOwn.symm
    rcases consistentSplit sameZ consistent with early | late
    · have : z.height ≤ y.maxHeightGenerated := early
      omega
    · have : y.height ≤ z.maxHeightGenerated := late
      omega

theorem quorumsConflict (invA : VotesInv (· = p) g PA chainA vA)
    (invB : VotesInv (· = p) g PB chainB vB) (above : g < vA.maxHeightPrecommited)
    (reached : vA.maxHeightPrecommited ≤ vB.maxHeightPrevoted)
    (apart : ∀ z ∈ chainA, ∀ y ∈ chainB, vA.maxHeightPrecommited ≤ z.height → z ≠ y) : p.prevoteThreshold+p.precommitThreshold ≤
      total BFTValidator.bftWeight (p.validators.filter (fun v => ownsContradictingPair chainA chainB v.address))+totalWeight p := by
  obtain ⟨precommitters,precommitQuorum,precommitted⟩ := invA.precommitEvidence above
  obtain ⟨k,prevoters,atLeast,fit,prevoteQuorum,prevoted⟩ := invB.prevoteEvidence _ above reached
  have headLe : (chainB.head?.map (·.height)).getD 0 ≤ g+chainB.length := by
    cases chainB with
    | nil => simp
    | cons b rest => have := invB.window.consecutive.1; simp; omega
  have paramsA := invA.params _ above (invA.ordered.trans invA.tip)
  have paramsB : PB k = p := invB.params k (by omega) (by omega)
  rw [paramsA] at precommitQuorum
  rw [paramsB] at prevoteQuorum
  have overlap := intersection BFTValidator.address BFTValidator.bftWeight p.validators
    prevoters precommitters
  have owners := setWeightLeMembers BFTValidator.address BFTValidator.bftWeight p.validators
    (prevoters ∩ precommitters)
  have inside : total BFTValidator.bftWeight
      (p.validators.filter (·.address ∈ prevoters ∩ precommitters)) ≤
      total BFTValidator.bftWeight
        (p.validators.filter (fun v => ownsContradictingPair chainA chainB v.address)) := by
    refine List.Sublist.sum_le_sum ((monotone_filter_right p.validators (fun v mem => ?_)).map _)
      (fun _ _ => Nat.zero_le _)
    have both := Finset.mem_inter.mp (of_decide_eq_true mem)
    obtain ⟨_,y,yIn,yOwn,yLow,yHigh,yPrevoted⟩ := prevoted _ both.1
    obtain ⟨_,x,xIn,xOwn,xPrevoted,walk⟩ := precommitted _ both.2
    exact voteConflict apart xIn xOwn xPrevoted walk yIn yOwn yLow yHigh yPrevoted atLeast
  unfold votersWeight at precommitQuorum prevoteQuorum
  unfold totalWeight
  omega

def Linked : List BlockHeader → Prop
  | b :: previous :: rest => b.previousBlockID = previous.id ∧ Linked (previous :: rest)
  | _ => True

theorem linkedTail (linked : Linked (b::rest)) : Linked rest := by
  cases rest with
  | nil => trivial
  | cons _ _ => exact linked.2

theorem linkedSuffix (pre : List BlockHeader) (linked : Linked (pre ++ rest)) : Linked rest := by
  induction pre with
  | nil => exact linked
  | cons b pre ih => exact ih (linkedTail linked)

theorem sameBelow (linkedA : Linked (z::restA)) (linkedB : Linked (z::restB))
    (size : restA.length = restB.length) (ids : ∀ a ∈ restA, ∀ b ∈ restB, a.id = b.id → a = b) : restA = restB := by
  induction restA generalizing z restB with
  | nil => exact (eq_nil_of_length_eq_zero size.symm).symm
  | cons a tailA ih =>
    cases restB with
    | nil => simp at size
    | cons b tailB =>
      have same : a = b := ids a (by simp) b (by simp) (linkedA.1.symm.trans linkedB.1)
      subst same
      rw [ih linkedA.2 linkedB.2 (by simpa using size)
        (fun x inX y inY => ids x (.tail _ inX) y (.tail _ inY))]

structure ChainOf (genesis : BlockHeader) (chain : List BlockHeader) : Prop where
  linked : Linked (chain ++ [genesis])
  consecutive : Consecutive genesis.height chain

theorem consecutiveSuffix (consec : Consecutive g (pre ++ z::rest)) : z.height = g+rest.length+1 ∧ ∀ b ∈ pre, z.height < b.height := by
  induction pre with
  | nil => exact ⟨consec.1,by simp⟩
  | cons b pre ih =>
    obtain ⟨height,above⟩ := ih consec.2
    refine ⟨height,fun b' mem => ?_⟩
    rcases mem_cons.mp mem with same | inside
    · have top : b.height = g+(pre ++ z::rest).length+1 := consec.1
      rw [length_append,length_cons] at top
      rw [same]
      omega
    · exact above b' inside

theorem findBelow (above : ∀ b ∈ pre, z.height < b.height) (low : k ≤ z.height) :
    getBlockHeaderByHeight (pre ++ z::rest) k = getBlockHeaderByHeight (z::rest) k := by
  have absent : pre.find? (·.height = k) = none := by
    rw [find?_eq_none]
    intro b mem
    have := above b mem
    simp only [decide_eq_true_eq]
    omega
  unfold getBlockHeaderByHeight
  rw [find?_append,absent]
  rfl

theorem forkedApart (left : ChainOf genesis chainA) (right : ChainOf genesis chainB)
    (ids : ∀ a ∈ chainA ++ [genesis], ∀ b ∈ chainB ++ [genesis], a.id = b.id → a = b)
    (atA : getBlockHeaderByHeight (chainA ++ [genesis]) k = .ok a) (atB : getBlockHeaderByHeight (chainB ++ [genesis]) k = .ok b)
    (different : a ≠ b) : ∀ z ∈ chainA, ∀ y ∈ chainB, k ≤ z.height → z ≠ y := by
  rintro z inA y inB low rfl
  obtain ⟨preA,restA,splitA⟩ := append_of_mem inA
  obtain ⟨preB,restB,splitB⟩ := append_of_mem inB
  obtain ⟨heightA,aboveA⟩ := consecutiveSuffix (splitA ▸ left.consecutive)
  obtain ⟨heightB,aboveB⟩ := consecutiveSuffix (splitB ▸ right.consecutive)
  have linkedA := linkedSuffix preA (by
    have := left.linked
    rw [splitA] at this
    simpa using this)
  have linkedB := linkedSuffix preB (by
    have := right.linked
    rw [splitB] at this
    simpa using this)
  have same : restA ++ [genesis] = restB ++ [genesis] := by
    refine sameBelow linkedA linkedB (by simp; omega) (fun x inX y inY => ids x ?_ y ?_)
    · rw [splitA]; simp at inX ⊢; tauto
    · rw [splitB]; simp at inY ⊢; tauto
  rw [splitA,append_assoc,cons_append,findBelow aboveA low,same] at atA
  rw [splitB,append_assoc,cons_append,findBelow aboveB low] at atB
  exact different (Except.ok.inj (atA.symm.trans atB))

theorem foundAbove (consec : Consecutive genesis.height chain) (found : getBlockHeaderByHeight (chain ++ [genesis]) k = .ok b) :
    b = genesis ∨ genesis.height < k := by
  unfold getBlockHeaderByHeight at found
  cases hit : (chain ++ [genesis]).find? (·.height = k) with
  | none => rw [hit] at found; cases found
  | some b' =>
    rw [hit] at found
    cases found
    have height : b.height = k := by simpa using find?_some hit
    rcases mem_append.mp (mem_of_find?_eq_some hit) with inside | last
    · exact .inr (height ▸ (consecutiveAbove consec inside).1)
    · exact .inl (mem_singleton.mp last)

theorem linkedStep {c} {s s' : ChainState} {e} (linked : Linked s.blocks)
    (ok : s.apply c.liskBFT (verifyBlockAccepts c) e = some s') : Linked s'.blocks := by
  cases e with
  | block now n =>
    obtain ⟨accepts,store',_,rfl⟩ := applyBlock ok
    obtain ⟨v,acc⟩ := acceptsAccepted accepts
    obtain ⟨last,rest,blocks,_,prev⟩ := acc.linked
    rw [blocks] at linked ⊢
    exact ⟨prev,linked⟩
  | setBFTParameters pre cert vals | setGeneratorKeys gens =>
    simp only [ChainState.apply] at ok
    split at ok <;> cases ok
    exact linked
  | commit => cases ok; exact linked

def Event.KeepsParameters : Event → Prop
  | .setBFTParameters _ _ _ => False
  | _ => True

instance : DecidablePred Event.KeepsParameters
  | .setBFTParameters _ _ _ => inferInstanceAs (Decidable False)
  | .block _ _ => inferInstanceAs (Decidable True)
  | .setGeneratorKeys _ => inferInstanceAs (Decidable True)
  | .commit => inferInstanceAs (Decidable True)

theorem keepsParametersKeeps {good} {e : Event} (fixed : e.KeepsParameters) : e.Keeps good := by
  cases e with
  | setBFTParameters _ _ _ => exact absurd fixed id
  | block _ _ | setGeneratorKeys _ | commit => trivial

theorem emptyChainInv (inv : StoreInv good genesis P [] v s)
    (es : ∀ k p, s.store.params.view k = some p → good' p) : StoreInv good' genesis P [] v s := by
  have base := inv.inv
  refine ⟨inv.blocks,inv.votesCoherent,inv.paramsCoherent,inv.keysCoherent,inv.votes,inv.settled,inv.inForce,
    es,⟨base.window,base.small,?_,base.acknowledged,base.tallies,base.active,base.prevotedTop,
      base.prevotedHeld,base.precommitedHeld,base.genesis,base.ordered,base.tip,base.prevoteEvidence,
      base.precommitEvidence⟩⟩
  intro k low high
  simp only [length_nil] at high
  omega

theorem startInv (small : genesis.height < maxUint32) (fits : total BFTValidator.bftWeight validators < 9223372036854775808)
    (started : (genesisState genesis).apply m accept (.setBFTParameters precommitThreshold certificateThreshold validators) = some start)
    (params : API.getBFTParameters start.store (genesis.height+1) = .ok p) :
    WellFormed p ∧ ∃ P v, StoreInv (· = p) genesis P [] v start ∧ start.blocks = [genesis] := by
  obtain ⟨v,inv,_⟩ := genesisInv WellFormed genesis small default
  simp only [ChainState.apply] at started
  cases changed : API.setBFTParameters m (genesisState genesis).store precommitThreshold certificateThreshold
      validators with
  | error e => rw [changed] at started; cases started
  | ok store' =>
    rw [changed] at started
    cases started
    obtain ⟨v',inv',_⟩ := paramsStep inv changed fits (fun _ h _ => h)
    obtain ⟨bound,settled,low,_⟩ := inv'.settled
    have inForce := (getBFTParamsInForce settled (le_trans low (by simp))).mp params
    obtain ⟨k,floor⟩ := inForce
    have absent : ∀ h, (genesisState genesis).store.params.view h = none := fun h => rfl
    refine ⟨inv'.entries k p floor.held,default,v',emptyChainInv inv' (fun h q seen => ?_),rfl⟩
    rcases setParamsSpec changed inv.votes fits with same | ⟨q',_,_,_,_,res⟩
    · rw [same,absent] at seen
      cases seen
    have held := floor.held
    rw [res] at seen held
    simp only [Database.setView inv.paramsCoherent,absent] at seen held
    split at seen <;> split at held <;> simp_all

theorem fixedReach (wf : WellFormed p) (inv : StoreInv (· = p) genesis P [] v start)
    (blocks : start.blocks = [genesis]) (fixed : ∀ e ∈ events, e.KeepsParameters)
    (run : start.run c.liskBFT (verifyBlockAccepts c) events = some s) :
    ∃ P chain v, StoreInv (· = p) genesis P chain v s ∧ ChainOf genesis chain := by
  have reached : (∃ P chain v, StoreInv (· = p) genesis P chain v s) ∧ Linked s.blocks := by
    refine runInduction (fun s => (∃ P chain v, StoreInv (· = p) genesis P chain v s) ∧ Linked s.blocks)
      (fun s e s' fixed ⟨⟨P,chain,v,inv⟩,linked⟩ ok => ?_) fixed ⟨⟨P,[],v,inv⟩,by rw [blocks]; trivial⟩ run
    obtain ⟨P',chain',v',inv',_⟩ := stepInv (fun q (same : q = p) => same ▸ wf) (fun _ _ _ => verifyBlockChecks)
      (keepsParametersKeeps fixed) inv ok
    exact ⟨⟨P',chain',v',inv'⟩,linkedStep linked ok⟩
  obtain ⟨⟨P,chain,v,inv⟩,linked⟩ := reached
  exact ⟨P,chain,v,inv,inv.blocks ▸ linked,inv.inv.window.consecutive⟩

def ChainState.headers (s : ChainState) : List BlockHeader := s.blocks.dropLast

theorem accountableSafety (c : Engine) (genesis : BlockHeader) (small : genesis.height < maxUint32)
    (precommitThreshold certificateThreshold : Nat) (validators : List BFTValidator)
    (fits : WeightedQuorum.total BFTValidator.bftWeight validators < 9223372036854775808) (start : ChainState)
    (started : (genesisState genesis).apply c.liskBFT (verifyBlockAccepts c)
      (.setBFTParameters precommitThreshold certificateThreshold validators) = some start)
    (p : BFTParams) (params : API.getBFTParameters start.store (genesis.height + 1) = .ok p)
    (eventsA eventsB : List Event) (fixedA : ∀ e ∈ eventsA, e.KeepsParameters)
    (fixedB : ∀ e ∈ eventsB, e.KeepsParameters) (sA sB : ChainState)
    (runA : start.run c.liskBFT (verifyBlockAccepts c) eventsA = some sA)
    (runB : start.run c.liskBFT (verifyBlockAccepts c) eventsB = some sB)
    (ids : ∀ a ∈ sA.blocks, ∀ b ∈ sB.blocks, a.id = b.id → a = b) (vA vB : BFTVotes)
    (votesA : sA.store.getVotes = .ok vA) (votesB : sB.store.getVotes = .ok vB) (h k : Nat) (below : k ≤ h)
    (reachedA : h ≤ vA.maxHeightPrecommited) (reachedB : h ≤ vB.maxHeightPrecommited) (a b : BlockHeader)
    (atA : getBlockHeaderByHeight sA.blocks k = .ok a) (atB : getBlockHeaderByHeight sB.blocks k = .ok b) (different : a ≠ b) :
    p.prevoteThreshold + p.precommitThreshold ≤ WeightedQuorum.total BFTValidator.bftWeight
      (p.validators.filter (fun v => ownsContradictingPair sA.headers sB.headers v.address)) + totalWeight p := by
  obtain ⟨wellFormed,P,v,inv,blocks⟩ := startInv small fits started params
  obtain ⟨PA,chainA,vA',invA,linkedA⟩ := fixedReach wellFormed inv blocks fixedA runA
  obtain ⟨PB,chainB,vB',invB,linkedB⟩ := fixedReach wellFormed inv blocks fixedB runB
  have sameA : vA' = vA := some.inj (invA.votes.symm.trans (getVotesOk.mp votesA))
  have sameB : vB' = vB := some.inj (invB.votes.symm.trans (getVotesOk.mp votesB))
  subst sameA sameB
  have headersA : sA.headers = chainA := by simp [ChainState.headers,invA.blocks]
  have headersB : sB.headers = chainB := by simp [ChainState.headers,invB.blocks]
  rw [invA.blocks] at ids atA
  rw [invB.blocks] at ids atB
  have above : genesis.height < k := by
    rcases foundAbove linkedA.consecutive atA with rfl | above
    · rcases foundAbove linkedB.consecutive atB with same | above
      · exact absurd same.symm different
      · exact above
    · exact above
  have apart := forkedApart linkedA linkedB ids atA atB different
  rw [headersA,headersB]
  rcases le_total vA'.maxHeightPrecommited vB'.maxHeightPrecommited with lower | higher
  · exact quorumsConflict invA.inv invB.inv (by omega) (lower.trans invB.inv.ordered)
      (fun z inA y inB high => apart z inA y inB (by omega))
  have swapped := quorumsConflict invB.inv invA.inv (by omega) (higher.trans invA.inv.ordered)
    (fun z inB y inA high same => apart y inA z inB (by rw [← same]; omega) same.symm)
  have sameOwners : ∀ v : BFTValidator, ownsContradictingPair chainB chainA v.address =
      ownsContradictingPair chainA chainB v.address := by
    intro v
    rw [Bool.eq_iff_iff]
    exact ⟨ownsPairSymm _ _ _,ownsPairSymm _ _ _⟩
  simpa only [sameOwners] using swapped

def sampleFork (first second : UInt8) : List Event :=
  [.setGeneratorKeys [⟨[1],[]⟩],.commit,.block 100 (sampleHeader first 1 10 0 1 0 0),.commit,
    .block 100 (sampleHeader second 2 20 first 1 1 1)]

def sampleForkStart : ChainState :=
  ((genesisState (sampleHeader 0 0 0 0 0 0 0)).apply sampleEngine.liskBFT (verifyBlockAccepts sampleEngine)
    (.setBFTParameters 1 1 [sampleValidator 1])).getD (genesisState (sampleHeader 0 0 0 0 0 0 0))

def sampleForkEnd (first second : UInt8) : ChainState :=
  (sampleForkStart.run sampleEngine.liskBFT (verifyBlockAccepts sampleEngine) (sampleFork first second)).getD
    sampleForkStart

def sampleForkVotes (first second : UInt8) : BFTVotes :=
  ((sampleForkEnd first second).store.votes.view ()).getD ⟨0,0,0,[],[]⟩

theorem accountableSafetyFork :
    (⟨1, 1, 1, [sampleValidator 1], []⟩ : BFTParams).prevoteThreshold + 1 ≤ WeightedQuorum.total BFTValidator.bftWeight
      ([sampleValidator 1].filter (fun v =>
        ownsContradictingPair (sampleForkEnd 1 2).headers (sampleForkEnd 3 4).headers v.address)) + 1 :=
  accountableSafety sampleEngine (sampleHeader 0 0 0 0 0 0 0) (by decide) 1 1 [sampleValidator 1] (by decide)
    sampleForkStart (by decide +kernel) ⟨1,1,1,[sampleValidator 1],[]⟩ (by rfl) (sampleFork 1 2) (sampleFork 3 4)
    (by decide) (by decide) (sampleForkEnd 1 2) (sampleForkEnd 3 4) (by decide +kernel) (by decide +kernel)
    (by decide +kernel) (sampleForkVotes 1 2) (sampleForkVotes 3 4) (by rfl) (by rfl) 1 1 (by decide)
    (by decide +kernel) (by decide +kernel) (sampleHeader 1 1 10 0 1 0 0) (sampleHeader 3 1 10 0 1 0 0) (by rfl) (by rfl)
    (by decide)

end LiskEngine.Consensus
