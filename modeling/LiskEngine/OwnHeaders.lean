import LiskEngine.AbiCaller
import LiskEngine.ChainWindow

/-! What a new header says about the earlier ones of its generator: whether it implies the
maximal prevotes, whether comparing it with the latest of them is enough, and how far apart they are. -/
namespace LiskEngine.Consensus
open Liskbft Contradiction Diffdb BFTVotes List Option

def OwnOrGone (s : ChainState) (v : BFTVotes) (generator : Bytes) (height : Nat) : Prop :=
  ∀ b, getBlockHeaderByHeight s.blocks height = .ok b → height ∈ windowHeights v → b.generatorAddress = generator

section
variable {s : ChainState} {v : BFTVotes} {generator : Bytes}

theorem ownEntry (mirrors : Mirrors s v) {j : Nat} {h} (hit : (windowHeaders v)[j]? = some h) :
    OwnOrGone s v generator h.height ↔ h.generatorAddress = generator := by
  obtain ⟨b,block,same⟩ := mirrors.blockOf hit
  have made := congrArg BFTPartialBlockHeader.generatorAddress same
  constructor
  · intro own
    rw [← made]
    refine own b block ?_
    rw [windowHeightsOf]
    exact mem_map_of_mem (mem_of_getElem? hit)
  · intro own b' block' _
    cases Except.ok.inj (block.symm.trans block')
    exact made.trans own

theorem gone (mirrors : Mirrors s v) (out : (windowHeaders v)[j]? = none)
    (position : height+j = API.currentHeight v) : OwnOrGone s v generator height := by
  intro b _ listed
  rw [windowHeightsOf] at listed
  obtain ⟨h,mem,same⟩ := mem_map.mp listed
  obtain ⟨i,hit⟩ := getElem?_of_mem mem
  have other := mirrors.heights i h hit
  have index : i = j := by omega
  rw [index,out] at hit
  cases hit

theorem impliedValue (mirrors : Mirrors s v) {n rest} (window : windowHeaders v = newBFTBlockHeader n::rest) :
    ∃ implied, impliesMaximalPrevotes s.store n = .ok implied ∧ (implied = true ↔
      n.maxHeightGenerated < n.height ∧ OwnOrGone s v n.generatorAddress (n.maxHeightGenerated+1)) := by
  have cur : API.currentHeight v = n.height := currentHeightOf window
  have entry : ∀ j, (windowHeaders v)[j]? = (v.blockBFTInfos[j]?).map BFTBlockHeader.partialHeader :=
    fun j => by rw [windowHeaders,getElem?_map]
  have votes := getVotesOk.mpr mirrors.votes
  unfold impliesMaximalPrevotes
  simp only [votes,liftVotes,bind,Except.bind]
  cases infos : v.blockBFTInfos with
  | nil => rw [windowHeaders,infos] at window; cases window
  | cons latest others =>
    have top : latest.height = n.height := by
      rw [← cur]
      unfold API.currentHeight
      rw [infos]
    simp only [top,ne_eq,not_true,if_false]
    rw [← infos]
    split
    · exact ⟨false,rfl,iff_of_false (by decide) (by omega)⟩
    have place : n.maxHeightGenerated+1+(n.height-n.maxHeightGenerated-1) = API.currentHeight v := by omega
    have read := entry (n.height-n.maxHeightGenerated-1)
    split
    · rename_i out
      rw [out] at read
      exact ⟨true,rfl,iff_of_true rfl ⟨by omega,gone mirrors read place⟩⟩
    · rename_i bftInfo hit
      rw [hit] at read
      have height := mirrors.heights _ _ read
      have same : n.maxHeightGenerated+1 = bftInfo.partialHeader.height := by omega
      refine ⟨_,rfl,?_⟩
      rw [same,ownEntry mirrors read,beq_iff_eq]
      exact (and_iff_right (by omega)).symm

end

theorem maximalPrevotesIff (m : Module) (genesis : BlockHeader) (events : List Event) (s s' : ChainState) (now : Nat)
    (n : BlockHeader) (run : (genesisState genesis).run m headerChecks events = some s)
    (block : s.apply m headerChecks (.block now n) = some s') :
    ∃ v implied, s'.store.getVotes = .ok v ∧ impliesMaximalPrevotes s'.store n = .ok implied ∧
      ((implied = true ↔ n.maxHeightGenerated < n.height ∧ OwnOrGone s' v n.generatorAddress n.maxHeightGenerated) ↔
        (n.maxHeightGenerated < n.height → (OwnOrGone s' v n.generatorAddress n.maxHeightGenerated ↔
          OwnOrGone s' v n.generatorAddress (n.maxHeightGenerated + 1)))) := by
  obtain ⟨v,mirrors⟩ := reachMirrors (fun _ _ _ accepted => accepted) run
  obtain ⟨accepted,store',executed,rfl⟩ := applyBlock block
  obtain ⟨v',room,mirrors',window,_⟩ := mirrorsBlock mirrors accepted executed
  obtain ⟨implied,returned,value⟩ := impliedValue mirrors' window
  refine ⟨v',implied,getVotesOk.mpr mirrors'.votes,returned,?_⟩
  tauto

def twoGenerators : List Event :=
  [.setBFTParameters 2 2 [sampleValidator 1,sampleValidator 2],.setGeneratorKeys [⟨[1],[]⟩,⟨[2],[]⟩],.commit,
    .block 100 (sampleHeader 1 1 20 0 1 0 0),.commit]

def impliedAfter (events : List Event) (n : BlockHeader) : Option (Except ExecuteError Bool × List Nat × List Bytes) := do
  let s ← (genesisState (sampleHeader 0 0 0 0 0 0 0)).run sampleEngine.liskBFT (verifyBlockAccepts sampleEngine)
    (twoGenerators ++ events ++ [.block 100 n])
  let v ← s.store.getVotes.toOption
  some (impliesMaximalPrevotes s.store n, windowHeights v, s.blocks.map (·.generatorAddress))

theorem maximalPrevotesSample : ∃ s s', (genesisState (sampleHeader 0 0 0 0 0 0 0)).run sampleEngine.liskBFT headerChecks
      twoGenerators = some s ∧ s.apply sampleEngine.liskBFT headerChecks (.block 100 (sampleHeader 2 2 40 1 1 0 1)) = some s' ∧
    ∃ v implied, s'.store.getVotes = .ok v ∧ impliesMaximalPrevotes s'.store (sampleHeader 2 2 40 1 1 0 1) = .ok implied ∧
      (implied = true ↔ 1 < 2 ∧ OwnOrGone s' v [1] 1) := by
  have runs : ((((genesisState (sampleHeader 0 0 0 0 0 0 0)).run sampleEngine.liskBFT headerChecks twoGenerators).bind
      (fun s => s.apply sampleEngine.liskBFT headerChecks (.block 100 (sampleHeader 2 2 40 1 1 0 1)))).filter
        (fun s' => s'.blocks = [sampleHeader 2 2 40 1 1 0 1,sampleHeader 1 1 20 0 1 0 0,sampleHeader 0 0 0 0 0 0 0])).isSome = true := by
    decide +kernel
  obtain ⟨s',both⟩ := isSome_iff_exists.mp runs
  obtain ⟨both,blocks⟩ := filter_eq_some_iff.mp both
  obtain ⟨s,run,block⟩ := bind_eq_some_iff.mp both
  obtain ⟨v,implied,votes,returned,same⟩ := maximalPrevotesIff _ _ twoGenerators s s' 100 _ run block
  refine ⟨s,s',run,block,v,implied,votes,returned,same.mpr (fun _ => iff_of_true ?_ ?_)⟩
  all_goals
    intro b found _
    rw [of_decide_eq_true blocks] at found
    cases found
    rfl

theorem impliedWrongly : impliedAfter [] (sampleHeader 2 2 30 1 2 0 1) = some (.ok true, [2, 1], [[2], [1], [0]]) ∧
      impliedAfter [.block 100 (sampleHeader 2 2 30 1 2 0 0), .commit] (sampleHeader 3 3 40 2 1 1 1) =
        some (.ok false, [3, 2, 1], [[1], [2], [1], [0]]) := by
  decide +kernel

def PrevotedRises (v : BFTVotes) : Prop :=
  (v.maxHeightPrevoted :: (windowHeaders v).map (·.maxHeightPrevoted)).Pairwise (· ≥ ·)

theorem ownAcknowledged (heights : (b::rest).Pairwise (fun a c => c.height < a.height))
    (prevoted : (b::rest).Pairwise (fun a c => c.maxHeightPrevoted ≤ a.maxHeightPrevoted))
    (compared : Compared (b::rest)) (mem : c ∈ rest) (own : c.generatorAddress = b.generatorAddress) :
    c.height ≤ b.maxHeightGenerated ∧ c.maxHeightGenerated ≤ b.maxHeightGenerated := by
  induction rest generalizing b with
  | nil => cases mem
  | cons first rest ih =>
    obtain ⟨lower,heights'⟩ := pairwise_cons.mp heights
    obtain ⟨below,prevoted'⟩ := pairwise_cons.mp prevoted
    by_cases same : first.generatorAddress = b.generatorAddress
    · have hit : latestOwn (first::rest) b.generatorAddress = some first := by simp [latestOwn,same]
      obtain ⟨height,generated⟩ := (acknowledged same (lower first (.head _)) (below first (.head _))).mp
        (compared.1 first hit)
      rcases mem_cons.mp mem with rfl | later
      · exact ⟨height,generated⟩
      · have earlier := ih heights' prevoted' compared.2 later (own.trans same.symm)
        omega
    · have later : c ∈ rest := (mem_cons.mp mem).resolve_left (fun eq => same (eq ▸ own))
      have skip := (sublist_cons_self first rest).cons_cons b
      refine ih (heights.sublist skip) (prevoted.sublist skip) ⟨fun d hit => compared.1 d ?_,compared.2.2⟩ later own
      simpa [latestOwn,same] using hit

theorem windowDescends (mirrors : Mirrors s v) : (windowHeaders v).Pairwise (fun a c => c.height < a.height) := by
  rw [pairwise_iff_getElem]
  intro i j inside inside' less
  have first := mirrors.heights i _ (getElem?_eq_getElem inside)
  have second := mirrors.heights j _ (getElem?_eq_getElem inside')
  omega

theorem latestOwnMember (hit : latestOwn headers generator = some b) : b ∈ headers ∧ b.generatorAddress = generator :=
  ⟨mem_of_find?_eq_some hit,by simpa using find?_some hit⟩

theorem latestHeaderEnough (m : Module) (genesis : BlockHeader) (events : List Event) (s : ChainState) (v : BFTVotes)
    (run : (genesisState genesis).run m headerChecks events = some s) (votes : s.store.getVotes = .ok v)
    (rises : PrevotedRises v) (header : BFTPartialBlockHeader) (height : header.height = API.currentHeight v + 1)
    (prevoted : header.maxHeightPrevoted = v.maxHeightPrevoted) :
    (v.contradicting header = false ↔ ∀ i ∈ v.blockBFTInfos, i.generatorAddress = header.generatorAddress →
      areDistinctHeadersContradicting i.partialHeader header = false) ∧
    (v.contradicting header = false → ∀ i ∈ v.blockBFTInfos, i.generatorAddress = header.generatorAddress →
      i.height ≤ header.maxHeightGenerated ∧ i.maxHeightGenerated ≤ header.maxHeightGenerated) := by
  obtain ⟨v',mirrors⟩ := reachMirrors (fun _ _ _ accepted => accepted) run
  cases mirrors.votes.symm.trans (getVotesOk.mp votes)
  obtain ⟨top,rest⟩ := pairwise_cons.mp rises
  have lower : ∀ c ∈ windowHeaders v, c.height < header.height := by
    intro c member
    obtain ⟨j,found⟩ := getElem?_of_mem member
    have position := mirrors.heights j c found
    omega
  have below : ∀ c ∈ windowHeaders v, c.maxHeightPrevoted ≤ header.maxHeightPrevoted :=
    fun c member => prevoted ▸ top _ (mem_map_of_mem member)
  have listed : ∀ i ∈ v.blockBFTInfos, i.partialHeader ∈ windowHeaders v := fun i member => mem_map_of_mem member
  have acknowledges : v.contradicting header = false → ∀ c ∈ windowHeaders v, c.generatorAddress = header.generatorAddress →
        c.height ≤ header.maxHeightGenerated ∧ c.maxHeightGenerated ≤ header.maxHeightGenerated := by
    intro consistent c member own
    exact ownAcknowledged (pairwise_cons.mpr ⟨lower,windowDescends mirrors⟩)
      (pairwise_cons.mpr ⟨below,pairwise_map.mp rest⟩)
      ⟨contradictingFalse.mp consistent,mirrors.compared⟩ member own
  refine ⟨⟨fun consistent i member own => ?_,fun all => ?_⟩,fun consistent i member own => ?_⟩
  · exact (acknowledged own (lower _ (listed i member)) (below _ (listed i member))).mpr
      (acknowledges consistent _ (listed i member) own)
  · rw [contradictingFalse]
    intro b found
    obtain ⟨member,own⟩ := latestOwnMember found
    obtain ⟨i,inside,rfl⟩ := mem_map.mp member
    exact all i inside own
  · exact acknowledges consistent _ (listed i member) own

theorem risesStep (rises : PrevotedRises v) (grows : v.maxHeightPrevoted ≤ v'.maxHeightPrevoted)
    (window : windowHeaders v' = windowHeaders v ∨ ∃ n room, windowHeaders v' = newBFTBlockHeader n ::
      (windowHeaders v).take room ∧ n.maxHeightPrevoted = v.maxHeightPrevoted) : PrevotedRises v' := by
  obtain ⟨top,rest⟩ := pairwise_cons.mp rises
  rcases window with same | ⟨n,room,pushed,prevoted⟩
  · rw [PrevotedRises,same]
    exact pairwise_cons.mpr ⟨fun h mem => (top h mem).trans grows,rest⟩
  have shorter : List.Sublist (((windowHeaders v).take room).map (·.maxHeightPrevoted))
      ((windowHeaders v).map (·.maxHeightPrevoted)) := (take_sublist room _).map _
  have here : (newBFTBlockHeader n).maxHeightPrevoted = v.maxHeightPrevoted := prevoted
  rw [PrevotedRises,pushed,map_cons,here]
  refine pairwise_cons.mpr ⟨fun h mem => ?_,rises.sublist (shorter.cons_cons _)⟩
  rcases mem_cons.mp mem with rfl | old
  · exact grows
  · exact (top h (shorter.subset old)).trans grows

theorem risesWhenWeightsFit (checks : ∀ now s n, accept now s n = true → headerChecks now s n = true)
    (small : genesis.height < maxUint32) (fit : ∀ e ∈ events, e.WeightsFit)
    (run : (genesisState genesis).run m accept events = some s) : ∃ v, s.store.getVotes = .ok v ∧ PrevotedRises v := by
  have start : ∃ P chain v, StoreInv WellFormed genesis P chain v (genesisState genesis) ∧
      Mirrors (genesisState genesis) v ∧ PrevotedRises v := by
    obtain ⟨v,inv,_⟩ := genesisInv WellFormed genesis small default
    have mirrors := genesisMirrors genesis
    cases mirrors.votes.symm.trans inv.votes
    exact ⟨_,_,_,inv,mirrors,pairwise_singleton _ _⟩
  obtain ⟨_,_,v,inv,_,rises⟩ := runInduction (fun s => ∃ P chain v, StoreInv WellFormed genesis P chain v s ∧
      Mirrors s v ∧ PrevotedRises v) (fun s e s' fit ⟨P,chain,v,inv,mirrors,rises⟩ ok => by
    obtain ⟨P',chain',v',inv',grows,_⟩ := stepInv (fun _ h => h) checks (weightsFitKeeps fit) inv ok
    obtain ⟨v'',mirrors',window⟩ := mirrorsStep checks mirrors ok
    cases mirrors'.votes.symm.trans inv'.votes
    exact ⟨P',chain',v',inv',mirrors',risesStep rises grows window⟩) fit start run
  exact ⟨v,getVotesOk.mpr inv.votes,rises⟩

def wrappingStart : List Event :=
  [.setBFTParameters 3 3 [⟨[1],18446744073709551615,[1]⟩,⟨[2],3,[2]⟩,⟨[3],1,[3]⟩],
    .setGeneratorKeys [⟨[1],[]⟩,⟨[2],[]⟩,⟨[3],[]⟩,⟨[4],[]⟩],.commit,
    .block 1000 (sampleHeader 1 1 10 0 2 0 0),.commit,.block 1000 (sampleHeader 2 2 40 1 1 1 1),.commit,
    .block 1000 (sampleHeader 3 3 70 2 4 2 100),.commit,.block 1000 (sampleHeader 4 4 100 3 3 2 1),.commit,
    .block 1000 (sampleHeader 5 5 110 4 4 1 5),.commit,.block 1000 (sampleHeader 6 6 130 5 2 1 1),.commit]

def wrappingHeader : BlockHeader := sampleHeader 7 7 150 6 4 6 5

theorem latestHeaderEnoughSample : ∃ s v, (genesisState (sampleHeader 0 0 0 0 0 0 0)).run sampleEngine.liskBFT headerChecks
      twoGenerators = some s ∧ s.store.getVotes = .ok v ∧ PrevotedRises v ∧
    (v.contradicting ⟨2, [1], 1, 0⟩ = false ↔ ∀ i ∈ v.blockBFTInfos, i.generatorAddress = [1] →
      areDistinctHeadersContradicting i.partialHeader ⟨2, [1], 1, 0⟩ = false) := by
  have runs : (((genesisState (sampleHeader 0 0 0 0 0 0 0)).run sampleEngine.liskBFT headerChecks twoGenerators).bind
      (fun s => s.store.getVotes.toOption.map (fun v => (API.currentHeight v, v.maxHeightPrevoted)))) = some (1, 0) := by
    decide +kernel
  obtain ⟨s,run,seen⟩ := bind_eq_some_iff.mp runs
  obtain ⟨v,votes,rises⟩ := risesWhenWeightsFit (fun _ _ _ accepted => accepted) (by decide) (by decide) run
  rw [votes] at seen
  obtain ⟨top,prevoted⟩ := Prod.mk.inj (some.inj seen)
  exact ⟨s,v,run,votes,rises,(latestHeaderEnough _ _ twoGenerators s v run votes rises ⟨2,[1],1,0⟩
    (by rw [top]) prevoted.symm).1⟩

theorem olderHeaderContradicts : ((genesisState (sampleHeader 0 0 0 0 0 0 0)).run sampleEngine.liskBFT
      (verifyBlockAccepts sampleEngine) wrappingStart).bind (fun s => s.store.getVotes.toOption.map (fun v =>
        (verifyBlockAccepts sampleEngine 1000 s wrappingHeader, v.contradicting (newBFTBlockHeader wrappingHeader),
          v.blockBFTInfos.any (fun i => i.generatorAddress == [4] &&
            areDistinctHeadersContradicting i.partialHeader (newBFTBlockHeader wrappingHeader))))) =
      some (true, false, true) := by
  decide +kernel

theorem acceptsTurn {c : Engine} {now s n} (ok : verifyBlockAccepts c now s n = true) : ∃ last gens g, s.blocks.head? = some last ∧
    c.getSlotNumber last.timestamp < c.getSlotNumber n.timestamp ∧ getGeneratorKeys s.store.keys n.height = .ok gens ∧
    gens[c.getSlotNumber n.timestamp%gens.length]? = some g ∧ g.address = n.generatorAddress := by
  unfold verifyBlockAccepts at ok
  split at ok
  · rename_i checked
    cases chain : s.blocks with
    | nil => rw [chain] at checked; cases checked
    | cons last rest =>
      rw [chain] at checked
      obtain ⟨_,_,ok⟩ := bindOk checked
      obtain ⟨_,_,ok⟩ := bindOk ok
      obtain ⟨_,_,ok⟩ := bindOk ok
      obtain ⟨_,_,ok⟩ := bindOk ok
      obtain ⟨_,past,ok⟩ := bindOk ok
      obtain ⟨gens,keys,ok⟩ := bindOk ok
      obtain ⟨g,turn,ok⟩ := bindOk ok
      obtain ⟨_,own,_⟩ := bindOk ok
      refine ⟨last,gens,g,rfl,by simpa using checkOk past,liftBftOk keys,?_,by simpa using checkOk own⟩
      unfold atTimestamp at turn
      split at turn <;> cases turn
      assumption
  · cases ok

theorem passedStep {c : Engine} {slot} {s s' : ChainState} {e} (passed : ∀ last ∈ s.blocks.head?, slot ≤ c.getSlotNumber last.timestamp)
    (ok : s.apply c.liskBFT (verifyBlockAccepts c) e = some s') :
    ∀ last ∈ s'.blocks.head?, slot ≤ c.getSlotNumber last.timestamp := by
  cases e with
  | block now n =>
    obtain ⟨acc,store',_,rfl⟩ := applyBlock ok
    obtain ⟨last,_,_,top,past,_⟩ := acceptsTurn acc
    rintro _ ⟨⟩
    exact (passed last top).trans past.le
  | setBFTParameters pre cert vals | setGeneratorKeys gens =>
    simp only [ChainState.apply] at ok
    split at ok <;> cases ok
    exact passed
  | commit => cases ok; exact passed

theorem generatorsTakeTurns (c : Engine) (s s' t : ChainState) (now now' : Nat) (first second : BlockHeader) (events : List Event)
    (generators : List Generator) (distinct : (generators.map (·.address)).Nodup)
    (applied : s.apply c.liskBFT (verifyBlockAccepts c) (.block now first) = some s')
    (run : s'.run c.liskBFT (verifyBlockAccepts c) events = some t) (accepted : verifyBlockAccepts c now' t second = true)
    (keys : getGeneratorKeys s.store.keys first.height = .ok generators)
    (keys' : getGeneratorKeys t.store.keys second.height = .ok generators)
    (own : first.generatorAddress = second.generatorAddress) :
    c.getSlotNumber first.timestamp + generators.length ≤ c.getSlotNumber second.timestamp := by
  obtain ⟨acc,store',_,rfl⟩ := applyBlock applied
  obtain ⟨_,_,g,_,_,listed,turn,address⟩ := acceptsTurn acc
  obtain ⟨last,_,g',top,past,listed',turn',address'⟩ := acceptsTurn accepted
  cases listed.symm.trans keys
  cases listed'.symm.trans keys'
  have passed := runInduction _ (fun _ _ _ (_ : True) => passedStep) (fun _ _ => trivial)
    (by rintro _ ⟨⟩; exact le_refl (c.getSlotNumber first.timestamp)) run
  have later := (passed last top).trans_lt past
  have same : c.getSlotNumber first.timestamp%generators.length = c.getSlotNumber second.timestamp%generators.length := by
    refine (getElem?_inj ?_ distinct).mp ?_
    · simpa using (List.getElem?_eq_some_iff.mp turn).1
    · rw [getElem?_map,getElem?_map,turn,turn',map_some,map_some,address,own,address']
  have round := Nat.le_of_dvd (Nat.sub_pos_of_lt later)
    (Nat.dvd_of_mod_eq_zero (Nat.sub_mod_eq_zero_of_mod_eq same.symm))
  omega

def wrappingChain (n : Nat) : ChainState :=
  ((genesisState (sampleHeader 0 0 0 0 0 0 0)).run sampleEngine.liskBFT (verifyBlockAccepts sampleEngine)
    (wrappingStart.take n)).getD ⟨emptyStore,[]⟩

theorem generatorsTakeTurnsSample : sampleEngine.getSlotNumber 70 + 4 ≤ sampleEngine.getSlotNumber 110 := by
  refine generatorsTakeTurns sampleEngine (wrappingChain 7) (wrappingChain 8) (wrappingChain 11) 1000 1000 (sampleHeader 3 3 70 2 4 2 100)
    (sampleHeader 5 5 110 4 4 1 5) [.commit,.block 1000 (sampleHeader 4 4 100 3 3 2 1),.commit] [⟨[1],[]⟩,⟨[2],[]⟩,⟨[3],[]⟩,⟨[4],[]⟩]
    ?_ ?_ ?_ ?_ ?_ ?_ rfl <;> decide +kernel

end LiskEngine.Consensus
